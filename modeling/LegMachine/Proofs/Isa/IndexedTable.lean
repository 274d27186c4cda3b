import LegMachine.Proofs.Isa.TableBuilder

/-!
# Looking words up through indices

An indexed table reads a word by one look into each index, and its rows follow the sorted places of
the indices. If every place that is noted is that of an entry with the mask and the fixed bits, both
have an outcome and agree with the table that is told from it (`find?_eq`, `rows_eq`); so it is with
every table that is built (`Indexes.find?_eq`, `ofCatalog_find?_rows`).
-/

namespace LegMachine

theorem mapM_eq_filterMap {α β : Type} {f : α → Option β} {l : List α}
    (h : ∀ x ∈ l, (f x).isSome = true) : l.mapM f = some (l.filterMap f) := by
  induction l with
  | nil => rfl
  | cons x l ih =>
    obtain ⟨hx, hl⟩ := List.forall_mem_cons.1 h
    obtain ⟨y, hy⟩ := Option.isSome_iff_exists.1 hx
    rw [List.mapM_cons, hy, ih hl, List.filterMap_cons_some hy]
    rfl

namespace IndexedTable

section

variable {t : IndexedTable} (hplaces : ∀ g ∈ t.indices, ∀ fixed place,
  g.places.lookup fixed = some place →
    ∃ e, t.entries[place]? = some e ∧ e.key = (g.mask, fixed))
include hplaces

theorem mem_entriesOf {g : MaskIndex} (hg : g ∈ t.indices) {e : Entry} :
    e ∈ t.entriesOf g ↔ ∃ place,
      g.places.lookup e.encoding.fixed = some place ∧ t.entries[place]? = some e := by
  constructor
  · intro he
    obtain ⟨p, hp, hentry⟩ := List.mem_filterMap.1 he
    have hlookup := MaskIndex.mem_sortedPlaces.1 hp
    obtain ⟨x, hx, hkey⟩ := hplaces g hg _ _ hlookup
    obtain rfl : x = e := Option.some.inj (hx.symm.trans hentry)
    exact ⟨p.2, (show x.encoding.fixed = p.1 from congrArg Prod.snd hkey) ▸ hlookup, hx⟩
  · rintro ⟨place, hlookup, he⟩
    exact List.mem_filterMap.2 ⟨⟨_, place⟩, MaskIndex.mem_sortedPlaces.2 hlookup, he⟩

/-- The entry with some fixed bits is the one at their place. -/
theorem entryAt?_eq {g : MaskIndex} (hg : g ∈ t.indices) (fixed : Word) :
    MaskGroup.entryAt? ⟨g.mask, t.entriesOf g⟩ fixed =
      (g.places.lookup fixed).bind (t.entries[·]?) := by
  unfold MaskGroup.entryAt?
  cases hlookup : g.places.lookup fixed with
  | none =>
    refine List.find?_eq_none.2 fun e he heq => ?_
    obtain ⟨place, hplace, -⟩ := (mem_entriesOf hplaces hg).1 he
    rw [beq_iff_eq.1 heq, hlookup] at hplace
    cases hplace
  | some place =>
    obtain ⟨e, he, hkey⟩ := hplaces g hg fixed place hlookup
    have hfixed : e.encoding.fixed = fixed := congrArg Prod.snd hkey
    have hmem := (mem_entriesOf hplaces hg).2 ⟨place, hfixed ▸ hlookup, he⟩
    cases hfind : (t.entriesOf g).find? (·.encoding.fixed == fixed) with
    | none => exact absurd (beq_iff_eq.2 hfixed) (List.find?_eq_none.1 hfind e hmem)
    | some x =>
      have hmem' := List.mem_of_find?_eq_some hfind
      obtain ⟨place', hplace', hx⟩ := (mem_entriesOf hplaces hg).1 hmem'
      have hfixed' : x.encoding.fixed = fixed := by simpa using List.find?_some hfind
      rw [hfixed', hlookup] at hplace'
      obtain rfl := Option.some.inj hplace'
      exact hx.symm

theorem decode_probe? {g : MaskIndex} (hg : g ∈ t.indices) (w : Word) :
    (MaskGroup.entryAt? ⟨g.mask, t.entriesOf g⟩ (w &&& g.mask)).map (·.decode w) =
      (g.probe? w).bind fun place => t.entries[place]?.map (·.decode w) := by
  rw [entryAt?_eq hplaces hg, MaskIndex.probe?, Option.map_bind]
  rfl

/-- A word is read as the table reads it. -/
theorem find?_eq (w : Word) : t.find? w = some (t.table.find? w) := by
  let read (place : Nat) : Option Decoded := t.entries[place]?.map (·.decode w)
  have hread : ∀ g ∈ t.indices, ∀ place, g.probe? w = some place →
      ∃ e : Entry, t.entries[place]? = some e ∧ read place = some (e.decode w) := by
    intro g hg place hplace
    obtain ⟨e, he, -⟩ := hplaces g hg _ place hplace
    exact ⟨e, he, by simp [read, he]⟩
  have hprobe : ∀ gs ⊆ t.indices, OpcodeTable.find? ⟨gs.map fun g => ⟨g.mask, t.entriesOf g⟩⟩ w =
      (gs.findSome? (·.probe? w)).bind read := by
    intro gs
    induction gs with
    | nil => exact fun _ => rfl
    | cons g gs ih =>
      intro hsub
      obtain ⟨hg, hgs⟩ := List.cons_subset.1 hsub
      have hrest := ih hgs
      unfold OpcodeTable.find? at hrest ⊢
      rw [List.map_cons, List.findSome?_cons, List.findSome?_cons, decode_probe? hplaces hg, hrest]
      cases hplace : g.probe? w with
      | none => rfl
      | some place =>
        obtain ⟨e, -, he⟩ := hread g hg place hplace
        simp [read, he]
  rw [table, hprobe t.indices (List.Subset.refl _), find?]
  cases hfound : t.indices.findSome? (·.probe? w) with
  | none => rfl
  | some place =>
    obtain ⟨g, hg, hplace⟩ := List.exists_of_findSome?_eq_some hfound
    obtain ⟨e, he, hdecode⟩ := hread g hg place hplace
    rw [Option.bind_some, hdecode]
    simp [he]

/-- The rows are those of the table. -/
theorem rows_eq : t.rows = some t.table.rows := by
  let row (mask : Word) (p : (_ : Word) × Nat) : Option OpcodeRow :=
    t.entries[p.2]?.map fun e => ⟨mask, bitCount mask, p.1, e.descriptor.sample⟩
  have hrow : ∀ g ∈ t.indices, ∀ p ∈ g.sortedPlaces, row g.mask p = t.entries[p.2]?.map
      fun e => ⟨g.mask, bitCount g.mask, e.encoding.fixed, e.descriptor.sample⟩ := by
    intro g hg p hp
    obtain ⟨e, he, hkey⟩ := hplaces g hg _ _ (MaskIndex.mem_sortedPlaces.1 hp)
    have hfixed : e.encoding.fixed = p.1 := congrArg Prod.snd hkey
    simp only [row, he, Option.map_some, hfixed]
  have hsome : ∀ x ∈ t.indices.flatMap fun g => g.sortedPlaces.map (g.mask, ·),
      (row x.1 x.2).isSome = true := by
    intro x hx
    obtain ⟨g, hg, hx⟩ := List.mem_flatMap.1 hx
    obtain ⟨p, hp, rfl⟩ := List.mem_map.1 hx
    obtain ⟨e, he, -⟩ := hplaces g hg _ _ (MaskIndex.mem_sortedPlaces.1 hp)
    simp [row, he]
  refine (mapM_eq_filterMap hsome).trans (congrArg some ?_)
  rw [OpcodeTable.rows, table, List.flatMap_map, List.filterMap_flatMap]
  refine List.flatMap_congr fun g hg => ?_
  rw [entriesOf, List.map_filterMap, List.filterMap_map]
  exact List.filterMap_congr fun p hp => hrow g hg p hp

end

theorem Indexes.find?_eq {t : IndexedTable} {held : List Descriptor} (h : t.Indexes held)
    (w : Word) : t.find? w = some (t.table.find? w) :=
  IndexedTable.find?_eq h.places w

theorem Indexes.rows_eq {t : IndexedTable} {held : List Descriptor} (h : t.Indexes held) :
    t.rows = some t.table.rows :=
  IndexedTable.rows_eq h.places

/-- The indexed table of a catalog reads words and lists rows as its table does. -/
theorem ofCatalog_find?_rows (catalog : List Descriptor) (w : Word) :
    (ofCatalog catalog).map (·.map fun t => (t.find? w, t.rows)) =
      some ((OpcodeTable.ofCatalog catalog).map fun t => (some (t.find? w), some t.rows)) := by
  obtain ⟨result, b, hextend, hb, htable⟩ := TableBuilder.wellFormed_empty.extend_table catalog
  have hplaces : ∀ g ∈ b.build.indices, ∀ fixed place, g.places.lookup fixed = some place →
      ∃ e, b.build.entries[place]? = some e ∧ e.key = (g.mask, fixed) :=
    fun g hg fixed place => hb.entry_of_lookup hg
  rw [table_empty] at htable
  rw [ofCatalog, hextend, OpcodeTable.ofCatalog, htable]
  cases result with
  | error x => rfl
  | ok =>
    show some (Except.ok (b.build.find? w, b.build.rows)) = _
    rw [find?_eq hplaces, rows_eq hplaces]
    rfl

end IndexedTable

end LegMachine
