import LegMachine.Isa.TableBuilder
import LegMachine.Proofs.Isa.Search
import Mathlib.Algebra.GroupWithZero.Nat

/-!
# Building a table step by step

An addition to a builder either fails and leaves the builder as it was, or adds an entry
(`WellFormed.insert_cases`), although it begins with the index of the mask. What carries this is
that places and entries correspond to one another (`WellFormed`): no index is empty, and a place is
noted exactly where an entry with that mask and those fixed bits stands. A table is told from its
entries (`OpcodeTable.Canonical.eq_of_perm`), so a builder goes through the same tables as
insertions into a table do (`WellFormed.insert_table`), and a sequence of additions leads where
those that succeed lead alone (`insertAll_outcome`).
-/

namespace LegMachine

/-! ## Tables and their entries -/

namespace OpcodeTable

/-- Groups and their entries lie in order, no group is empty, and no key occurs twice. -/
structure Canonical (t : OpcodeTable) : Prop where
  ordered : t.Ordered
  sorted : GroupsSorted t.groups
  nonempty : ∀ g ∈ t.groups, g.entries ≠ []
  distinct : (t.entries.map Entry.key).Nodup

theorem insertEntry_ne_nil (e : Entry) (l : List Entry) : insertEntry e l ≠ [] := by
  intro h
  have hlength := (insertEntry_perm e l).length_eq
  rw [h] at hlength
  cases hlength

theorem nonempty_insertGrouped (e : Entry) {gs : List MaskGroup}
    (h : ∀ g ∈ gs, g.entries ≠ []) : ∀ g ∈ LegMachine.insertGrouped e gs, g.entries ≠ [] := by
  induction gs with
  | nil => exact List.forall_mem_singleton.2 (List.cons_ne_nil e [])
  | cons g rest ih =>
    obtain ⟨hg, hrest⟩ := List.forall_mem_cons.1 h
    unfold LegMachine.insertGrouped
    split
    · exact List.forall_mem_cons.2 ⟨insertEntry_ne_nil e g.entries, hrest⟩
    · split
      · exact List.forall_mem_cons.2 ⟨List.cons_ne_nil e [], h⟩
      · exact List.forall_mem_cons.2 ⟨hg, ih hrest⟩

variable {t t' : OpcodeTable}

theorem Canonical.insertGrouped (h : t.Canonical) {e : Entry}
    (hfree : e.key ∉ t.entries.map Entry.key) :
    Canonical ⟨LegMachine.insertGrouped e t.groups⟩ where
  ordered := h.ordered.insertGrouped e
  sorted := h.sorted.insertGrouped e
  nonempty := nonempty_insertGrouped e h.nonempty
  distinct := (nodup_keys_insertGrouped (l := [])).2 ⟨hfree, h.distinct⟩

theorem Ordered.pairwise_groups (h : t.Ordered) :
    t.groups.Pairwise fun g g' => probedBefore g.mask g'.mask = true :=
  List.pairwise_map.1 h.sorted

theorem Ordered.nodup_groups (h : t.Ordered) : t.groups.Nodup :=
  h.pairwise_groups.imp fun hbefore => by
    rintro rfl
    rw [probedBefore_irrefl] at hbefore
    cases hbefore

/-- A group holds all entries with its mask. -/
theorem Ordered.entries_eq_filter (h : t.Ordered) {g : MaskGroup} (hg : g ∈ t.groups) :
    g.entries = t.entries.filter (·.encoding.mask == g.mask) := by
  have hsame : g.entries.filter (·.encoding.mask == g.mask) = g.entries :=
    List.filter_eq_self.2 fun e he => beq_iff_eq.2 (h.mask_eq g hg e he)
  have hother {g' : MaskGroup} (hg' : g' ∈ t.groups) (hne : g' ≠ g) :
      g'.entries.filter (·.encoding.mask == g.mask) = [] :=
    List.filter_eq_nil_iff.2 fun e he hmask => hne <|
      h.group_eq hg' hg ((h.mask_eq g' hg' e he).symm.trans (beq_iff_eq.1 hmask))
  have hnodup := h.nodup_groups
  rw [entries, List.filter_flatMap]
  obtain ⟨before, behind, hsplit⟩ := List.append_of_mem hg
  rw [hsplit] at hnodup hother ⊢
  obtain ⟨-, hbehind, hbefore⟩ := List.nodup_append.1 hnodup
  rw [List.flatMap_append, List.flatMap_cons, hsame, List.flatMap_eq_nil_iff.2,
    List.flatMap_eq_nil_iff.2, List.nil_append, List.append_nil]
  · intro g' hg'
    exact hother (by simp [hg']) fun heq => (List.nodup_cons.1 hbehind).1 (heq ▸ hg')
  · intro g' hg'
    exact hother (by simp [hg']) (hbefore g' hg' g List.mem_cons_self)

theorem Canonical.mem_groups (h : t.Canonical) (h' : t'.Ordered) (hentries : t.entries = t'.entries)
    {g : MaskGroup} (hg : g ∈ t.groups) : g ∈ t'.groups := by
  obtain ⟨e, he⟩ := List.exists_mem_of_ne_nil _ (h.nonempty g hg)
  have hmem : e ∈ t'.entries := hentries ▸ List.mem_flatMap.2 ⟨g, hg, he⟩
  obtain ⟨g', hg', he'⟩ := List.mem_flatMap.1 hmem
  have hmask : g.mask = g'.mask :=
    (h.ordered.mask_eq g hg e he).symm.trans (h'.mask_eq g' hg' e he')
  have heq : g.entries = g'.entries := by
    rw [h.ordered.entries_eq_filter hg, h'.entries_eq_filter hg', hentries, hmask]
  have hgroup : g = g' := by
    obtain ⟨m, l⟩ := g
    obtain ⟨m', l'⟩ := g'
    cases hmask
    cases heq
    rfl
  exact hgroup ▸ hg'

/-- Of two tables with the same entries, each lies in the only order there is. -/
theorem Canonical.eq_of_perm (h : t.Canonical) (h' : t'.Canonical)
    (hp : t.entries.Perm t'.entries) : t = t' := by
  have hentries : t.entries = t'.entries :=
    hp.eq_of_pairwise (fun a b _ _ hab hba => (hab.asymm hba).elim)
      (h.ordered.pairwise_before h.sorted h.distinct)
      (h'.ordered.pairwise_before h'.sorted h'.distinct)
  have hmem (g : MaskGroup) : g ∈ t.groups ↔ g ∈ t'.groups :=
    ⟨h.mem_groups h'.ordered hentries, h'.mem_groups h.ordered hentries.symm⟩
  have hgroups : t.groups = t'.groups := by
    refine List.Perm.eq_of_pairwise ?_ h.ordered.pairwise_groups h'.ordered.pairwise_groups
      ((List.perm_ext_iff_of_nodup h.ordered.nodup_groups h'.ordered.nodup_groups).2 hmem)
    intro g g' _ _ hab hba
    rw [probedBefore_asymm hab] at hba
    cases hba
  obtain ⟨gs⟩ := t
  exact congrArg OpcodeTable.mk hgroups

theorem Ordered.of_entryAt? (h : t.Ordered) {mask fixed : Word} {e : Entry}
    (he : t.entryAt? mask fixed = some e) : e ∈ t.entries ∧ e.key = (mask, fixed) := by
  obtain ⟨g, hfind, hentry⟩ := Option.bind_eq_some_iff.1 he
  have hg := List.mem_of_find?_eq_some hfind
  have hmask : g.mask = mask := by simpa using List.find?_some hfind
  have hmem : e ∈ g.entries := List.mem_of_find?_eq_some hentry
  have hfixed : e.encoding.fixed = fixed := by simpa using List.find?_some hentry
  exact ⟨List.mem_flatMap.2 ⟨g, hg, hmem⟩,
    Prod.ext ((h.mask_eq g hg e hmem).trans hmask) hfixed⟩

theorem Canonical.entryAt?_eq_some (h : t.Canonical) {e : Entry} (he : e ∈ t.entries) :
    t.entryAt? e.encoding.mask e.encoding.fixed = some e := by
  cases hfind : t.entryAt? e.encoding.mask e.encoding.fixed with
  | none =>
    exact absurd (List.mem_map_of_mem he) ((entryAt?_eq_none h.ordered).1 hfind)
  | some x =>
    obtain ⟨hx, hkey⟩ := h.ordered.of_entryAt? hfind
    rw [List.inj_on_of_nodup_map h.distinct hx he hkey]

end OpcodeTable

theorem IndexedTable.entries_table (t : IndexedTable) :
    t.table.entries = t.indices.flatMap t.entriesOf := by
  rw [OpcodeTable.entries, IndexedTable.table, List.flatMap_map]

/-! ## Additions -/

namespace TableBuilder

variable {b : TableBuilder}

/-- The place that is noted for a key. -/
def place? (b : TableBuilder) (key : Word × Word) : Option Nat :=
  (b.indices.lookup key.1).bind (·.places.lookup key.2)

/-- The index of a mask, an empty one if there is none. -/
def index (mask : Word) (b : TableBuilder) : MaskIndex :=
  (b.indices.lookup mask).getD ⟨mask, ∅⟩

def add (e : Entry) (b : TableBuilder) : TableBuilder :=
  (b.reserve e.encoding.mask).push (b.index e.encoding.mask) e

/-- An index has the mask it is kept for and is not empty, and a place is noted exactly for the key
of the entry that stands there. -/
structure WellFormed (b : TableBuilder) : Prop where
  mask_eq : ∀ {mask : Word} {g : MaskIndex}, b.indices.lookup mask = some g → g.mask = mask
  nonempty : ∀ {mask : Word} {g : MaskIndex}, b.indices.lookup mask = some g → g.size ≠ 0
  place_iff : ∀ {key : Word × Word} {place : Nat},
    b.place? key = some place ↔ ∃ e, b.entries[place]? = some e ∧ e.key = key

theorem wellFormed_empty : empty.WellFormed where
  mask_eq h := by simp [empty] at h
  nonempty h := by simp [empty] at h
  place_iff := by simp [empty, place?]

theorem entries_reserve (mask : Word) (b : TableBuilder) :
    (b.reserve mask).entries = b.entries := by
  unfold reserve
  split <;> rfl

theorem lookup_reserve (mask : Word) (b : TableBuilder) :
    (b.reserve mask).indices.lookup mask = some (b.index mask) := by
  unfold reserve index
  split
  · next hmem =>
    obtain ⟨g, hg⟩ := Option.isSome_iff_exists.1 (AList.lookup_isSome.2 hmem)
    rw [hg, Option.getD_some]
  · next hmem => rw [AList.lookup_insert, AList.lookup_eq_none.2 hmem, Option.getD_none]

theorem lookup_reserve_ne {mask other : Word} (h : other ≠ mask) (b : TableBuilder) :
    (b.reserve mask).indices.lookup other = b.indices.lookup other := by
  unfold reserve
  split
  · rfl
  · exact AList.lookup_insert_ne h

theorem lookup_index (key : Word × Word) (b : TableBuilder) :
    (b.index key.1).places.lookup key.2 = b.place? key := by
  unfold index place?
  cases b.indices.lookup key.1 with
  | none => exact AList.lookup_empty key.2
  | some g => rfl

theorem reserve_of_place {key : Word × Word} {place : Nat} (h : b.place? key = some place) :
    b.reserve key.1 = b := by
  obtain ⟨g, hg, -⟩ := Option.bind_eq_some_iff.1 h
  exact if_pos (AList.lookup_isSome.1 (Option.isSome_iff_exists.2 ⟨g, hg⟩))

/-- The index of a mask is made only for an entry that is added. -/
theorem insert_eq {d : Descriptor} {e : Entry} (he : d.entry? = some e) (b : TableBuilder) :
    b.insert d = match b.place? e.key with
      | some place => b.entries[place]?.map fun old =>
          (.error (.collision old.descriptor.sample d.sample e.encoding.mask e.encoding.fixed), b)
      | none => some (.ok (), b.add e) := by
  obtain ⟨d', encoding⟩ := e
  obtain ⟨rfl, hcompile⟩ := Descriptor.entry?_eq_some.1 he
  unfold insert
  rw [hcompile]
  dsimp only
  rw [lookup_reserve, entries_reserve]
  have hlookup : (b.index encoding.mask).places.lookup encoding.fixed =
      b.place? (encoding.mask, encoding.fixed) := b.lookup_index (encoding.mask, encoding.fixed)
  show (match (b.index encoding.mask).places.lookup encoding.fixed with
    | some place => _
    | none => _) = match b.place? (encoding.mask, encoding.fixed) with
    | some place => _
    | none => _
  rw [hlookup]
  cases hplace : b.place? (encoding.mask, encoding.fixed) with
  | none => rfl
  | some place =>
    have hreserve : b.reserve encoding.mask = b := reserve_of_place hplace
    rw [hreserve]
    exact Option.map_eq_bind.symm

theorem lookup_add (e : Entry) (b : TableBuilder) (mask : Word) :
    (b.add e).indices.lookup mask = if mask = e.encoding.mask then
        some { b.index mask with
          places := (b.index mask).places.insert e.encoding.fixed b.entries.length }
      else b.indices.lookup mask := by
  unfold add push
  split
  · next hmask =>
    subst hmask
    rw [AList.lookup_insert, entries_reserve]
  · next hmask => rw [AList.lookup_insert_ne hmask, lookup_reserve_ne hmask]

theorem place?_add (e : Entry) (b : TableBuilder) (key : Word × Word) :
    (b.add e).place? key = if key = e.key then some b.entries.length else b.place? key := by
  obtain ⟨mask, fixed⟩ := key
  rw [place?, lookup_add]
  by_cases hmask : mask = e.encoding.mask
  · subst hmask
    rw [if_pos rfl, Option.bind_some]
    by_cases hfixed : fixed = e.encoding.fixed
    · subst hfixed
      exact (AList.lookup_insert (b.index e.encoding.mask).places).trans (if_pos rfl).symm
    · rw [if_neg fun h => hfixed (congrArg Prod.snd h)]
      exact (AList.lookup_insert_ne hfixed).trans (b.lookup_index (e.encoding.mask, fixed))
  · rw [if_neg hmask, if_neg fun h => hmask (congrArg Prod.fst h), place?]

theorem entries_add (e : Entry) (b : TableBuilder) : (b.add e).entries = b.entries ++ [e] := by
  unfold add push
  rw [entries_reserve]

theorem WellFormed.index_mask (h : b.WellFormed) (mask : Word) : (b.index mask).mask = mask := by
  unfold index
  cases hlookup : b.indices.lookup mask with
  | none => rfl
  | some g => exact h.mask_eq hlookup

theorem WellFormed.place_eq_none (h : b.WellFormed) {key : Word × Word} :
    b.place? key = none ↔ key ∉ b.entries.map Entry.key := by
  rw [Option.eq_none_iff_forall_ne_some]
  constructor
  · intro hnone hmem
    obtain ⟨e, he, rfl⟩ := List.mem_map.1 hmem
    obtain ⟨place, hplace⟩ := List.mem_iff_getElem?.1 he
    exact hnone place (h.place_iff.2 ⟨e, hplace, rfl⟩)
  · intro hnot place hplace
    obtain ⟨e, he, rfl⟩ := h.place_iff.1 hplace
    exact hnot (List.mem_map_of_mem (List.mem_of_getElem? he))

/-- An index that is made for a mask gets an entry at once. -/
theorem WellFormed.add (h : b.WellFormed) {e : Entry}
    (hfree : e.key ∉ b.entries.map Entry.key) : (b.add e).WellFormed where
  mask_eq {mask g} hg := by
    rw [lookup_add] at hg
    split at hg
    · cases hg
      exact h.index_mask mask
    · exact h.mask_eq hg
  nonempty {mask g} hg := by
    rw [lookup_add] at hg
    split at hg
    · cases hg
      simp [MaskIndex.size]
    · exact h.nonempty hg
  place_iff {key place} := by
    have hlast {x : Entry} : (b.entries ++ [e])[place]? = some x ↔
        b.entries[place]? = some x ∨ place = b.entries.length ∧ e = x := by
      grind
    rw [place?_add, entries_add]
    split
    · next hkey =>
      subst hkey
      rw [Option.some.injEq]
      constructor
      · rintro rfl
        exact ⟨e, hlast.2 (.inr ⟨rfl, rfl⟩), rfl⟩
      · rintro ⟨x, hx, hkey⟩
        rcases hlast.1 hx with hx | ⟨hplace, -⟩
        · exact absurd (hkey ▸ List.mem_map_of_mem (List.mem_of_getElem? hx)) hfree
        · exact hplace.symm
    · next hkey =>
      rw [h.place_iff]
      constructor
      · rintro ⟨x, hx, hx'⟩
        exact ⟨x, hlast.2 (.inl hx), hx'⟩
      · rintro ⟨x, hx, rfl⟩
        rcases hlast.1 hx with hx | ⟨-, rfl⟩
        · exact ⟨x, hx, rfl⟩
        · exact absurd rfl hkey

/-- No two entries have one key, as only one place can be noted for it. -/
theorem WellFormed.nodup_keys (h : b.WellFormed) : (b.entries.map Entry.key).Nodup := by
  rw [List.Nodup, List.pairwise_map, List.pairwise_iff_getElem]
  intro i j hi hj hlt hkey
  have hplace (k : Nat) (hk : k < b.entries.length) :
      b.place? b.entries[k].key = some k :=
    h.place_iff.2 ⟨b.entries[k], List.getElem?_eq_getElem hk, rfl⟩
  have hsame := hplace i hi
  rw [hkey, hplace j hj, Option.some.injEq] at hsame
  omega

/-- All that an addition can do. -/
theorem WellFormed.insert_cases (h : b.WellFormed) (d : Descriptor) :
    (∃ x, d.template.compile = .error x ∧ b.insert d = some (.error x, b)) ∨
    (∃ e old, d.entry? = some e ∧ old ∈ b.entries ∧ old.key = e.key ∧
      b.insert d = some (.error (.collision old.descriptor.sample d.sample e.encoding.mask
        e.encoding.fixed), b)) ∨
    ∃ e, d.entry? = some e ∧ e.key ∉ b.entries.map Entry.key ∧
      b.insert d = some (.ok (), b.add e) := by
  cases hcompile : d.template.compile with
  | error x =>
    refine .inl ⟨x, rfl, ?_⟩
    unfold insert
    rw [hcompile]
  | ok encoding =>
    have he : d.entry? = some ⟨d, encoding⟩ := Descriptor.entry?_eq_some.2 ⟨rfl, hcompile⟩
    have hinsert := insert_eq he b
    cases hplace : b.place? (Entry.key ⟨d, encoding⟩) with
    | none =>
      rw [hplace] at hinsert
      exact .inr (.inr ⟨_, he, h.place_eq_none.1 hplace, hinsert⟩)
    | some place =>
      obtain ⟨old, hold, hkey⟩ := h.place_iff.1 hplace
      rw [hplace] at hinsert
      dsimp only at hinsert
      rw [hold] at hinsert
      exact .inr (.inl ⟨_, old, he, List.mem_of_getElem? hold, hkey, hinsert⟩)

/-! ## Finished tables -/

theorem WellFormed.mem_indices_build (h : b.WellFormed) {g : MaskIndex} :
    g ∈ b.build.indices ↔ b.indices.lookup g.mask = some g := by
  rw [build, List.mem_mergeSort, List.mem_map]
  constructor
  · rintro ⟨⟨mask, g⟩, hmem, rfl⟩
    have hlookup := AList.mem_lookup_iff.2 hmem
    rwa [h.mask_eq hlookup]
  · intro hlookup
    exact ⟨⟨g.mask, g⟩, AList.mem_lookup_iff.1 hlookup, rfl⟩

theorem WellFormed.nodup_masks (h : b.WellFormed) : (b.build.indices.map (·.mask)).Nodup := by
  have hkeys : (b.indices.entries.map (·.2)).map (·.mask) = b.indices.keys := by
    rw [List.map_map]
    exact List.map_congr_left fun p hp => h.mask_eq (AList.mem_lookup_iff.2 hp)
  have hperm : (b.build.indices.map (·.mask)).Perm b.indices.keys :=
    hkeys ▸ (List.mergeSort_perm _ _).map _
  exact hperm.nodup_iff.2 b.indices.keys_nodup

theorem WellFormed.pairwise_build (h : b.WellFormed) :
    (b.build.indices.map (·.mask)).Pairwise fun m m' => probedBefore m m' = true := by
  have hle : b.build.indices.Pairwise fun g g' => (!probedBefore g'.mask g.mask) = true := by
    refine List.pairwise_mergeSort ?_ ?_ _
    · intro g₁ g₂ g₃ h₁₂ h₂₃
      rw [Bool.not_eq_true'] at h₁₂ h₂₃ ⊢
      by_contra hbefore
      rw [Bool.not_eq_false] at hbefore
      by_cases heq : g₁.mask = g₂.mask
      · rw [← heq, hbefore] at h₂₃
        cases h₂₃
      · rw [probedBefore_trans hbefore (probedBefore_total heq h₁₂)] at h₂₃
        cases h₂₃
    · intro g g'
      cases hbefore : probedBefore g'.mask g.mask with
      | true => rw [probedBefore_asymm hbefore]; rfl
      | false => rfl
  rw [List.pairwise_map]
  refine (hle.and (List.pairwise_map.1 h.nodup_masks)).imp fun hg => ?_
  exact probedBefore_total hg.2 (Bool.not_eq_true' _ ▸ hg.1)

section

variable {g : MaskIndex}

/-- Where a place is noted, the entry stands for which it was noted. -/
theorem WellFormed.entry_of_lookup (h : b.WellFormed) (hg : g ∈ b.build.indices) {fixed : Word}
    {place : Nat} (hplace : g.places.lookup fixed = some place) :
    ∃ e, b.entries[place]? = some e ∧ e.key = (g.mask, fixed) := by
  refine h.place_iff.1 ?_
  rw [place?, h.mem_indices_build.1 hg]
  exact hplace

theorem WellFormed.mem_entriesOf (h : b.WellFormed) (hg : g ∈ b.build.indices) {e : Entry} :
    e ∈ b.build.entriesOf g ↔ e ∈ b.entries ∧ e.encoding.mask = g.mask := by
  simp only [IndexedTable.entriesOf, List.mem_filterMap, MaskIndex.mem_sortedPlaces]
  constructor
  · rintro ⟨p, hp, he⟩
    obtain ⟨x, hx, hkey⟩ := h.entry_of_lookup hg hp
    obtain rfl : x = e := Option.some.inj (hx.symm.trans he)
    exact ⟨List.mem_of_getElem? hx, congrArg Prod.fst hkey⟩
  · rintro ⟨hmem, hmask⟩
    obtain ⟨place, he⟩ := List.mem_iff_getElem?.1 hmem
    have hplace := h.place_iff.2 ⟨e, he, rfl⟩
    rw [place?, Entry.key, hmask, h.mem_indices_build.1 hg, Option.bind_some] at hplace
    exact ⟨⟨e.encoding.fixed, place⟩, hplace, he⟩

theorem WellFormed.length_entriesOf (h : b.WellFormed) (hg : g ∈ b.build.indices) :
    (b.build.entriesOf g).length = g.size := by
  rw [IndexedTable.entriesOf, List.filterMap_length_eq_length.2, MaskIndex.sortedPlaces,
    List.length_mergeSort, MaskIndex.size]
  intro p hp
  obtain ⟨e, he, -⟩ := h.entry_of_lookup hg (MaskIndex.mem_sortedPlaces.1 hp)
  exact Option.isSome_iff_exists.2 ⟨e, he⟩

theorem WellFormed.pairwise_entriesOf (h : b.WellFormed) (hg : g ∈ b.build.indices) :
    (b.build.entriesOf g).Pairwise fun e e' => e.encoding.fixed < e'.encoding.fixed := by
  let le (p q : (_ : Word) × Nat) : Bool := p.1 ≤ q.1
  have hle : (g.places.entries.mergeSort le).Pairwise fun p q => le p q = true := by
    refine List.pairwise_mergeSort (fun p q r hpq hqr => ?_) (fun p q => ?_) _
    · exact decide_eq_true (BitVec.le_trans (of_decide_eq_true hpq) (of_decide_eq_true hqr))
    · rw [Bool.or_eq_true, decide_eq_true_eq, decide_eq_true_eq]
      exact BitVec.le_total p.1 q.1
  have hne : (g.places.entries.mergeSort le).Pairwise fun p q => p.1 ≠ q.1 :=
    (List.mergeSort_perm _ le).symm.pairwise (List.nodupKeys_iff_pairwise.1 g.places.nodupKeys)
      fun hpq => hpq.symm
  rw [IndexedTable.entriesOf, List.pairwise_filterMap]
  refine (hle.and hne).imp_of_mem ?_
  rintro ⟨fixed, place⟩ ⟨fixed', place'⟩ hp hq ⟨hpq, hpq'⟩ e he e' he'
  obtain ⟨x, hx, hkey⟩ := h.entry_of_lookup hg (MaskIndex.mem_sortedPlaces.1 hp)
  obtain ⟨x', hx', hkey'⟩ := h.entry_of_lookup hg (MaskIndex.mem_sortedPlaces.1 hq)
  obtain rfl : x = e := Option.some.inj (hx.symm.trans he)
  obtain rfl : x' = e' := Option.some.inj (hx'.symm.trans he')
  have hfixed : x.encoding.fixed = fixed := congrArg Prod.snd hkey
  have hfixed' : x'.encoding.fixed = fixed' := congrArg Prod.snd hkey'
  rw [hfixed, hfixed']
  exact BitVec.lt_of_le_ne (of_decide_eq_true hpq) hpq'

end

theorem WellFormed.mem_table (h : b.WellFormed) {e : Entry} :
    e ∈ b.build.table.entries ↔ e ∈ b.entries := by
  rw [IndexedTable.entries_table, List.mem_flatMap]
  constructor
  · rintro ⟨g, hg, he⟩
    exact ((h.mem_entriesOf hg).1 he).1
  · intro he
    obtain ⟨place, hentry⟩ := List.mem_iff_getElem?.1 he
    obtain ⟨g, hlookup, -⟩ := Option.bind_eq_some_iff.1 (h.place_iff.2 ⟨e, hentry, rfl⟩)
    have hmask : g.mask = e.encoding.mask := h.mask_eq hlookup
    have hg : g ∈ b.build.indices := h.mem_indices_build.2 (hmask ▸ hlookup)
    exact ⟨g, hg, (h.mem_entriesOf hg).2 ⟨he, hmask.symm⟩⟩

/-- The table that is built lies in order, and holds every entry once. -/
theorem WellFormed.canonical_table (h : b.WellFormed) : b.build.table.Canonical where
  ordered := by
    constructor
    case mask_eq =>
      refine List.forall_mem_map.2 fun g hg e he => ?_
      exact ((h.mem_entriesOf hg).1 he).2
    case sorted =>
      rw [IndexedTable.table, List.map_map]
      exact h.pairwise_build
  sorted := by
    refine List.forall_mem_map.2 fun g hg => ?_
    exact (h.pairwise_entriesOf hg).imp BitVec.le_of_lt
  nonempty := by
    refine List.forall_mem_map.2 fun g hg hnil => ?_
    have hlength := h.length_entriesOf hg
    rw [show b.build.entriesOf g = [] from hnil] at hlength
    exact h.nonempty (h.mem_indices_build.1 hg) hlength.symm
  distinct := by
    rw [IndexedTable.entries_table, List.Nodup, List.pairwise_map, List.pairwise_flatMap]
    constructor
    · intro g hg
      refine (h.pairwise_entriesOf hg).imp fun hlt hkey => ?_
      exact BitVec.ne_of_lt hlt (congrArg Prod.snd hkey)
    · refine (List.pairwise_map.1 h.nodup_masks).imp_of_mem fun hg hg' hne e he e' he' hkey => ?_
      rw [← ((h.mem_entriesOf hg).1 he).2, ← ((h.mem_entriesOf hg').1 he').2] at hne
      exact hne (congrArg Prod.fst hkey)

theorem WellFormed.perm_table (h : b.WellFormed) : b.build.table.entries.Perm b.entries :=
  (List.perm_ext_iff_of_nodup h.canonical_table.distinct.of_map h.nodup_keys.of_map).2 fun _ =>
    h.mem_table

/-- An addition has the result of an insertion into the table that would be built. -/
theorem WellFormed.insert_table (h : b.WellFormed) (d : Descriptor) :
    ∃ result after, b.insert d = some (result, after) ∧ after.WellFormed ∧
      b.build.table.insert d = result.map fun () => after.build.table := by
  rcases h.insert_cases d with ⟨x, hcompile, hinsert⟩ | ⟨e, old, he, hold, hkey, hinsert⟩ |
    ⟨e, he, hfree, hinsert⟩
  · refine ⟨_, b, hinsert, h, ?_⟩
    rw [OpcodeTable.insert, hcompile]
    rfl
  · refine ⟨_, b, hinsert, h, ?_⟩
    have hfind := h.canonical_table.entryAt?_eq_some (h.mem_table.2 hold)
    rw [show old.encoding.mask = e.encoding.mask from congrArg Prod.fst hkey,
      show old.encoding.fixed = e.encoding.fixed from congrArg Prod.snd hkey] at hfind
    rw [OpcodeTable.insert, (Descriptor.entry?_eq_some.1 he).2]
    dsimp only
    rw [hfind]
    rfl
  · have hadd := h.add hfree
    have hfree' : e.key ∉ b.build.table.entries.map Entry.key := fun hmem =>
      hfree ((h.perm_table.map Entry.key).mem_iff.1 hmem)
    have hperm : (OpcodeTable.entries ⟨insertGrouped e b.build.table.groups⟩).Perm
        (b.add e).build.table.entries := by
      refine (insertGrouped_perm e _).trans (.trans ?_ hadd.perm_table.symm)
      rw [entries_add]
      exact (h.perm_table.cons e).trans (List.perm_append_singleton e _).symm
    refine ⟨_, _, hinsert, hadd, ?_⟩
    rw [(OpcodeTable.insert_eq_ok_iff h.canonical_table.ordered).2 ⟨e, he, hfree', rfl⟩]
    exact congrArg Except.ok
      ((h.canonical_table.insertGrouped hfree').eq_of_perm hadd.canonical_table hperm)

theorem WellFormed.extend_table (h : b.WellFormed) (catalog : List Descriptor) :
    ∃ result after, b.extend catalog = some (result, after) ∧ after.WellFormed ∧
      catalog.foldlM OpcodeTable.insert b.build.table =
        result.map fun () => after.build.table := by
  induction catalog generalizing b with
  | nil => exact ⟨.ok (), b, rfl, h, rfl⟩
  | cons d rest ih =>
    obtain ⟨result, after, hinsert, hafter, htable⟩ := h.insert_table d
    rw [extend, List.foldlM_cons, hinsert, htable]
    cases result with
    | error x => exact ⟨.error x, after, rfl, hafter, rfl⟩
    | ok => exact ih hafter

end TableBuilder

theorem IndexedTable.table_empty : TableBuilder.empty.build.table = OpcodeTable.empty :=
  TableBuilder.wellFormed_empty.canonical_table.eq_of_perm
    ⟨OpcodeTable.ordered_empty, nofun, nofun, .nil⟩ TableBuilder.wellFormed_empty.perm_table

/-- A catalog has the table that is built from it, or the error that building meets. -/
theorem IndexedTable.ofCatalog_table (catalog : List Descriptor) :
    (ofCatalog catalog).map (·.map table) = some (OpcodeTable.ofCatalog catalog) := by
  obtain ⟨result, b, hextend, -, htable⟩ := TableBuilder.wellFormed_empty.extend_table catalog
  rw [table_empty] at htable
  rw [ofCatalog, hextend, OpcodeTable.ofCatalog, htable]
  cases result <;> rfl

/-! ## Sequences of additions -/

/-- The descriptors whose additions succeeded. -/
def succeeded : List Descriptor → List (Except CatalogError Unit) → List Descriptor
  | d :: rest, .ok () :: results => d :: succeeded rest results
  | _ :: rest, .error _ :: results => succeeded rest results
  | _, _ => []

/-- Why a descriptor is not added to those that are held. -/
inductive Refusal (held : List Descriptor) (d : Descriptor) : CatalogError → Prop
  | template {x : CatalogError} (h : d.template.compile = .error x) : Refusal held d x
  /-- One of them has the same mask and fixed bits. -/
  | taken {old : Descriptor} {e e' : Entry} (he : d.entry? = some e) (hmem : old ∈ held)
      (hold : old.entry? = some e') (hkey : e'.key = e.key) :
      Refusal held d (.collision old.sample d.sample e.encoding.mask e.encoding.fixed)

/-- The entries of a table are those of the descriptors that are held, each one found through one
place of one index. -/
structure IndexedTable.Indexes (t : IndexedTable) (held : List Descriptor) : Prop where
  entries : t.entries.map some = held.map Descriptor.entry?
  nonempty : ∀ g ∈ t.indices, g.size ≠ 0
  distinct : (t.indices.map (·.mask)).Nodup
  places : ∀ g ∈ t.indices, ∀ fixed place, g.places.lookup fixed = some place →
    ∃ e, t.entries[place]? = some e ∧ e.key = (g.mask, fixed)
  sizes : (t.indices.map (·.size)).sum = held.length

namespace TableBuilder

/-- The entries of a well-formed builder are those of the descriptors that it holds. -/
structure Holds (b : TableBuilder) (held : List Descriptor) : Prop where
  wellFormed : b.WellFormed
  entries : b.entries.map some = held.map Descriptor.entry?

variable {b : TableBuilder} {held : List Descriptor}

theorem holds_empty : empty.Holds [] :=
  ⟨wellFormed_empty, rfl⟩

theorem Holds.add (h : b.Holds held) {d : Descriptor} {e : Entry} (he : d.entry? = some e)
    (hfree : e.key ∉ b.entries.map Entry.key) : (b.add e).Holds (held ++ [d]) where
  wellFormed := h.wellFormed.add hfree
  entries := by
    rw [entries_add, List.map_append, List.map_append, h.entries, List.map_singleton,
      List.map_singleton, he]

theorem Holds.mem_iff (h : b.Holds held) {e : Entry} :
    e ∈ b.entries ↔ ∃ d ∈ held, d.entry? = some e := by
  rw [← List.mem_map, ← h.entries]
  simp

theorem Holds.indexes (h : b.Holds held) : b.build.Indexes held where
  entries := h.entries
  nonempty g hg := h.wellFormed.nonempty (h.wellFormed.mem_indices_build.1 hg)
  distinct := h.wellFormed.nodup_masks
  places g hg fixed place := h.wellFormed.entry_of_lookup hg
  sizes := by
    have hlength := congrArg List.length h.entries
    rw [List.length_map, List.length_map] at hlength
    rw [← hlength, ← h.wellFormed.perm_table.length_eq, IndexedTable.entries_table,
      List.length_flatMap]
    exact congrArg List.sum
      (List.map_congr_left fun g hg => (h.wellFormed.length_entriesOf hg).symm)

theorem Holds.insert_of_refusal (h : b.Holds held) {d : Descriptor} {x : CatalogError}
    (hrefusal : Refusal held d x) : b.insert d = some (.error x, b) := by
  cases hrefusal with
  | template hcompile =>
    unfold TableBuilder.insert
    rw [hcompile]
  | @taken old e e' he hmem hold hkey =>
    obtain ⟨place, hplace⟩ := List.mem_iff_getElem?.1 (h.mem_iff.2 ⟨old, hmem, hold⟩)
    rw [insert_eq he, h.wellFormed.place_iff.2 ⟨e', hplace, hkey⟩]
    dsimp only
    rw [hplace, ← (Descriptor.entry?_eq_some.1 hold).1]
    rfl

/-- An addition fails with a reason, or adds an entry under a key of its own. -/
theorem Holds.refusal_or_add (h : b.Holds held) (d : Descriptor) :
    (∃ x, Refusal held d x) ∨ ∃ e, d.entry? = some e ∧ e.key ∉ b.entries.map Entry.key ∧
      b.insert d = some (.ok (), b.add e) := by
  rcases h.wellFormed.insert_cases d with ⟨x, hcompile, -⟩ | ⟨e, old, he, hold, hkey, -⟩ | hadd
  · exact .inl ⟨x, .template hcompile⟩
  · obtain ⟨d', hmem, hentry⟩ := h.mem_iff.1 hold
    exact .inl ⟨_, .taken he hmem hentry hkey⟩
  · exact .inr hadd

/-- An addition fails exactly if there is a reason to, and then nothing has changed. -/
theorem Holds.insert (h : b.Holds held) (d : Descriptor) :
    ∃ result after, b.insert d = some (result, after) ∧
      (∀ x, result = .error x ↔ Refusal held d x) ∧ ∀ x, result = .error x → after = b := by
  rcases h.refusal_or_add d with ⟨x, hrefusal⟩ | ⟨e, -, -, hinsert⟩
  · have hinsert := h.insert_of_refusal hrefusal
    refine ⟨_, b, hinsert, fun y => ⟨?_, fun hy => ?_⟩, fun _ _ => rfl⟩
    · rintro ⟨⟩
      exact hrefusal
    · exact congrArg Prod.fst (Option.some.inj (hinsert.symm.trans (h.insert_of_refusal hy)))
  · refine ⟨_, _, hinsert, fun x => ⟨nofun, fun hx => ?_⟩, nofun⟩
    exact congrArg Prod.fst (Option.some.inj (hinsert.symm.trans (h.insert_of_refusal hx)))

theorem Holds.insertAll (h : b.Holds held) (calls : List Descriptor) :
    ∃ results after, b.insertAll calls = some (results, after) ∧
      results.length = calls.length ∧ after.Holds (held ++ succeeded calls results) ∧
      b.extend (succeeded calls results) = some (.ok (), after) := by
  induction calls generalizing b held with
  | nil => exact ⟨[], b, rfl, rfl, (List.append_nil held).symm ▸ h, rfl⟩
  | cons d rest ih =>
    rcases h.refusal_or_add d with ⟨x, hrefusal⟩ | ⟨e, he, hfree, hinsert⟩
    · obtain ⟨results, after, hall, hlength, hafter⟩ := ih h
      refine ⟨.error x :: results, after, ?_, congrArg (· + 1) hlength, hafter⟩
      rw [TableBuilder.insertAll, h.insert_of_refusal hrefusal]
      simp [hall]
    · obtain ⟨results, after, hall, hlength, hafter, hextend⟩ := ih (h.add he hfree)
      refine ⟨.ok () :: results, after, ?_, congrArg (· + 1) hlength, ?_, ?_⟩
      · rw [TableBuilder.insertAll, hinsert]
        simp [hall]
      · rwa [succeeded, List.append_cons]
      · rw [succeeded, extend, hinsert]
        exact hextend

/-- Whatever is added in sequence, an addition behind it fails exactly if there is a reason to, and
then changes nothing. The additions that succeeded lead to the same builder alone, and what is built
from it indexes their descriptors and is their table. -/
theorem insertAll_outcome (calls : List Descriptor) :
    ∃ results b, empty.insertAll calls = some (results, b) ∧ results.length = calls.length ∧
      (∀ d, ∃ result after, b.insert d = some (result, after) ∧
        (∀ x, result = .error x ↔ Refusal (succeeded calls results) d x) ∧
        ∀ x, result = .error x → after = b) ∧
      empty.extend (succeeded calls results) = some (.ok (), b) ∧
      b.build.Indexes (succeeded calls results) ∧
      OpcodeTable.ofCatalog (succeeded calls results) = .ok b.build.table := by
  obtain ⟨results, b, hall, hlength, hholds, hextend⟩ := holds_empty.insertAll calls
  refine ⟨results, b, hall, hlength, hholds.insert, hextend, hholds.indexes, ?_⟩
  have htable := IndexedTable.ofCatalog_table (succeeded calls results)
  rw [IndexedTable.ofCatalog, hextend] at htable
  exact (Option.some.inj htable).symm

/-- A template that is too short and one that is taken make no difference to what follows. -/
theorem insertAll_outcome_clash :
    let one : Descriptor := ⟨"ONE X1", "", .r, "000000ddddd000000000000000000001".toList, .nop⟩
    let short : Descriptor := ⟨"SHORT X1", "", .r, "11ddddd".toList, .nop⟩
    let two : Descriptor := ⟨"TWO X1", "", .r, "000000nnnnn000000000000000000001".toList, .nop⟩
    let three : Descriptor := ⟨"THREE X1", "", .r, "000000nnnnn000000000000000000010".toList, .nop⟩
    ∃ b, empty.insertAll [one, short, two, three] = some ([.ok (),
        .error (.templateLength short.template),
        .error (.collision "ONE X1" "TWO X1" 0xFC1FFFFF 1), .ok ()], b) ∧
      empty.extend [one, three] = some (.ok (), b) ∧
      b.insert two = some (.error (.collision "ONE X1" "TWO X1" 0xFC1FFFFF 1), b) ∧
      b.build.Indexes [one, three] ∧ OpcodeTable.ofCatalog [one, three] = .ok b.build.table := by
  intro one short two three
  obtain ⟨results, b, hall, -, hinsert, hextend, hindexes, htable⟩ :=
    insertAll_outcome [one, short, two, three]
  have hresults : (empty.insertAll [one, short, two, three]).map (·.1) = some [.ok (),
      .error (.templateLength short.template),
      .error (.collision "ONE X1" "TWO X1" 0xFC1FFFFF 1), .ok ()] := by
    decide +kernel
  rw [hall, Option.map_some, Option.some.injEq] at hresults
  dsimp only at hresults
  subst hresults
  have hone : one.entry? =
      some ⟨one, ⟨0xFC1FFFFF, 1, [⟨'d', [25, 24, 23, 22, 21]⟩]⟩⟩ := by decide +kernel
  have htwo : two.entry? =
      some ⟨two, ⟨0xFC1FFFFF, 1, [⟨'n', [25, 24, 23, 22, 21]⟩]⟩⟩ := by decide +kernel
  obtain ⟨result, after, htwice, hrefusal, hsame⟩ := hinsert two
  have hresult : result = .error (.collision "ONE X1" "TWO X1" 0xFC1FFFFF 1) :=
    (hrefusal _).2 (.taken htwo List.mem_cons_self hone rfl)
  rw [hsame _ hresult, hresult] at htwice
  exact ⟨b, hall, hextend, htwice, hindexes, htable⟩

end TableBuilder

end LegMachine
