import LegMachine.Proofs.Isa.Lookup
import Mathlib.Data.List.Nodup
import Mathlib.Data.List.Pairwise

/-!
# A table as a search for the most specific match

`Entry.key` is what a table knows an entry by, its mask and its fixed bits. A catalog has a table
exactly if its templates compile and no two of its entries have one key (`exists_ofCatalog_iff`).
The table holds the entries of the catalog in strict order (`pairwise_before`), whatever their order
in the catalog was (`entries_eq_of_perm`). So the first entry that accepts a word is the best match
among them (`find?_entries_eq_some`), and a table is a search for that (`ofCatalog_search`).
-/

namespace LegMachine

def Entry.key (e : Entry) : Word × Word :=
  (e.encoding.mask, e.encoding.fixed)

def Entry.row (e : Entry) : OpcodeRow :=
  ⟨e.encoding.mask, bitCount e.encoding.mask, e.encoding.fixed, e.descriptor.sample⟩

def OpcodeRow.accepts (w : Word) (r : OpcodeRow) : Bool :=
  w &&& r.mask == r.fixed

/-- More bits are fixed, or the mask is smaller, or of one mask the fixed bits are. -/
def OpcodeRow.Before (a b : OpcodeRow) : Prop :=
  b.specificity < a.specificity ∨ a.specificity = b.specificity ∧
    (a.mask < b.mask ∨ a.mask = b.mask ∧ a.fixed < b.fixed)

/-- The descriptors of a catalog whose templates compile, with their encodings. -/
def compiled (catalog : List Descriptor) : List Entry :=
  catalog.filterMap Descriptor.entry?

/-- Every template compiles, and no two entries have the same mask and fixed bits. -/
structure Unambiguous (catalog : List Descriptor) : Prop where
  compiles : ∀ d ∈ catalog, ∃ e, d.template.compile = .ok e
  distinct : ((compiled catalog).map Entry.key).Nodup

/-- The entry accepts the word, and every other one that does fixes fewer bits, or as many under a
greater mask. -/
structure BestMatch (entries : List Entry) (w : Word) (e : Entry) : Prop where
  mem : e ∈ entries
  accepts : e.encoding.accepts w = true
  best : ∀ x ∈ entries, x.encoding.accepts w = true → x ≠ e →
    bitCount x.encoding.mask < bitCount e.encoding.mask ∨
      bitCount x.encoding.mask = bitCount e.encoding.mask ∧ e.encoding.mask < x.encoding.mask

/-- A table reads a word by the best match among the entries, which is also shown by the first of
its rows that accepts the word; the rows are those of the entries in strict order. -/
structure OpcodeTable.Searches (t : OpcodeTable) (entries : List Entry) : Prop where
  miss : ∀ w, t.find? w = none ↔ ∀ e ∈ entries, e.encoding.accepts w = false
  hit : ∀ w d, t.find? w = some d ↔ ∃ e, BestMatch entries w e ∧ e.decode w = d
  first_row : ∀ w r, t.rows.find? (·.accepts w) = some r ↔ ∃ e, BestMatch entries w e ∧ e.row = r
  rows_perm : t.rows.Perm (entries.map Entry.row)
  rows_sorted : t.rows.Pairwise OpcodeRow.Before

theorem exists_compile_iff {d : Descriptor} :
    (∃ e, d.template.compile = .ok e) ↔ ∃ e, d.entry? = some e := by
  constructor
  · rintro ⟨encoding, h⟩
    exact ⟨⟨d, encoding⟩, Descriptor.entry?_eq_some.2 ⟨rfl, h⟩⟩
  · rintro ⟨e, h⟩
    exact ⟨e.encoding, (Descriptor.entry?_eq_some.1 h).2⟩

theorem compiled_cons {d : Descriptor} {rest : List Descriptor} {e : Entry}
    (he : d.entry? = some e) : compiled (d :: rest) = e :: compiled rest := by
  rw [compiled, List.filterMap_cons, he, compiled]

theorem map_descriptor_compiled {catalog : List Descriptor}
    (h : ∀ d ∈ catalog, ∃ e, d.entry? = some e) :
    (compiled catalog).map (·.descriptor) = catalog := by
  induction catalog with
  | nil => rfl
  | cons d rest ih =>
    obtain ⟨⟨e, he⟩, hrest⟩ := List.forall_mem_cons.1 h
    rw [compiled_cons he, List.map_cons, ih hrest, (Descriptor.entry?_eq_some.1 he).1]

theorem Unambiguous.perm {catalog catalog' : List Descriptor} (hp : catalog.Perm catalog')
    (h : Unambiguous catalog) : Unambiguous catalog' where
  compiles := fun d hd => h.compiles d (hp.mem_iff.2 hd)
  distinct := ((hp.filterMap _).map _).nodup_iff.1 h.distinct

theorem OpcodeRow.Before.asymm {a b : OpcodeRow} (hab : a.Before b) (hba : b.Before a) : False := by
  unfold OpcodeRow.Before at hab hba
  bv_omega

/-- Of two entries with one mask, a word is accepted by at most one with given fixed bits. -/
theorem key_eq_of_accepts {a b : Entry} {w : Word} (hmask : a.encoding.mask = b.encoding.mask)
    (ha : a.encoding.accepts w = true) (hb : b.encoding.accepts w = true) : a.key = b.key := by
  have hfixed : a.encoding.fixed = b.encoding.fixed := by
    rw [Encoding.accepts, beq_iff_eq] at ha hb
    rw [← ha, ← hb, hmask]
  rw [Entry.key, Entry.key, hmask, hfixed]

theorem BestMatch.unique {entries : List Entry} {w : Word} {a b : Entry}
    (ha : BestMatch entries w a) (hb : BestMatch entries w b) : a = b := by
  by_contra hne
  have hab := hb.best a ha.mem ha.accepts hne
  have hba := ha.best b hb.mem hb.accepts fun e => hne e.symm
  bv_omega

theorem BestMatch.perm {entries entries' : List Entry} (hp : entries.Perm entries') {w : Word}
    {e : Entry} (h : BestMatch entries w e) : BestMatch entries' w e where
  mem := hp.mem_iff.1 h.mem
  accepts := h.accepts
  best := fun x hx => h.best x (hp.mem_iff.2 hx)

/-! ## When an insertion succeeds -/

namespace OpcodeTable

variable {t t' : OpcodeTable}

theorem Ordered.group_eq (h : t.Ordered) {g g' : MaskGroup} (hg : g ∈ t.groups)
    (hg' : g' ∈ t.groups) (hmask : g.mask = g'.mask) : g = g' := by
  have hnodup : (t.groups.map (·.mask)).Nodup := h.sorted.imp fun hab => by
    rintro rfl
    rw [probedBefore_irrefl] at hab
    cases hab
  exact List.inj_on_of_nodup_map hnodup hg hg' hmask

theorem entryAt?_eq_none (h : t.Ordered) {mask fixed : Word} :
    t.entryAt? mask fixed = none ↔ (mask, fixed) ∉ t.entries.map Entry.key := by
  have hmem : (mask, fixed) ∈ t.entries.map Entry.key ↔
      ∃ g ∈ t.groups, g.mask = mask ∧ ∃ e ∈ g.entries, e.encoding.fixed = fixed := by
    simp only [entries, List.mem_map, List.mem_flatMap, Entry.key, Prod.mk.injEq]
    constructor
    · rintro ⟨e, ⟨g, hg, he⟩, rfl, rfl⟩
      exact ⟨g, hg, (h.mask_eq g hg e he).symm, e, he, rfl⟩
    · rintro ⟨g, hg, rfl, e, he, rfl⟩
      exact ⟨e, ⟨g, hg, he⟩, h.mask_eq g hg e he, rfl⟩
  rw [hmem, entryAt?]
  cases hfind : t.groups.find? (·.mask == mask) with
  | none =>
    have hno : ∀ g ∈ t.groups, g.mask ≠ mask := by simpa using hfind
    simp only [Option.bind_none, true_iff]
    rintro ⟨g, hg, hmask, -⟩
    exact hno g hg hmask
  | some g =>
    have hg := List.mem_of_find?_eq_some hfind
    have hmask : g.mask = mask := by simpa using List.find?_some hfind
    rw [Option.bind_some, MaskGroup.entryAt?, List.find?_eq_none]
    constructor
    · rintro hno ⟨g', hg', hmask', e, he, rfl⟩
      obtain rfl := h.group_eq hg hg' (hmask.trans hmask'.symm)
      exact hno e he (by simp)
    · intro hno e he hfixed
      exact hno ⟨g, hg, hmask, e, he, by simpa using hfixed⟩

/-- A descriptor is added if its template compiles and the key of its entry is free. -/
theorem insert_eq_ok_iff (h : t.Ordered) {d : Descriptor} :
    t.insert d = .ok t' ↔ ∃ e, d.entry? = some e ∧ e.key ∉ t.entries.map Entry.key ∧
      t' = ⟨LegMachine.insertGrouped e t.groups⟩ := by
  constructor
  · intro hinsert
    obtain ⟨e, he, ht'⟩ := insert_eq_ok hinsert
    refine ⟨e, he, (entryAt?_eq_none h).1 ?_, ht'⟩
    unfold insert at hinsert
    rw [(Descriptor.entry?_eq_some.1 he).2] at hinsert
    split at hinsert
    · cases hinsert
    · next hcompile =>
      cases hcompile
      split at hinsert
      · cases hinsert
      · assumption
  · rintro ⟨⟨d', encoding⟩, he, hfree, rfl⟩
    obtain ⟨rfl, hcompile⟩ := Descriptor.entry?_eq_some.1 he
    unfold insert
    simp only [hcompile, (entryAt?_eq_none h).2 hfree]

theorem nodup_keys_insertGrouped {e : Entry} {l : List Entry} :
    ((l ++ entries ⟨LegMachine.insertGrouped e t.groups⟩).map Entry.key).Nodup ↔
      e.key ∉ (l ++ t.entries).map Entry.key ∧ ((l ++ t.entries).map Entry.key).Nodup := by
  have hperm : (l ++ entries ⟨LegMachine.insertGrouped e t.groups⟩).Perm (e :: (l ++ t.entries)) :=
    ((insertGrouped_perm e t.groups).append_left l).trans List.perm_middle
  rw [(hperm.map Entry.key).nodup_iff, List.map_cons, List.nodup_cons]

/-- Insertions succeed if the templates compile and all keys, old and new, are different. -/
theorem exists_foldlM_insert_iff {catalog : List Descriptor} (h : t.Ordered)
    (hdistinct : (t.entries.map Entry.key).Nodup) :
    (∃ t', catalog.foldlM insert t = .ok t') ↔
      (∀ d ∈ catalog, ∃ e, d.entry? = some e) ∧
        ((compiled catalog ++ t.entries).map Entry.key).Nodup := by
  induction catalog generalizing t with
  | nil => exact iff_of_true ⟨t, rfl⟩ ⟨by simp, hdistinct⟩
  | cons d rest ih =>
    have hih (e : Entry) (hfree : e.key ∉ t.entries.map Entry.key) :=
      ih (h.insertGrouped e) ((nodup_keys_insertGrouped (l := [])).2 ⟨hfree, hdistinct⟩)
    rw [List.foldlM_cons, List.forall_mem_cons]
    constructor
    · rintro ⟨t', hfold⟩
      cases hinsert : t.insert d with
      | error x => simp [hinsert, bind, Except.bind] at hfold
      | ok t₁ =>
        obtain ⟨e, he, hfree, rfl⟩ := (insert_eq_ok_iff h).1 hinsert
        rw [hinsert] at hfold
        obtain ⟨hsome, hnodup⟩ := (hih e hfree).1 ⟨t', hfold⟩
        rw [compiled_cons he, List.cons_append, List.map_cons, List.nodup_cons]
        exact ⟨⟨⟨e, he⟩, hsome⟩, nodup_keys_insertGrouped.1 hnodup⟩
    · rintro ⟨⟨⟨e, he⟩, hsome⟩, hnodup⟩
      rw [compiled_cons he, List.cons_append, List.map_cons, List.nodup_cons] at hnodup
      have hfree : e.key ∉ t.entries.map Entry.key := fun hmem =>
        hnodup.1 (by rw [List.map_append]; exact List.mem_append_right _ hmem)
      rw [(insert_eq_ok_iff h).2 ⟨e, he, hfree, rfl⟩]
      exact (hih e hfree).2 ⟨hsome, nodup_keys_insertGrouped.2 hnodup⟩

theorem exists_ofCatalog_iff {catalog : List Descriptor} :
    (∃ t, ofCatalog catalog = .ok t) ↔ Unambiguous catalog := by
  refine (exists_foldlM_insert_iff ordered_empty List.nodup_nil).trans ?_
  rw [show empty.entries = [] from rfl, List.append_nil]
  constructor
  · rintro ⟨hsome, hnodup⟩
    exact ⟨fun d hd => exists_compile_iff.2 (hsome d hd), hnodup⟩
  · rintro ⟨hcompiles, hnodup⟩
    exact ⟨fun d hd => exists_compile_iff.1 (hcompiles d hd), hnodup⟩

/-! ## The order of the entries -/

theorem insertEntry_sorted (e : Entry) {l : List Entry}
    (h : l.Pairwise fun a b => a.encoding.fixed ≤ b.encoding.fixed) :
    (insertEntry e l).Pairwise fun a b => a.encoding.fixed ≤ b.encoding.fixed := by
  induction l with
  | nil => exact List.pairwise_singleton _ _
  | cons x rest ih =>
    obtain ⟨hx, hrest⟩ := List.pairwise_cons.1 h
    unfold insertEntry
    split
    · next hlt =>
      refine List.pairwise_cons.2 ⟨fun y hy => ?_, h⟩
      rcases List.mem_cons.1 hy with rfl | hy
      · exact BitVec.le_of_lt hlt
      · exact BitVec.le_trans (BitVec.le_of_lt hlt) (hx y hy)
    · next hle =>
      refine List.pairwise_cons.2 ⟨fun y hy => ?_, ih hrest⟩
      rcases List.mem_cons.1 ((insertEntry_perm e rest).mem_iff.1 hy) with rfl | hy
      · exact BitVec.not_lt.1 hle
      · exact hx y hy

/-- In every group the fixed bits do not descend. -/
def GroupsSorted (gs : List MaskGroup) : Prop :=
  ∀ g ∈ gs, g.entries.Pairwise fun a b => a.encoding.fixed ≤ b.encoding.fixed

theorem GroupsSorted.insertGrouped {gs : List MaskGroup} (h : GroupsSorted gs) (e : Entry) :
    GroupsSorted (LegMachine.insertGrouped e gs) := by
  induction gs with
  | nil =>
    intro g hg
    rw [List.mem_singleton.1 hg]
    exact List.pairwise_singleton _ _
  | cons g rest ih =>
    obtain ⟨hg, hrest⟩ := List.forall_mem_cons.1 h
    unfold LegMachine.insertGrouped
    split
    · exact List.forall_mem_cons.2 ⟨insertEntry_sorted e hg, hrest⟩
    · split
      · exact List.forall_mem_cons.2 ⟨List.pairwise_singleton _ _, h⟩
      · exact List.forall_mem_cons.2 ⟨hg, ih hrest⟩

theorem groupsSorted_of_foldlM {catalog : List Descriptor} (hsorted : GroupsSorted t.groups)
    (h : catalog.foldlM insert t = .ok t') : GroupsSorted t'.groups := by
  induction catalog generalizing t with
  | nil =>
    cases h
    exact hsorted
  | cons d rest ih =>
    rw [List.foldlM_cons] at h
    cases hd : t.insert d with
    | error x => simp [hd, bind, Except.bind] at h
    | ok t₁ =>
      obtain ⟨e, -, rfl⟩ := insert_eq_ok hd
      rw [hd] at h
      exact ih (hsorted.insertGrouped e) h

/-- Where no key occurs twice, the rows of the entries lie in strict order: by the groups, and in a
group by the fixed bits. -/
theorem Ordered.pairwise_before (h : t.Ordered) (hgroups : GroupsSorted t.groups)
    (hdistinct : (t.entries.map Entry.key).Nodup) :
    t.entries.Pairwise fun a b => a.row.Before b.row := by
  have hle : t.entries.Pairwise fun a b =>
      probedBefore a.encoding.mask b.encoding.mask = true ∨
        a.encoding.mask = b.encoding.mask ∧ a.encoding.fixed ≤ b.encoding.fixed := by
    rw [entries, List.pairwise_flatMap]
    constructor
    · intro g hg
      refine (hgroups g hg).imp_of_mem fun ha hb hab => .inr ⟨?_, hab⟩
      rw [h.mask_eq g hg _ ha, h.mask_eq g hg _ hb]
    · refine (List.pairwise_map.1 h.sorted).imp_of_mem fun hg hg' hbefore a ha b hb => ?_
      rw [h.mask_eq _ hg a ha, h.mask_eq _ hg' b hb]
      exact .inl hbefore
  refine (hle.and (List.pairwise_map.1 hdistinct)).imp ?_
  rintro a b ⟨hbefore | ⟨hmask, hfixed⟩, hkey⟩
  · simp only [probedBefore, Bool.or_eq_true, Bool.and_eq_true, decide_eq_true_eq,
      beq_iff_eq] at hbefore
    rcases hbefore with hlt | ⟨heq, hlt⟩
    · exact .inl hlt
    · exact .inr ⟨heq, .inl hlt⟩
  · have hne : a.encoding.fixed ≠ b.encoding.fixed := fun heq =>
      hkey (Prod.ext hmask heq)
    refine .inr ⟨congrArg bitCount hmask, .inr ⟨hmask, ?_⟩⟩
    show a.encoding.fixed < b.encoding.fixed
    bv_omega

section

variable {catalog catalog' : List Descriptor}

theorem nodup_keys (h : ofCatalog catalog = .ok t) : (t.entries.map Entry.key).Nodup := by
  obtain ⟨-, -, hperm⟩ := perm_of_ofCatalog h
  exact (hperm.map _).nodup_iff.2 (exists_ofCatalog_iff.1 ⟨t, h⟩).distinct

theorem pairwise_before (h : ofCatalog catalog = .ok t) :
    t.entries.Pairwise fun a b => a.row.Before b.row :=
  (perm_of_ofCatalog h).1.pairwise_before
    (groupsSorted_of_foldlM (t := empty) (by simp [GroupsSorted, empty]) h) (nodup_keys h)

theorem entries_eq_of_perm (hp : catalog'.Perm catalog) (h : ofCatalog catalog = .ok t)
    (h' : ofCatalog catalog' = .ok t') : t'.entries = t.entries := by
  obtain ⟨-, -, hperm⟩ := perm_of_ofCatalog h
  obtain ⟨-, -, hperm'⟩ := perm_of_ofCatalog h'
  have hentries : t'.entries.Perm t.entries :=
    hperm'.trans ((hp.filterMap _).trans hperm.symm)
  refine hentries.eq_of_pairwise ?_ (pairwise_before h') (pairwise_before h)
  intro a b _ _ hab hba
  exact (hab.asymm hba).elim

/-! ## Rows and lookups -/

theorem rows_eq (h : t.Ordered) : t.rows = t.entries.map Entry.row := by
  rw [rows, entries, List.map_flatMap]
  refine List.flatMap_congr fun g hg => List.map_congr_left fun e he => ?_
  rw [Entry.row, h.mask_eq g hg e he, MaskGroup.specificity]

theorem find?_rows (h : t.Ordered) (w : Word) :
    t.rows.find? (·.accepts w) = (t.entries.find? (·.encoding.accepts w)).map Entry.row := by
  rw [rows_eq h, List.find?_map]
  rfl

theorem bestMatch_of_find? (h : ofCatalog catalog = .ok t) {w : Word} {e : Entry}
    (he : t.entries.find? (·.encoding.accepts w) = some e) : BestMatch t.entries w e := by
  obtain ⟨haccepts, before, after, hsplit, hbefore⟩ := List.find?_eq_some_iff_append.1 he
  refine ⟨List.mem_of_find?_eq_some he, haccepts, fun x hx hxw hne => ?_⟩
  have hmask : x.encoding.mask ≠ e.encoding.mask := fun hmask => hne <|
    List.inj_on_of_nodup_map (nodup_keys h) hx (List.mem_of_find?_eq_some he)
      (key_eq_of_accepts hmask hxw haccepts)
  -- what stands before the first match does not accept the word, and what stands behind is worse
  have hpairwise := pairwise_before h
  rw [hsplit] at hx hpairwise
  rcases List.mem_append.1 hx with hx | hx
  · exact absurd hxw (by simpa using hbefore x hx)
  · rcases List.mem_cons.1 hx with rfl | hx
    · exact absurd rfl hne
    · have hrow := (List.pairwise_cons.1 (List.pairwise_append.1 hpairwise).2.1).1 x hx
      rcases hrow with hlt | ⟨heq, hlt | ⟨hsame, -⟩⟩
      · exact .inl hlt
      · exact .inr ⟨heq.symm, hlt⟩
      · exact absurd hsame.symm hmask

theorem find?_entries_eq_some (h : ofCatalog catalog = .ok t) {w : Word} {e : Entry} :
    t.entries.find? (·.encoding.accepts w) = some e ↔ BestMatch (compiled catalog) w e := by
  obtain ⟨-, -, hperm⟩ := perm_of_ofCatalog h
  constructor
  · intro he
    exact (bestMatch_of_find? h he).perm hperm
  · intro hbest
    cases hfind : t.entries.find? (·.encoding.accepts w) with
    | none =>
      have hno := List.find?_eq_none.1 hfind e (hperm.mem_iff.2 hbest.mem)
      exact absurd hbest.accepts hno
    | some x => rw [hbest.unique ((bestMatch_of_find? h hfind).perm hperm)]

theorem searches_of_ofCatalog (h : ofCatalog catalog = .ok t) : t.Searches (compiled catalog) := by
  obtain ⟨hordered, -, hperm⟩ := perm_of_ofCatalog h
  constructor
  case miss =>
    intro w
    rw [find?_eq hordered, Option.map_eq_none_iff, List.find?_eq_none]
    simp only [hperm.mem_iff, compiled, Bool.not_eq_true]
  case hit =>
    intro w d
    simp only [find?_eq hordered, Option.map_eq_some_iff, find?_entries_eq_some h]
  case first_row =>
    intro w r
    simp only [find?_rows hordered, Option.map_eq_some_iff, find?_entries_eq_some h]
  case rows_perm =>
    rw [rows_eq hordered]
    exact hperm.map _
  case rows_sorted =>
    rw [rows_eq hordered, List.pairwise_map]
    exact pairwise_before h

/-- A catalog has a table if and only if it is unambiguous, in whatever order. Then every descriptor
has an entry, the table searches the entries for the best match, and another order of the catalog
makes no difference to it. -/
theorem ofCatalog_search (catalog : List Descriptor) :
    ((∃ t, ofCatalog catalog = .ok t) ↔ Unambiguous catalog) ∧
    (∀ t, ofCatalog catalog = .ok t →
      (compiled catalog).map (·.descriptor) = catalog ∧ t.Searches (compiled catalog)) ∧
    ∀ catalog', catalog'.Perm catalog →
      ((∃ t', ofCatalog catalog' = .ok t') ↔ ∃ t, ofCatalog catalog = .ok t) ∧
      ∀ t t', ofCatalog catalog = .ok t → ofCatalog catalog' = .ok t' →
        (∀ w, t'.find? w = t.find? w) ∧ t'.rows = t.rows := by
  refine ⟨exists_ofCatalog_iff, fun t h => ⟨?_, searches_of_ofCatalog h⟩,
    fun catalog' hp => ⟨?_, ?_⟩⟩
  · have hunambiguous := exists_ofCatalog_iff.1 ⟨t, h⟩
    exact map_descriptor_compiled fun d hd => exists_compile_iff.1 (hunambiguous.compiles d hd)
  · rw [exists_ofCatalog_iff, exists_ofCatalog_iff]
    exact ⟨Unambiguous.perm hp, Unambiguous.perm hp.symm⟩
  · intro t t' h h'
    have hordered := (perm_of_ofCatalog h).1
    have hordered' := (perm_of_ofCatalog h').1
    have hentries := entries_eq_of_perm hp h h'
    refine ⟨fun w => ?_, ?_⟩
    · rw [find?_eq hordered, find?_eq hordered', hentries]
    · rw [rows_eq hordered, rows_eq hordered', hentries]

/-- A narrow form is found before a wide one of which it is a case, also where it is added last. -/
theorem ofCatalog_search_overlap :
    let wide : Descriptor :=
      ⟨"WIDE X1,X2,X3", "", .r, "111111dddddnnnnnmmmmmsssssssssss".toList, .add⟩
    let narrow : Descriptor :=
      ⟨"NARROW X1", "", .r, "111111ddddd000000000000000000000".toList, .nop⟩
    ∃ t t', ofCatalog [wide, narrow] = .ok t ∧ ofCatalog [narrow, wide] = .ok t' ∧
      t.Searches (compiled [wide, narrow]) ∧ t'.rows = t.rows ∧
      t'.find? 0xFC200000 = t.find? 0xFC200000 ∧
      (t.find? 0xFC200000).map (·.descriptor) = some narrow ∧
      (t.find? 0xFC200001).map (·.descriptor) = some wide := by
  intro wide narrow
  obtain ⟨t, ht, hnarrow, hwide⟩ : ∃ t, ofCatalog [wide, narrow] = .ok t ∧
      (t.find? 0xFC200000).map (·.descriptor) = some narrow ∧
      (t.find? 0xFC200001).map (·.descriptor) = some wide :=
    ⟨_, rfl, by decide +kernel, by decide +kernel⟩
  obtain ⟨-, hsearch, hperm⟩ := ofCatalog_search [wide, narrow]
  obtain ⟨hexists, hsame⟩ := hperm [narrow, wide] (.swap wide narrow [])
  obtain ⟨t', ht'⟩ := hexists.2 ⟨t, ht⟩
  obtain ⟨hfind, hrows⟩ := hsame t t' ht ht'
  exact ⟨t, t', ht, ht', (hsearch t ht).2, hrows, hfind _, hnarrow, hwide⟩

end

end OpcodeTable

end LegMachine
