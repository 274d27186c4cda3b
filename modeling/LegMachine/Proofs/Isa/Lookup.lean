import LegMachine.Isa.Table
import Mathlib.Data.List.Basic
import Mathlib.Data.List.Find
import Mathlib.Data.List.Perm.Basic

/-!
# Lookup in an opcode table

`OpcodeTable.entries` is a table as one list, in the order in which words are compared. A table
that was built by insertions is `Ordered`: the entries of a group have its mask, and the groups
lie in probing order. Lookup then is a search for the first entry that accepts the word
(`find?_eq`), which is one with a most specific mask (`find?_eq_some`). The table of a catalog holds
the catalog's compiled descriptors and nothing else (`perm_of_ofCatalog`).
-/

namespace LegMachine

theorem probedBefore_trans {a b c : Word} (hab : probedBefore a b = true)
    (hbc : probedBefore b c = true) : probedBefore a c = true := by
  simp only [probedBefore, Bool.or_eq_true, Bool.and_eq_true, decide_eq_true_eq,
    beq_iff_eq] at hab hbc ⊢
  bv_omega

theorem probedBefore_asymm {a b : Word} (hab : probedBefore a b = true) :
    probedBefore b a = false := by
  simp only [probedBefore, Bool.or_eq_true, Bool.and_eq_true, decide_eq_true_eq, beq_iff_eq,
    Bool.or_eq_false_iff, Bool.and_eq_false_iff, decide_eq_false_iff_not, beq_eq_false_iff_ne]
    at hab ⊢
  bv_omega

theorem probedBefore_total {a b : Word} (hne : a ≠ b) (hba : probedBefore b a = false) :
    probedBefore a b = true := by
  simp only [probedBefore, Bool.or_eq_true, Bool.and_eq_true, decide_eq_true_eq, beq_iff_eq,
    Bool.or_eq_false_iff, Bool.and_eq_false_iff, decide_eq_false_iff_not, beq_eq_false_iff_ne]
    at hba ⊢
  bv_omega

theorem probedBefore_irrefl (a : Word) : probedBefore a a = false := by
  simp [probedBefore]

/-- The entry of a descriptor, if its template compiles. -/
def Descriptor.entry? (d : Descriptor) : Option Entry :=
  d.template.compile.toOption.map (⟨d, ·⟩)

theorem Descriptor.entry?_eq_some {d : Descriptor} {e : Entry} :
    d.entry? = some e ↔ e.descriptor = d ∧ d.template.compile = .ok e.encoding := by
  obtain ⟨d', encoding⟩ := e
  unfold entry?
  cases d.template.compile with
  | error x => simp [Except.toOption]
  | ok x =>
    simp only [Except.toOption, Option.map_some, Option.some.injEq, Entry.mk.injEq, Except.ok.injEq]
    exact and_congr_left' eq_comm

/-! ## Insertions -/

theorem insertEntry_perm (e : Entry) (l : List Entry) : (insertEntry e l).Perm (e :: l) := by
  induction l with
  | nil => exact .refl _
  | cons x rest ih =>
    unfold insertEntry
    split
    · exact .refl _
    · exact (ih.cons x).trans (.swap e x rest)

theorem insertGrouped_perm (e : Entry) (gs : List MaskGroup) :
    ((insertGrouped e gs).flatMap (·.entries)).Perm (e :: gs.flatMap (·.entries)) := by
  induction gs with
  | nil => exact .refl _
  | cons g rest ih =>
    unfold insertGrouped
    split
    · exact (insertEntry_perm e g.entries).append_right _
    · split
      · exact .refl _
      · exact (ih.append_left g.entries).trans List.perm_middle

theorem mem_masks_insertGrouped {e : Entry} {gs : List MaskGroup} {m : Word}
    (h : m ∈ (insertGrouped e gs).map (·.mask)) :
    m = e.encoding.mask ∨ m ∈ gs.map (·.mask) := by
  induction gs with
  | nil => simpa [insertGrouped] using h
  | cons g rest ih =>
    unfold insertGrouped at h
    split at h
    · exact .inr h
    · split at h
      · simpa using h
      · rw [List.map_cons, List.mem_cons] at h ⊢
        rcases h with rfl | h
        · exact .inr (.inl rfl)
        · exact (ih h).imp_right .inr

namespace OpcodeTable

/-- The entries in the order in which words are compared with them. -/
def entries (t : OpcodeTable) : List Entry :=
  t.groups.flatMap (·.entries)

/-- Entries lie in the group of their mask, and groups in the order of probing. -/
structure Ordered (t : OpcodeTable) : Prop where
  mask_eq : ∀ g ∈ t.groups, ∀ e ∈ g.entries, e.encoding.mask = g.mask
  sorted : (t.groups.map (·.mask)).Pairwise fun a b => probedBefore a b = true

theorem ordered_empty : empty.Ordered :=
  ⟨by simp [empty], .nil⟩

theorem Ordered.insertGrouped {gs : List MaskGroup} (h : Ordered ⟨gs⟩) (e : Entry) :
    Ordered ⟨LegMachine.insertGrouped e gs⟩ := by
  induction gs with
  | nil => exact ⟨by simp [LegMachine.insertGrouped], List.pairwise_singleton _ _⟩
  | cons g rest ih =>
    have hg := h.mask_eq g List.mem_cons_self
    have hrest : ∀ g' ∈ rest, ∀ e ∈ g'.entries, e.encoding.mask = g'.mask :=
      fun g' hg' => h.mask_eq g' (List.mem_cons_of_mem _ hg')
    obtain ⟨hfirst, hsorted⟩ := List.pairwise_cons.1 h.sorted
    unfold LegMachine.insertGrouped
    split
    · next hm =>
      refine ⟨fun g' hg' x hx => ?_, h.sorted⟩
      rcases List.mem_cons.1 hg' with rfl | hg'
      · rcases List.mem_cons.1 ((insertEntry_perm e g.entries).mem_iff.1 hx) with rfl | hx
        · exact hm.symm
        · exact hg x hx
      · exact hrest g' hg' x hx
    · next hm =>
      split
      · next hbefore =>
        refine ⟨fun g' hg' x hx => ?_, List.pairwise_cons.2 ⟨fun m hmem => ?_, h.sorted⟩⟩
        · rcases List.mem_cons.1 hg' with rfl | hg'
          · rw [List.mem_singleton.1 hx]
          · exact h.mask_eq g' hg' x hx
        · rcases List.mem_cons.1 hmem with rfl | hmem
          · exact hbefore
          · exact probedBefore_trans hbefore (hfirst m hmem)
      · next hbefore =>
        have hi := ih ⟨hrest, hsorted⟩
        refine ⟨fun g' hg' x hx => ?_, List.pairwise_cons.2 ⟨fun m hmem => ?_, hi.sorted⟩⟩
        · rcases List.mem_cons.1 hg' with rfl | hg'
          · exact hg x hx
          · exact hi.mask_eq g' hg' x hx
        · rcases mem_masks_insertGrouped hmem with rfl | hmem
          · exact probedBefore_total hm (by simpa using hbefore)
          · exact hfirst m hmem

/-- A descriptor that is added brings its entry, and the table stays in order. -/
theorem insert_eq_ok {t t' : OpcodeTable} {d : Descriptor} (h : t.insert d = .ok t') :
    ∃ e, d.entry? = some e ∧ t' = ⟨LegMachine.insertGrouped e t.groups⟩ := by
  unfold insert at h
  split at h
  · cases h
  · next encoding hcompile =>
    split at h
    · cases h
    · cases h
      exact ⟨⟨d, encoding⟩, Descriptor.entry?_eq_some.2 ⟨rfl, hcompile⟩, rfl⟩

theorem foldlM_insert_eq_ok {catalog : List Descriptor} {t t' : OpcodeTable}
    (h : catalog.foldlM insert t = .ok t') (ht : t.Ordered) :
    t'.Ordered ∧ (∀ d ∈ catalog, d.entry?.isSome) ∧
      t'.entries.Perm (catalog.filterMap Descriptor.entry? ++ t.entries) := by
  induction catalog generalizing t with
  | nil =>
    cases h
    exact ⟨ht, by simp, .refl _⟩
  | cons d rest ih =>
    rw [List.foldlM_cons] at h
    cases hd : t.insert d with
    | error x => simp [hd, bind, Except.bind] at h
    | ok t₁ =>
      obtain ⟨e, he, rfl⟩ := insert_eq_ok hd
      rw [hd] at h
      obtain ⟨hordered, hsome, hperm⟩ := ih h (ht.insertGrouped e)
      refine ⟨hordered, ?_, ?_⟩
      · intro d' hd'
        rcases List.mem_cons.1 hd' with rfl | hd'
        · simp [he]
        · exact hsome d' hd'
      · rw [List.filterMap_cons, he]
        refine hperm.trans (((insertGrouped_perm e t.groups).append_left _).trans ?_)
        exact List.perm_middle

theorem perm_of_ofCatalog {catalog : List Descriptor} {t : OpcodeTable}
    (h : ofCatalog catalog = .ok t) :
    t.Ordered ∧ (∀ d ∈ catalog, d.entry?.isSome) ∧
      t.entries.Perm (catalog.filterMap Descriptor.entry?) := by
  simpa [entries, empty] using foldlM_insert_eq_ok h ordered_empty

/-! ## Lookup -/

theorem entryAt?_eq {g : MaskGroup} (h : ∀ e ∈ g.entries, e.encoding.mask = g.mask) (w : Word) :
    g.entryAt? (w &&& g.mask) = g.entries.find? (·.encoding.accepts w) := by
  refine List.find?_congr fun e he => ?_
  rw [Encoding.accepts, h e he]
  exact Bool.beq_comm

theorem find?_eq {t : OpcodeTable} (h : t.Ordered) (w : Word) :
    t.find? w = (t.entries.find? (·.encoding.accepts w)).map (·.decode w) := by
  have hmask := h.mask_eq
  rw [find?, entries]
  generalize t.groups = gs at hmask
  induction gs with
  | nil => rfl
  | cons g rest ih =>
    obtain ⟨hg, hrest⟩ := List.forall_mem_cons.1 hmask
    rw [List.findSome?_cons, List.flatMap_cons, List.find?_append, entryAt?_eq hg, ih hrest]
    cases g.entries.find? (·.encoding.accepts w) <;> rfl

theorem Ordered.pairwise_entries {t : OpcodeTable} (h : t.Ordered) :
    t.entries.Pairwise fun a b => probedBefore b.encoding.mask a.encoding.mask = false := by
  rw [entries, List.pairwise_flatMap]
  constructor
  · intro g hg
    refine List.pairwise_of_forall_mem_list fun a ha b hb => ?_
    rw [h.mask_eq g hg a ha, h.mask_eq g hg b hb]
    exact probedBefore_irrefl _
  · refine (List.pairwise_map.1 h.sorted).imp_of_mem fun hg hg' hbefore a ha b hb => ?_
    rw [h.mask_eq _ hg a ha, h.mask_eq _ hg' b hb]
    exact probedBefore_asymm hbefore

/-- A word is read by an entry that accepts it and whose mask no better entry's mask precedes. -/
theorem find?_eq_some {t : OpcodeTable} (h : t.Ordered) {w : Word} {d : Decoded}
    (hd : t.find? w = some d) :
    ∃ e ∈ t.entries, e.encoding.accepts w = true ∧ d = e.decode w ∧
      ∀ x ∈ t.entries, x.encoding.accepts w = true →
        probedBefore x.encoding.mask e.encoding.mask = false := by
  rw [find?_eq h, Option.map_eq_some_iff] at hd
  obtain ⟨e, he, rfl⟩ := hd
  obtain ⟨haccepts, before, after, hsplit, hbefore⟩ := List.find?_eq_some_iff_append.1 he
  refine ⟨e, List.mem_of_find?_eq_some he, haccepts, rfl, fun x hx hxw => ?_⟩
  have hp := h.pairwise_entries
  rw [hsplit] at hx hp
  rcases List.mem_append.1 hx with hx | hx
  · exact absurd hxw (by simpa using hbefore x hx)
  · rcases List.mem_cons.1 hx with rfl | hx
    · exact probedBefore_irrefl _
    · exact (List.pairwise_cons.1 (List.pairwise_append.1 hp).2.1).1 x hx

theorem find?_isSome {t : OpcodeTable} (h : t.Ordered) {w : Word} {e : Entry}
    (he : e ∈ t.entries) (hw : e.encoding.accepts w = true) : (t.find? w).isSome := by
  rw [find?_eq h, Option.isSome_map, List.find?_isSome]
  exact ⟨e, he, hw⟩

end OpcodeTable

end LegMachine
