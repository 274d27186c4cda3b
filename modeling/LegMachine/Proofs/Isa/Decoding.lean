import LegMachine.Disasm.Text
import LegMachine.Isa.Catalog
import LegMachine.Proofs.Isa.Encoding
import LegMachine.Proofs.Isa.Lookup
import Mathlib.Data.List.Pairwise

/-!
# Decoding with the catalog

Any two instructions of the catalog fix some bit to different values, except for the idle word and
the left shift, which share the word of zeros (`catalogEntries_pairwise`). So the catalog reads a
word as an instruction exactly if that instruction accepts it (`decode?_of_accepts`,
`exists_of_decode?`); the word of zeros is idle (`decode?_zero`).
-/

namespace LegMachine

/-- Some bit is fixed to different values. -/
def Encoding.Conflicts (a b : Encoding) : Prop :=
  a.mask &&& b.mask &&& (a.fixed ^^^ b.fixed) ≠ 0

instance (a b : Encoding) : Decidable (a.Conflicts b) :=
  inferInstanceAs (Decidable (_ ≠ _))

theorem Encoding.Conflicts.symm {a b : Encoding} (h : a.Conflicts b) : b.Conflicts a := by
  unfold Conflicts at h ⊢
  rwa [BitVec.and_comm b.mask, BitVec.xor_comm b.fixed]

theorem Encoding.Conflicts.not_accepts {a b : Encoding} (h : a.Conflicts b) {w : Word}
    (ha : a.accepts w = true) : b.accepts w = false := by
  rw [Bool.eq_false_iff]
  intro hb
  refine h ?_
  rw [← accepts_iff.1 ha, ← accepts_iff.1 hb]
  apply BitVec.eq_of_getLsbD_eq
  intro i _
  simp only [BitVec.getLsbD_and, BitVec.getLsbD_xor]
  cases a.mask.getLsbD i <;> cases b.mask.getLsbD i <;> simp

def catalogEntries : List Entry :=
  catalog.filterMap Descriptor.entry?

theorem catalogEntries_pairwise : catalogEntries.Pairwise fun a b =>
    a.encoding.Conflicts b.encoding ∨ a.descriptor.action = .nop ∧ b.descriptor.action = .lsl := by
  decide +kernel

/-- The idle word fixes all bits to zero, and the left shift fixes fewer. -/
theorem catalogEntries_masks : ∀ e ∈ catalogEntries,
    (e.descriptor.action = .nop → e.encoding.mask = BitVec.allOnes 32 ∧ e.encoding.fixed = 0) ∧
      (e.descriptor.action = .lsl → probedBefore (BitVec.allOnes 32) e.encoding.mask = true) := by
  decide +kernel

theorem mem_catalogEntries {e : Entry} :
    e ∈ catalogEntries ↔
      e.descriptor ∈ catalog ∧ e.descriptor.template.compile = .ok e.encoding := by
  simp only [catalogEntries, List.mem_filterMap, Descriptor.entry?_eq_some]
  constructor
  · rintro ⟨d, hd, rfl, he⟩
    exact ⟨hd, he⟩
  · rintro ⟨hd, he⟩
    exact ⟨_, hd, rfl, he⟩

theorem eq_of_descriptor_eq {a b : Entry} (ha : a ∈ catalogEntries) (hb : b ∈ catalogEntries)
    (h : a.descriptor = b.descriptor) : a = b := by
  obtain ⟨d, e⟩ := a
  obtain ⟨d', e'⟩ := b
  obtain rfl : d = d' := h
  have hsame := (mem_catalogEntries.1 ha).2.symm.trans (mem_catalogEntries.1 hb).2
  obtain rfl : e = e' := Except.ok.inj hsame
  rfl

theorem fieldWidths_eq {e : Entry} (he : e ∈ catalogEntries) :
    e.descriptor.fieldWidths = e.encoding.fields.map Field.width := by
  rw [Descriptor.fieldWidths, (mem_catalogEntries.1 he).2]

theorem ofCatalog_catalog : OpcodeTable.ofCatalog catalog = .ok instructionSet.table := by
  unfold instructionSet
  split
  · next set h =>
    unfold InstructionSet.ofCatalog at h
    cases ht : OpcodeTable.ofCatalog catalog with
    | error x => simp [ht, Except.map] at h
    | ok t =>
      simp only [ht, Except.map, Except.ok.injEq] at h
      rw [← h]
  · next x h => exact absurd ofCatalog_catalog_isOk (by simp [h, Except.toBool])

theorem ordered_table : instructionSet.table.Ordered :=
  (OpcodeTable.perm_of_ofCatalog ofCatalog_catalog).1

theorem mem_entries {e : Entry} : e ∈ instructionSet.table.entries ↔ e ∈ catalogEntries :=
  (OpcodeTable.perm_of_ofCatalog ofCatalog_catalog).2.2.mem_iff

theorem exists_compile {d : Descriptor} (hd : d ∈ catalog) :
    ∃ e, d.template.compile = .ok e := by
  have hsome := (OpcodeTable.perm_of_ofCatalog ofCatalog_catalog).2.1 d hd
  obtain ⟨e, he⟩ := Option.isSome_iff_exists.1 hsome
  exact ⟨e.encoding, (Descriptor.entry?_eq_some.1 he).2⟩

/-- Two entries that accept one word are the same, or they are idle and left shift. -/
theorem eq_or_zero_of_accepts {a b : Entry} (ha : a ∈ catalogEntries) (hb : b ∈ catalogEntries)
    {w : Word} (hwa : a.encoding.accepts w = true) (hwb : b.encoding.accepts w = true) :
    a = b ∨ a.descriptor.action = .nop ∧ b.descriptor.action = .lsl ∨
      a.descriptor.action = .lsl ∧ b.descriptor.action = .nop := by
  let R : Entry → Entry → Prop := fun a b =>
    a.encoding.Conflicts b.encoding ∨ a.descriptor.action = .nop ∧ b.descriptor.action = .lsl ∨
      a.descriptor.action = .lsl ∧ b.descriptor.action = .nop
  have hsymm : Std.Symm R := ⟨fun a b h => by
    rcases h with h | h | h
    · exact .inl h.symm
    · exact .inr (.inr h.symm)
    · exact .inr (.inl h.symm)⟩
  have hpair : catalogEntries.Pairwise R :=
    catalogEntries_pairwise.imp fun h => h.imp_right .inl
  by_cases hne : a = b
  · exact .inl hne
  · rcases hpair.forall ha hb hne with h | h
    · rw [h.not_accepts hwa] at hwb
      cases hwb
    · exact .inr h

theorem eq_zero_of_accepts_nop {e : Entry} (he : e ∈ catalogEntries)
    (hnop : e.descriptor.action = .nop) {w : Word} (hw : e.encoding.accepts w = true) : w = 0 := by
  obtain ⟨hmask, hfixed⟩ := (catalogEntries_masks e he).1 hnop
  rwa [Encoding.accepts_iff, hmask, hfixed, BitVec.and_allOnes] at hw

/-- What is decoded is a word that an instruction of the catalog accepts. -/
theorem exists_of_decode? {w : Word} {d : Decoded} (h : instructionSet.decode? w = some d) :
    ∃ e ∈ catalogEntries, e.encoding.accepts w = true ∧ d = e.decode w := by
  obtain ⟨e, he, hw, hd, -⟩ := OpcodeTable.find?_eq_some ordered_table h
  exact ⟨e, mem_entries.1 he, hw, hd⟩

theorem descriptor_mem_of_decode? {w : Word} {d : Decoded}
    (h : instructionSet.decode? w = some d) : d.descriptor ∈ catalog := by
  obtain ⟨e, he, -, rfl⟩ := exists_of_decode? h
  exact (mem_catalogEntries.1 he).1

theorem catalog_isReadable : ∀ d ∈ catalog, d.isReadable = true := by
  decide +kernel

theorem isReadable_of_decode? {w : Word} {d : Decoded} (h : instructionSet.decode? w = some d) :
    d.descriptor.isReadable = true :=
  catalog_isReadable _ (descriptor_mem_of_decode? h)

theorem hasText_instructionSet (w : Word) : hasText instructionSet.decode? w = true := by
  rw [hasText, Option.all_eq_true]
  exact fun d hd => isReadable_of_decode? hd

/-- The catalog has a text for every word. -/
theorem printWord_instructionSet (pc w : Word) :
    printWord instructionSet.decode? pc w = .ok (wordText instructionSet.decode? pc w) := by
  rw [printWord_eq, if_pos (hasText_instructionSet w)]

/-- An instruction that accepts a word is what the word decodes to; the word of zeros is no
shift. -/
theorem decode?_of_accepts {e : Entry} (he : e ∈ catalogEntries) {w : Word}
    (hw : e.encoding.accepts w = true) (hlsl : e.descriptor.action = .lsl → w ≠ 0) :
    instructionSet.decode? w = some (e.decode w) := by
  have hsome := OpcodeTable.find?_isSome ordered_table (mem_entries.2 he) hw
  obtain ⟨d, hd⟩ := Option.isSome_iff_exists.1 hsome
  obtain ⟨x, hx, hxw, rfl, hbest⟩ := OpcodeTable.find?_eq_some ordered_table hd
  have hxc := mem_entries.1 hx
  rcases eq_or_zero_of_accepts he hxc hw hxw with rfl | ⟨hnop, hshift⟩ | ⟨hshift, hnop⟩
  · exact hd
  · -- the mask of the idle word would come first
    have hfirst := hbest e (mem_entries.2 he) hw
    rw [((catalogEntries_masks e he).1 hnop).1, (catalogEntries_masks x hxc).2 hshift] at hfirst
    cases hfirst
  · exact absurd (eq_zero_of_accepts_nop hxc hnop hxw) (hlsl hshift)

theorem decode?_of_compile {d : Descriptor} {e : Encoding} (hd : d ∈ catalog)
    (he : d.template.compile = .ok e) {w : Word} (hw : e.accepts w = true)
    (hlsl : d.action = .lsl → w ≠ 0) : instructionSet.decode? w = some ⟨d, e.extract w, w⟩ :=
  decode?_of_accepts (e := ⟨d, e⟩) (mem_catalogEntries.2 ⟨hd, he⟩) hw hlsl

theorem decode?_zero :
    ∃ e ∈ catalogEntries, e.descriptor.action = .nop ∧
      instructionSet.decode? 0 = some (e.decode 0) := by
  have hidle : ∃ d ∈ catalog, d.action = .nop := by simp [catalog, Catalog.idle]
  obtain ⟨d, hd, hnop⟩ := hidle
  obtain ⟨encoding, hcompile⟩ := exists_compile hd
  have he : ⟨d, encoding⟩ ∈ catalogEntries := mem_catalogEntries.2 ⟨hd, hcompile⟩
  have hw : encoding.accepts 0 = true := by
    have hfixed : encoding.fixed = 0 := ((catalogEntries_masks _ he).1 hnop).2
    simp [Encoding.accepts_iff, hfixed]
  exact ⟨_, he, hnop, decode?_of_accepts he hw fun hlsl => by simp [hnop] at hlsl⟩

end LegMachine
