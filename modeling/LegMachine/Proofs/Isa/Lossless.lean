import LegMachine.Proofs.Isa.Decoding

/-!
# The instruction set as a code

No word but zero has two readings (`pairwise_not_describes`). Operands that fit their fields are
read back as they were encoded (`extract_encode_of_fits`), so an encoded instruction is decoded to
itself; only the left shift with all operands zero is the idle word (`decode?_encode`). What is
decoded encodes to the word that it was read from (`encode_of_decode?`).
-/

namespace LegMachine

namespace Encoding

variable {e : Encoding} {ops : List Word}

/-- One operand for each field, with no more bits than the field has. -/
def Fits (e : Encoding) (ops : List Word) : Prop :=
  List.Forall₂ (fun f v => v.toNat < 2 ^ f.width) e.fields ops

theorem extract_encode_of_fits (h : e.Partition) (hops : e.Fits ops) :
    e.extract (e.encode ops) = ops := by
  obtain ⟨hlen, hfits⟩ := List.forall₂_iff_get.1 hops
  apply List.ext_getElem?
  intro k
  rw [extract_encode h]
  by_cases hk : k < ops.length
  · have hk' : k < e.fields.length := hlen ▸ hk
    rw [List.getElem?_eq_getElem hk, List.getElem?_eq_getElem hk', Option.map_some,
      List.getD_eq_getElem _ _ hk]
    exact congrArg some (zeroExtendLow_eq_self (hfits k hk' hk))
  · have hk' : ¬ k < e.fields.length := hlen ▸ hk
    rw [List.getElem?_eq_none (by omega), List.getElem?_eq_none (by omega), Option.map_none]

theorem encode_of_zero (h : e.Partition) (hops : ∀ v ∈ ops, v = 0) : e.encode ops = e.fixed := by
  apply BitVec.eq_of_getLsbD_eq
  intro i _
  rw [Bool.eq_iff_iff, getLsbD_encode h]
  refine or_iff_left ?_
  rintro ⟨k, f, v, -, hv, -, hbit⟩
  rw [hops v (List.mem_of_getElem? hv)] at hbit
  simp at hbit

theorem eq_zero_of_mem_extract_zero (h : e.Partition) {v : Word} (hv : v ∈ e.extract 0) :
    v = 0 := by
  obtain ⟨f, hf, rfl⟩ := List.mem_map.1 hv
  apply BitVec.eq_of_getLsbD_eq
  intro i _
  rw [getLsbD_gather 0 (h.length_le hf)]
  simp

end Encoding

/-- The template compiles, and its fixed bits are those of the word. -/
def Descriptor.describes (w : Word) (d : Descriptor) : Bool :=
  match d.template.compile with
  | .ok e => e.accepts w
  | .error _ => false

theorem Descriptor.describes_eq_true {w : Word} {d : Descriptor} :
    d.describes w = true ↔ ∃ e, d.entry? = some e ∧ e.encoding.accepts w = true := by
  unfold describes entry?
  cases d.template.compile <;> simp [Except.toOption]

/-! ## Words with one reading -/

theorem pairwise_not_describes {w : Word} (hw : w ≠ 0) :
    catalog.Pairwise fun a b => ¬ (a.describes w = true ∧ b.describes w = true) := by
  have hentries : catalogEntries.Pairwise fun a b =>
      ¬ (a.encoding.accepts w = true ∧ b.encoding.accepts w = true) := by
    refine catalogEntries_pairwise.imp_of_mem ?_
    rintro a b ha - (hconflict | ⟨hnop, -⟩) ⟨hwa, hwb⟩
    · rw [hconflict.not_accepts hwa] at hwb
      cases hwb
    · exact hw (eq_zero_of_accepts_nop ha hnop hwa)
  refine (List.pairwise_filterMap.1 hentries).imp ?_
  rintro a b hab ⟨ha, hb⟩
  obtain ⟨x, hx, hwx⟩ := Descriptor.describes_eq_true.1 ha
  obtain ⟨y, hy, hwy⟩ := Descriptor.describes_eq_true.1 hb
  exact hab x hx y hy ⟨hwx, hwy⟩

theorem length_filter_le_one {α : Type} {p : α → Bool} {l : List α}
    (h : l.Pairwise fun a b => ¬ (p a = true ∧ p b = true)) : (l.filter p).length ≤ 1 := by
  have hfilter : (l.filter p).Pairwise fun _ _ => False :=
    List.pairwise_filter.2 (h.imp fun hab ha hb => hab ⟨ha, hb⟩)
  cases hl : l.filter p with
  | nil => simp
  | cons a rest =>
    rw [hl, List.pairwise_cons] at hfilter
    cases rest with
    | nil => simp
    | cons b rest => exact (hfilter.1 b List.mem_cons_self).elim

theorem filter_describes_zero :
    (catalog.filter (·.describes 0)).map (fun d => (d.action, d.sample)) =
      [(.nop, "nop"), (.lsl, "LSL X1,X2,10")] := by
  decide +kernel

theorem fixed_of_lsl : ∀ e ∈ catalogEntries, e.descriptor.action = .lsl → e.encoding.fixed = 0 := by
  decide +kernel

/-! ## Decoding what is encoded, and back -/

theorem decode?_zero_eq : instructionSet.decode? 0 = some ⟨Catalog.idle[0], [], 0⟩ := by
  let e : Entry := ⟨Catalog.idle[0], ⟨BitVec.allOnes 32, 0, []⟩⟩
  have hmem : e.descriptor ∈ catalog := by simp [e, catalog]
  have he : e ∈ catalogEntries := mem_catalogEntries.2 ⟨hmem, by decide +kernel⟩
  exact decode?_of_accepts he (by decide) fun hlsl => by cases hlsl

/-- An instruction whose operands fit is decoded to itself, if it is not the left shift with all
operands zero, which is the idle word. -/
theorem decode?_encode {e : Entry} (he : e ∈ catalogEntries) {ops : List Word}
    (hops : e.encoding.Fits ops) :
    instructionSet.decode? (e.encoding.encode ops) =
      if e.descriptor.action = .lsl ∧ ∀ v ∈ ops, v = 0 then some ⟨Catalog.idle[0], [], 0⟩
      else some ⟨e.descriptor, ops, e.encoding.encode ops⟩ := by
  have hp := Template.partition_of_compile (mem_catalogEntries.1 he).2
  have hread := Encoding.extract_encode_of_fits hp hops
  split
  · next hidle =>
    rw [Encoding.encode_of_zero hp hidle.2, fixed_of_lsl e he hidle.1, decode?_zero_eq]
  · next hself =>
    have hlsl : e.descriptor.action = .lsl → e.encoding.encode ops ≠ 0 := fun hlsl hzero =>
      hself ⟨hlsl, fun v hv => Encoding.eq_zero_of_mem_extract_zero hp (by
        rwa [← hzero, hread])⟩
    rw [decode?_of_accepts he (Encoding.accepts_encode hp ops) hlsl, Entry.decode, hread]

theorem encode_of_decode? {w : Word} {d : Decoded} (h : instructionSet.decode? w = some d) :
    ∃ e, d.descriptor.template.compile = .ok e ∧ e.encode d.operands = w := by
  obtain ⟨e, he, hw, rfl⟩ := exists_of_decode? h
  have hcompile := (mem_catalogEntries.1 he).2
  exact ⟨e.encoding, hcompile, Encoding.encode_extract (Template.partition_of_compile hcompile) hw⟩

/-- At most one instruction describes a word other than zero; instructions whose operands fit and
words that are decoded stand for one another, but for the left shift that is the idle word. -/
theorem instructionSet_lossless :
    (∀ w, w ≠ 0 → (catalog.filter (·.describes w)).length ≤ 1) ∧
    (catalog.filter (·.describes 0)).map (fun d => (d.action, d.sample)) =
      [(.nop, "nop"), (.lsl, "LSL X1,X2,10")] ∧
    (∀ d ∈ catalog, ∃ e, d.template.compile = .ok e ∧ ∀ ops, e.Fits ops →
      instructionSet.decode? (e.encode ops) =
        if d.action = .lsl ∧ ∀ v ∈ ops, v = 0 then some ⟨Catalog.idle[0], [], 0⟩
        else some ⟨d, ops, e.encode ops⟩) ∧
    ∀ w d, instructionSet.decode? w = some d →
      ∃ e, d.descriptor.template.compile = .ok e ∧ e.encode d.operands = w := by
  refine ⟨fun w hw => length_filter_le_one (pairwise_not_describes hw), filter_describes_zero,
    fun d hd => ?_, fun w d h => encode_of_decode? h⟩
  obtain ⟨e, hcompile⟩ := exists_compile hd
  have he : ⟨d, e⟩ ∈ catalogEntries := mem_catalogEntries.2 ⟨hd, hcompile⟩
  exact ⟨e, hcompile, fun ops hops => decode?_encode he hops⟩

/-- `LSL X1,X2,10` is decoded to itself, `LSL X0,X0,0` to the idle word. -/
theorem instructionSet_lossless_shift :
    let d := Catalog.logic[8]
    ∃ e, d ∈ catalog ∧ d.template.compile = .ok e ∧ e.Fits [1, 2, 10] ∧ e.Fits [0, 0, 0] ∧
      e.encode [1, 2, 10] = 0x00220280 ∧ e.encode [0, 0, 0] = 0 ∧
      instructionSet.decode? 0x00220280 = some ⟨d, [1, 2, 10], 0x00220280⟩ ∧
      instructionSet.decode? 0 = some ⟨Catalog.idle[0], [], 0⟩ := by
  intro d
  let e : Encoding := ⟨0xFC00F83F, 0,
    [⟨'d', [25, 24, 23, 22, 21]⟩, ⟨'n', [20, 19, 18, 17, 16]⟩, ⟨'s', [10, 9, 8, 7, 6]⟩]⟩
  have hd : d ∈ catalog := by simp [d, catalog]
  have hcompile : d.template.compile = .ok e := by decide +kernel
  have hfits : e.Fits [1, 2, 10] := .cons (by decide) (.cons (by decide) (.cons (by decide) .nil))
  have hzero : e.Fits [0, 0, 0] := .cons (by decide) (.cons (by decide) (.cons (by decide) .nil))
  have hword : e.encode [1, 2, 10] = 0x00220280 := by decide
  have hidle : e.encode [0, 0, 0] = 0 := by decide
  obtain ⟨-, -, hdecode, -⟩ := instructionSet_lossless
  obtain ⟨e', hcompile', hdecode⟩ := hdecode d hd
  rw [← Except.ok.inj (hcompile.symm.trans hcompile')] at hdecode
  have hself := hdecode _ hfits
  have hnop := hdecode _ hzero
  rw [hword, if_neg fun h => absurd (h.2 1 List.mem_cons_self) (by decide)] at hself
  rw [hidle, if_pos ⟨rfl, by simp⟩] at hnop
  exact ⟨e, hd, hcompile, hfits, hzero, hword, hidle, hself, hnop⟩

end LegMachine
