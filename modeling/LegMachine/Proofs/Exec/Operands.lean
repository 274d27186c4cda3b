import LegMachine.Exec.Instruction
import LegMachine.Proofs.Isa.Decoding

/-!
# What actions read of their operands

`Action.operandKinds` says what each operand of an action is. An immediate is read through its low
bits only and all else is read whole, so operands that agree that far make one instruction
(`ofOperands_congr`). The fields of the catalog have room for what is read
(`catalogEntries_suit`); hence admissible operands agree with those that are read back from the word
they are encoded in (`agree_extract_encode`). They have no room for a register that does not exist
(`catalogEntries_bound`), so that the operands of any word are admissible (`admits_of_decode?`).
-/

namespace LegMachine

inductive OperandKind where
  | register
  /-- The halfword of a wide move. -/
  | lane
  /-- A word of the current region. -/
  | target
  /-- A value that is taken as it stands. -/
  | literal
  /-- A number of which only the low bits are read. -/
  | immediate (bits : Nat)
  deriving DecidableEq, Repr

def Action.operandKinds : Action → List OperandKind
  | .nop => []
  | .add | .adds | .sub | .subs | .mul | .smulh | .umulh | .sdiv | .udiv | .and | .ands | .orr
  | .eor | .stxr | .fadds | .fsubs | .fmuls | .fdivs | .faddd | .fsubd | .fmuld | .fdivd =>
    [.register, .register, .register]
  | .addi | .addis | .subi | .subis | .andi | .andis | .orri | .eori | .ldxr | .ldur | .ldurb
  | .ldurh | .stur | .sturb | .sturh | .ldurs | .ldurd | .sturs | .sturd =>
    [.register, .register, .immediate 16]
  | .lsl | .lsr => [.register, .register, .immediate 5]
  | .b | .bl | .bCond _ => [.target]
  | .bRel => [.immediate 26]
  | .br => [.register]
  | .cbnz | .cbz | .cbnzRel | .cbzRel => [.register, .immediate 16]
  | .svc => [.immediate 0]
  | .lda => [.register, .literal]
  | .movz | .movk => [.register, .immediate 16, .lane]
  | .fcmps | .fcmpd => [.register, .register]

namespace OperandKind

/-- Two values are the same as far as they are read. -/
def Agree : OperandKind → Word → Word → Prop
  | immediate bits, v, w => v.setWidth bits = w.setWidth bits
  | _, v, w => v = w

/-- Two lists have one value for each operand, and the values agree. -/
inductive AgreeAll : List OperandKind → List Word → List Word → Prop where
  | nil : AgreeAll [] [] []
  | cons {k : OperandKind} {ks : List OperandKind} {v w : Word} {vs ws : List Word} :
      k.Agree v w → AgreeAll ks vs ws → AgreeAll (k :: ks) (v :: vs) (w :: ws)

/-- The values that may be given for an operand with a field of some width: registers and lanes are
below 32, targets and literals fit into the field, immediates are any words. -/
def Admits (width : Nat) (v : Word) : OperandKind → Prop
  | register | lane => v.toNat < 32
  | target | literal => v.toNat < 2 ^ width
  | immediate _ => True

instance (width : Nat) (v : Word) : (kind : OperandKind) → Decidable (kind.Admits width v)
  | register | lane => inferInstanceAs (Decidable (v.toNat < 32))
  | target | literal => inferInstanceAs (Decidable (v.toNat < 2 ^ width))
  | immediate _ => inferInstanceAs (Decidable True)

/-- One value for each operand, each of them admitted. -/
inductive AdmitsAll : List OperandKind → List Nat → List Word → Prop where
  | nil : AdmitsAll [] [] []
  | cons {k : OperandKind} {ks : List OperandKind} {n : Nat} {ns : List Nat} {v : Word}
      {vs : List Word} :
      k.Admits n v → AdmitsAll ks ns vs → AdmitsAll (k :: ks) (n :: ns) (v :: vs)

/-- A field has room for what is read of its operand. -/
def Suits (width : Nat) : OperandKind → Bool
  | register | lane => 5 ≤ width
  | target | literal => true
  | immediate bits => bits ≤ width

def SuitsAll : List OperandKind → List Nat → Bool
  | [], [] => true
  | k :: ks, n :: ns => k.Suits n && SuitsAll ks ns
  | _, _ => false

/-- What a field holds may be given for its operand. -/
def Bounds (width : Nat) : OperandKind → Bool
  | register | lane => width ≤ 5
  | target | literal | immediate _ => true

theorem admits_of_bounds {kind : OperandKind} {width : Nat} {v : Word}
    (hb : kind.Bounds width = true) (hv : v.toNat < 2 ^ width) : kind.Admits width v := by
  cases kind with
  | register | lane =>
    have hwidth : width ≤ 5 := of_decide_eq_true hb
    exact Nat.lt_of_lt_of_le hv (Nat.pow_le_pow_right (by decide) hwidth)
  | target | literal => exact hv
  | immediate bits => trivial

theorem admitsAll_gather {kinds : List OperandKind} {fields : List Field} {w : Word}
    (hb : List.Forall₂ (fun (kind : OperandKind) width => kind.Bounds width = true) kinds
      (fields.map Field.width))
    (hlength : ∀ f ∈ fields, f.positions.length ≤ 32) :
    AdmitsAll kinds (fields.map Field.width) (fields.map fun f => gather f.positions w) := by
  rw [List.forall₂_map_right_iff] at hb
  induction hb with
  | nil => exact .nil
  | @cons kind f kinds fields hf _ ih =>
    refine .cons (admits_of_bounds hf (gather_lt w (hlength f List.mem_cons_self))) ?_
    exact ih fun g hg => hlength g (List.mem_cons_of_mem _ hg)

theorem agree_zeroExtendLow {kind : OperandKind} {width : Nat} {v : Word}
    (hs : kind.Suits width = true) (hv : kind.Admits width v) :
    kind.Agree (zeroExtendLow width v) v := by
  have hpow : 5 ≤ width → (2 : Nat) ^ 5 ≤ 2 ^ width := Nat.pow_le_pow_right (by decide)
  cases kind with
  | register | lane =>
    exact zeroExtendLow_eq_self (Nat.lt_of_lt_of_le hv (hpow (of_decide_eq_true hs)))
  | target | literal => exact zeroExtendLow_eq_self hv
  | immediate bits => exact setWidth_zeroExtendLow (of_decide_eq_true hs) v

theorem agreeAll_zipWith {kinds : List OperandKind} {widths : List Nat} {ops : List Word}
    (hv : AdmitsAll kinds widths ops) (hs : SuitsAll kinds widths = true) :
    AgreeAll kinds (List.zipWith zeroExtendLow widths ops) ops := by
  induction hv with
  | nil => exact .nil
  | cons hv _ ih =>
    rw [SuitsAll, Bool.and_eq_true] at hs
    exact .cons (agree_zeroExtendLow hs.1 hv) (ih hs.2)

theorem AdmitsAll.length_eq {kinds : List OperandKind} {widths : List Nat} {ops : List Word}
    (hv : AdmitsAll kinds widths ops) : ops.length = widths.length := by
  induction hv with
  | nil => rfl
  | cons _ _ ih => rw [List.length_cons, List.length_cons, ih]

theorem AgreeAll.eq {kinds : List OperandKind} {ops ops' : List Word}
    (h : AgreeAll kinds ops ops') (hk : ∀ bits, immediate bits ∉ kinds) : ops = ops' := by
  induction h with
  | nil => rfl
  | @cons k ks v w vs ws hvw _ ih =>
    have hvw : v = w := by
      cases k with
      | immediate bits => exact absurd List.mem_cons_self (hk bits)
      | _ => exact hvw
    rw [hvw, ih fun bits hb => hk bits (List.mem_cons_of_mem _ hb)]

end OperandKind

/-- The operands that an instruction of the catalog may be given. -/
def Descriptor.Admits (d : Descriptor) (ops : List Word) : Prop :=
  OperandKind.AdmitsAll d.action.operandKinds d.fieldWidths ops

/-! ## One instruction from operands that agree -/

theorem signExtendLow_congr {n : Nat} {v w : Word} (h : v.setWidth n = w.setWidth n) :
    signExtendLow n v = signExtendLow n w := by
  rw [signExtendLow, signExtendLow, h]

theorem signExtendLow_neg_congr {n : Nat} {v w : Word} (hn : n ≤ 32)
    (h : v.setWidth n = w.setWidth n) : signExtendLow n (-v) = signExtendLow n (-w) := by
  apply signExtendLow_congr
  rw [BitVec.setWidth_neg_of_le hn, BitVec.setWidth_neg_of_le hn, h]

theorem lowHalf_eq_zeroExtendLow (w : Word) : lowHalf w = zeroExtendLow 16 w := by
  apply BitVec.eq_of_toNat_eq
  rw [lowHalf, zeroExtendLow, BitVec.toNat_and, BitVec.toNat_setWidth, BitVec.toNat_setWidth]
  have hand := Nat.and_two_pow_sub_one_eq_mod w.toNat 16
  simp at hand ⊢
  omega

theorem lowHalf_congr {v w : Word} (h : v.setWidth 16 = w.setWidth 16) :
    lowHalf v = lowHalf w := by
  rw [lowHalf_eq_zeroExtendLow, lowHalf_eq_zeroExtendLow, zeroExtendLow, zeroExtendLow, h]

namespace Operand

open OperandKind

theorem amount_congr {v w : Word} (h : v.setWidth 5 = w.setWidth 5) : amount v = amount w := by
  have hn := congrArg BitVec.toNat h
  rw [BitVec.toNat_setWidth, BitVec.toNat_setWidth] at hn
  exact Fin.ext hn

variable {n : Nat} {ops ops' : List Word}

theorem immediate_congr {make : Word → Instruction} (h : AgreeAll [.immediate n] ops ops')
    (hmake : ∀ v w, v.setWidth n = w.setWidth n → make v = make w) :
    immediate ops make = immediate ops' make := by
  obtain _ | ⟨hv, _ | _⟩ := h
  exact congrArg Except.ok (hmake _ _ hv)

theorem oneImmediate_congr {make : Register → Word → Instruction}
    (h : AgreeAll [.register, .immediate n] ops ops')
    (hmake : ∀ v w, v.setWidth n = w.setWidth n → ∀ r, make r v = make r w) :
    oneImmediate ops make = oneImmediate ops' make := by
  obtain _ | ⟨⟨⟩, _ | ⟨hv, _ | _⟩⟩ := h
  exact congrArg (_ >>= ·) (funext fun r => congrArg Except.ok (hmake _ _ hv r))

theorem twoImmediate_congr {make : Register → Register → Word → Instruction}
    (h : AgreeAll [.register, .register, .immediate n] ops ops')
    (hmake : ∀ v w, v.setWidth n = w.setWidth n → ∀ d r, make d r v = make d r w) :
    twoImmediate ops make = twoImmediate ops' make := by
  obtain _ | ⟨⟨⟩, _ | ⟨⟨⟩, _ | ⟨hv, _ | _⟩⟩⟩ := h
  exact congrArg (_ >>= ·) (funext fun d => congrArg (_ >>= ·)
    (funext fun r => congrArg Except.ok (hmake _ _ hv d r)))

theorem oneImmediates_congr {make : Register → Word → Word → Instruction}
    (h : AgreeAll [.register, .immediate n, .lane] ops ops')
    (hmake : ∀ v w, v.setWidth n = w.setWidth n → ∀ r l, make r v l = make r w l) :
    oneImmediates ops make = oneImmediates ops' make := by
  obtain _ | ⟨⟨⟩, _ | ⟨hv, _ | ⟨⟨⟩, _ | _⟩⟩⟩ := h
  exact congrArg (_ >>= ·) (funext fun r => congrArg Except.ok (hmake _ _ hv r _))

end Operand

namespace Instruction

open OperandKind Operand

/-- An action makes one instruction of operands that agree as far as it reads them. -/
theorem ofOperands_congr {action : Action} {ops ops' : List Word}
    (h : AgreeAll action.operandKinds ops ops') :
    ofOperands action ops = ofOperands action ops' := by
  cases action with
  | nop | svc => rfl
  | addi | addis | subi | ldxr | ldur | ldurb | ldurh | stur | sturb | sturh | ldurs | ldurd
  | sturs | sturd =>
    exact twoImmediate_congr h fun v w hv d r => by rw [signExtendLow_congr hv]
  | subis =>
    exact twoImmediate_congr h fun v w hv d r => by
      rw [signExtendLow_neg_congr (by decide) hv]
  | andi | andis | orri | eori =>
    exact twoImmediate_congr h fun v w hv d r => by rw [lowHalf_congr hv]
  | lsl | lsr => exact twoImmediate_congr h fun v w hv d r => by rw [amount_congr hv]
  | bRel => exact immediate_congr h fun v w hv => by rw [signExtendLow_congr hv]
  | cbnz | cbz | cbnzRel | cbzRel =>
    exact oneImmediate_congr h fun v w hv r => by rw [signExtendLow_congr hv]
  | movz | movk =>
    exact oneImmediates_congr h fun v w hv r l => by rw [lowHalf_congr hv]
  | _ => exact congrArg _ (h.eq (by simp [Action.operandKinds]))

end Instruction

/-! ## Operands of encoded words -/

theorem catalogEntries_suit : ∀ e ∈ catalogEntries,
    OperandKind.SuitsAll e.descriptor.action.operandKinds e.descriptor.fieldWidths = true := by
  decide +kernel

theorem catalogEntries_bound : ∀ e ∈ catalogEntries,
    List.Forall₂ (fun (kind : OperandKind) width => kind.Bounds width = true)
      e.descriptor.action.operandKinds e.descriptor.fieldWidths := by
  decide +kernel

/-- The operands of a word that is decoded are admitted. -/
theorem admits_of_decode? {w : Word} {d : Decoded} (h : instructionSet.decode? w = some d) :
    d.descriptor.Admits d.operands := by
  obtain ⟨e, he, -, rfl⟩ := exists_of_decode? h
  have hp := Template.partition_of_compile (mem_catalogEntries.1 he).2
  have hbound := catalogEntries_bound e he
  rw [fieldWidths_eq he] at hbound
  show OperandKind.AdmitsAll _ e.descriptor.fieldWidths (e.encoding.fields.map _)
  rw [fieldWidths_eq he]
  exact OperandKind.admitsAll_gather hbound fun _ hf => hp.length_le hf

/-- What is read back from an encoded word agrees with the operands that it encodes. -/
theorem agree_extract_encode {e : Entry} (he : e ∈ catalogEntries) {ops : List Word}
    (hops : e.descriptor.Admits ops) :
    OperandKind.AgreeAll e.descriptor.action.operandKinds
      (e.encoding.extract (e.encoding.encode ops)) ops := by
  have hp := Template.partition_of_compile (mem_catalogEntries.1 he).2
  have hlen : ops.length = e.encoding.fields.length := by
    rw [hops.length_eq, fieldWidths_eq he, List.length_map]
  have hread : e.encoding.extract (e.encoding.encode ops) =
      List.zipWith zeroExtendLow e.descriptor.fieldWidths ops := by
    apply List.ext_getElem?
    intro k
    rw [Encoding.extract_encode hp, fieldWidths_eq he, List.getElem?_zipWith, List.getElem?_map]
    cases hf : e.encoding.fields[k]? with
    | none => rfl
    | some f =>
      have hk : k < ops.length := hlen ▸ (List.getElem?_eq_some_iff.1 hf).1
      simp [hk]
  rw [hread]
  exact OperandKind.agreeAll_zipWith hops (catalogEntries_suit e he)

end LegMachine
