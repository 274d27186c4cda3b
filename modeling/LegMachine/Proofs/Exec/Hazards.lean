import LegMachine.Proofs.Exec.Checked
import LegMachine.Proofs.Exec.Leftover

/-!
# Instructions meet no hazard

An instruction that has all of its operands is executed without a hazard, and `Checked.execute` says
what `execute` says (`Checked.execute_eq_ok`). Its operands name registers that exist; an even
register has a next one, so that a double has both halves; divisors are tested and amounts are cut
to five bits; and 64 bits hold the sums and products of words.
-/

namespace LegMachine

/-! ## Words within 64 bits -/

theorem sshiftRight_shiftLeft {width : Nat} (hpos : 0 < width) (hle : width ≤ 32) (v : Word) :
    (v <<< (32 - width)).sshiftRight (32 - width) = signExtendLow width v := by
  apply BitVec.eq_of_getLsbD_eq
  intro i hi
  rw [signExtendLow, BitVec.getLsbD_sshiftRight, BitVec.getLsbD_signExtend]
  by_cases h : i < width
  · have hin : 32 - width + i < 32 := by omega
    have hback : 32 - width + i - (32 - width) = i := by omega
    rw [if_pos hin, if_pos h, BitVec.getLsbD_shiftLeft, BitVec.getLsbD_setWidth, hback]
    simp [hi, h, hin, Nat.not_le.2 hi]
  · have hsign : 31 - (32 - width) = width - 1 := by omega
    have hlast : width - 1 < width := by omega
    have hin : 32 - width ≤ 31 := by omega
    rw [if_neg (by omega), if_neg h, BitVec.msb_eq_getLsbD_last, BitVec.msb_eq_getLsbD_last,
      BitVec.getLsbD_shiftLeft, BitVec.getLsbD_setWidth, hsign]
    simp [hi, hlast, hin, Nat.not_le.2 hi]

theorem setWidth_ofInt (p : Int) : (BitVec.ofInt 64 p).setWidth 32 = BitVec.ofInt 32 p := by
  apply BitVec.eq_of_toNat_eq
  rw [BitVec.toNat_setWidth, BitVec.toNat_ofInt, BitVec.toNat_ofInt]
  omega

theorem setWidth_sshiftRight_ofInt {p : Int} (h : -2 ^ 63 ≤ p ∧ p < 2 ^ 63) :
    ((BitVec.ofInt 64 p).sshiftRight 32).setWidth 32 = BitVec.ofInt 32 (p / 2 ^ 32) := by
  rw [BitVec.sshiftRight_eq, BitVec.toInt_ofInt_eq_self (by decide) h.1 h.2,
    Int.shiftRight_eq_div_pow, setWidth_ofInt]
  rfl

theorem setWidth_ushiftRight_ofNat {p : Nat} (h : p < 2 ^ 64) :
    (BitVec.ofNat 64 p >>> 32).setWidth 32 = BitVec.ofNat 32 (p / 2 ^ 32) := by
  apply BitVec.eq_of_toNat_eq
  rw [BitVec.toNat_setWidth, BitVec.toNat_ushiftRight, BitVec.toNat_ofNat, BitVec.toNat_ofNat,
    Nat.shiftRight_eq_div_pow]
  omega

theorem shiftLeft_or_eq_append (high low : Word) :
    high.setWidth 64 <<< 32 ||| low.setWidth 64 = high ++ low := by
  apply BitVec.eq_of_getLsbD_eq
  intro i hi
  rw [BitVec.getLsbD_append, BitVec.getLsbD_or, BitVec.getLsbD_shiftLeft,
    BitVec.getLsbD_setWidth, BitVec.getLsbD_setWidth]
  by_cases h : i < 32
  · simp [h, hi]
  · have hlow : low.getLsbD i = false := BitVec.getLsbD_of_ge _ _ (by omega)
    have hhigh : i - 32 < 64 := by omega
    simp [h, hi, hlow, hhigh]

/-- The amount that moves a halfword to its place. -/
theorem toNat_and_one_mul (lane : Word) :
    (lane &&& 1).toNat * 16 = if lane.getLsbD 0 then 16 else 0 := by
  have hlow : lane.getLsbD 0 = decide (lane.toNat % 2 = 1) := Nat.testBit_zero lane.toNat
  rw [BitVec.toNat_and, show (1 : Word).toNat = 1 from rfl, Nat.and_one_is_mod, hlow]
  by_cases hodd : lane.toNat % 2 = 1
  · rw [hodd, if_pos (decide_eq_true rfl)]
  · rw [if_neg (by simpa using hodd), show lane.toNat % 2 = 0 by omega]

theorem Addend.value_bounds (addend : Addend) (p : Processor) :
    -2 ^ 32 ≤ addend.value p ∧ addend.value p ≤ 2 ^ 32 := by
  have hword (w : Word) : -2 ^ 31 ≤ w.toInt ∧ w.toInt < 2 ^ 31 :=
    ⟨BitVec.le_toInt w, BitVec.toInt_lt⟩
  cases addend with
  | register r =>
    have hr := hword (p.x r)
    show -2 ^ 32 ≤ (p.x r).toInt ∧ (p.x r).toInt ≤ 2 ^ 32
    omega
  | negated r =>
    have hr := hword (p.x r)
    show -2 ^ 32 ≤ -(p.x r).toInt ∧ -(p.x r).toInt ≤ 2 ^ 32
    omega
  | immediate v =>
    have hv := hword v
    show -2 ^ 32 ≤ v.toInt ∧ v.toInt ≤ 2 ^ 32
    omega

/-! ## Products of words -/

section

variable (a b : Word)

theorem toInt_mul_bounds : -2 ^ 62 ≤ a.toInt * b.toInt ∧ a.toInt * b.toInt ≤ 2 ^ 62 :=
  ⟨BitVec.le_toInt_mul_toInt, BitVec.toInt_mul_toInt_le⟩

theorem toNat_mul_lt : a.toNat * b.toNat < 2 ^ 64 :=
  Nat.lt_of_lt_of_eq (Nat.mul_lt_mul'' a.isLt b.isLt) (by decide)

theorem wide?_mul : wide? (a.toInt * b.toInt) = some (a.toInt * b.toInt) := by
  have hbounds := toInt_mul_bounds a b
  exact wide?_eq_some (by omega) (by omega)

theorem unsignedWide?_mul : unsignedWide? (a.toNat * b.toNat) = some (a.toNat * b.toNat) :=
  if_pos (toNat_mul_lt a b)

end

namespace Checked

variable {ops : List Word} {position : Nat}

@[simp] theorem ok_bind {α β : Type} (a : α) (f : α → Except Hazard β) :
    (Except.ok a >>= f) = f a := rfl

@[simp] theorem pure_eq_ok {α : Type} (a : α) : (pure a : Except Hazard α) = .ok a := rfl

/-! ## Operands and registers -/

theorem operand_eq {v : Word} (h : Operand.word ops position = .ok v) :
    operand ops position = .ok v := by
  unfold Operand.word at h
  unfold operand
  cases hv : ops[position]? with
  | none =>
    rw [hv] at h
    cases h
  | some w =>
    rw [hv] at h
    cases h
    rfl

theorem index_eq {r : Register} (h : Operand.register ops position = .ok r) :
    index ops position = .ok r.val := by
  unfold Operand.register at h
  obtain ⟨v, hv, hr⟩ := bind_eq_ok.1 h
  unfold index
  rw [operand_eq hv]
  split at hr
  · cases hr
    rfl
  · cases hr

section

variable (p : Processor) (r : Register) (v : Word)

@[simp] theorem x_eq : x p r = .ok (p.x r) := by
  unfold x Processor.x
  by_cases h : r = zeroRegister
  · rw [if_pos (congrArg Fin.val h), if_pos h]
  · rw [if_neg fun hval => h (Fin.ext hval), if_neg h, Vector.getElem?_eq_getElem r.isLt]
    rfl

@[simp] theorem setX_eq : setX r v p = .ok (p.setX r v) := by
  unfold setX Processor.setX
  by_cases h : r = zeroRegister
  · rw [if_pos (congrArg Fin.val h), if_pos h]
  · rw [if_neg fun hval => h (Fin.ext hval), if_neg h, dif_pos r.isLt]

@[simp] theorem s_eq : s p r = .ok (p.s r) := by
  unfold s Processor.s
  rw [Vector.getElem?_eq_getElem r.isLt]
  rfl

@[simp] theorem setS_eq : setS r v p = .ok (p.setS r v) :=
  dif_pos r.isLt

end

theorem xAt_eq {r : Register} (h : Operand.register ops position = .ok r) (p : Processor) :
    xAt ops position p = .ok (p.x r) := by
  unfold xAt
  rw [index_eq h, ok_bind, x_eq]

theorem sAt_eq {r : Register} (h : Operand.register ops position = .ok r) (p : Processor) :
    sAt ops position p = .ok (p.s r) := by
  unfold sAt
  rw [index_eq h, ok_bind, s_eq]

/-! ## Arithmetic -/

section

variable {n amount : Nat} (h : amount < n) (v : BitVec n)
include h

theorem shiftLeft_eq : shiftLeft v amount = .ok (v <<< amount) := if_pos h

theorem shiftRight_eq : shiftRight v amount = .ok (v >>> amount) := if_pos h

theorem shiftRightSigned_eq : shiftRightSigned v amount = .ok (v.sshiftRight amount) := if_pos h

end

theorem signExtend_eq {width : Nat} (hpos : 0 < width) (hle : width ≤ 32) (v : Word) :
    signExtend width v = .ok (signExtendLow width v) := by
  have hamount : 32 - width < 32 := by omega
  unfold signExtend
  rw [shiftLeft_eq hamount, ok_bind, shiftRightSigned_eq hamount, sshiftRight_shiftLeft hpos hle]

theorem divide_eq {b : Word} (h : b ≠ 0) (isSigned : Bool) (a : Word) :
    divide isSigned a b = .ok (if isSigned then a.sdiv b else a.udiv b) := if_neg h

theorem wide_eq {v : Int} (h : -2 ^ 63 ≤ v ∧ v < 2 ^ 63) : wide v = .ok (.ofInt 64 v) := if_pos h

theorem unsignedWide_eq {v : Nat} (h : v < 2 ^ 64) : unsignedWide v = .ok (.ofNat 64 v) :=
  if_pos h

/-- Whether there is a carry is read off the high word. -/
theorem ushiftRight_bne_zero {n : Nat} (h : n < 2 ^ 64) :
    (BitVec.ofNat 64 n >>> 32 != 0) = decide (2 ^ 32 ≤ n) := by
  have hhigh : (BitVec.ofNat 64 n >>> 32).toNat = n / 2 ^ 32 := by
    rw [BitVec.toNat_ushiftRight, BitVec.toNat_ofNat, Nat.shiftRight_eq_div_pow]
    omega
  rw [bne, Bool.eq_iff_iff, Bool.not_eq_true', beq_eq_false_iff_ne, decide_eq_true_iff, ne_eq,
    ← BitVec.toNat_inj, hhigh]
  show ¬ n / 2 ^ 32 = 0 ↔ _
  omega

/-- A sum overflows if its low word does not stand for it. -/
theorem signExtend_setWidth_bne {v : Int} (h : -2 ^ 63 ≤ v ∧ v < 2 ^ 63) :
    (((BitVec.ofInt 64 v).setWidth 32).signExtend 64 != BitVec.ofInt 64 v) =
      decide ((BitVec.ofInt 32 v).toInt ≠ v) := by
  have hself : (BitVec.ofInt 64 v).toInt = v :=
    BitVec.toInt_ofInt_eq_self (by decide) h.1 h.2
  rw [bne, Bool.eq_iff_iff, Bool.not_eq_true', beq_eq_false_iff_ne, decide_eq_true_iff, ne_eq,
    ← BitVec.toInt_inj, BitVec.toInt_signExtend_of_le (by decide), setWidth_ofInt,
    hself]

theorem addWithFlags_eq {a b : BitVec 64}
    (h : -2 ^ 63 ≤ a.toInt + b.toInt ∧ a.toInt + b.toInt < 2 ^ 63) :
    ∃ sum, addWithFlags? a.toInt b.toInt = some sum ∧ addWithFlags a b = .ok sum := by
  have hlow : (a.setWidth 32).toNat + (b.setWidth 32).toNat < 2 ^ 64 := by omega
  have hlowWord (c : BitVec 64) : BitVec.ofInt 32 c.toInt = c.setWidth 32 := by
    rw [← setWidth_ofInt, BitVec.ofInt_toInt]
  unfold addWithFlags? addWithFlags
  rw [wide?_eq_some (by omega) (by omega), wide_eq h, ok_bind, unsignedWide_eq hlow, ok_bind,
    shiftRight_eq (by decide), ok_bind, pure_eq_ok, ushiftRight_bne_zero hlow,
    signExtend_setWidth_bne h, setWidth_ofInt, ← hlowWord, ← hlowWord]
  exact ⟨_, rfl, rfl⟩

theorem product_eq (part : ProductPart) (a b : Word) :
    ∃ v, part.apply? a b = some v ∧ product part a b = .ok v := by
  have hsigned : -2 ^ 63 ≤ a.toInt * b.toInt ∧ a.toInt * b.toInt < 2 ^ 63 := by
    have hbounds := toInt_mul_bounds a b
    omega
  have hunsigned := toNat_mul_lt a b
  unfold ProductPart.apply? product
  cases part with
  | low =>
    simp only [wide?_mul, wide_eq hsigned, ok_bind, pure_eq_ok, setWidth_ofInt]
    exact ⟨_, rfl, rfl⟩
  | signedHigh =>
    simp only [wide?_mul, wide_eq hsigned, ok_bind, pure_eq_ok,
      shiftRightSigned_eq (show 32 < 64 by decide), setWidth_sshiftRight_ofInt hsigned]
    exact ⟨_, rfl, rfl⟩
  | unsignedHigh =>
    simp only [unsignedWide?_mul, unsignedWide_eq hunsigned, ok_bind, pure_eq_ok,
      shiftRight_eq (show 32 < 64 by decide), setWidth_ushiftRight_ofNat hunsigned]
    exact ⟨_, rfl, rfl⟩

/-! ## Families of instructions -/

section

variable {d n k r : Register} {v : Word} (services : Registry) (m : Machine)

theorem andThen_eq {e : Execution} {o : Outcome TrapCause} {next : Machine → Execution}
    {next' : Machine → Outcome TrapCause} (he : e = .ok o) (hnext : ∀ m, next m = .ok (next' m)) :
    andThen e next = .ok (o.andThen next') := by
  subst he
  cases o with
  | done m => exact hnext m
  | trapped | fault => rfl

theorem mapCpu_eq {f : Processor → Except Hazard Processor} {f' : Processor → Processor}
    (h : f m.cpu = .ok (f' m.cpu)) : mapCpu f m = .ok (.done (m.mapCpu f')) := by
  unfold mapCpu
  rw [h]
  rfl

theorem write_eq (hd : Operand.register ops 0 = .ok d) (v : Word) (m : Machine) :
    write ops v m = .ok (.done (m.mapCpu (·.setX d v))) := by
  unfold write
  rw [index_eq hd, ok_bind]
  exact mapCpu_eq m (setX_eq m.cpu d v)

theorem sum_eq (hd : Operand.register ops 0 = .ok d) (op : SumOp) (source : Source) :
    sum op ops (m.cpu.x n) (source.value m.cpu) m =
      .ok ((Instruction.sum op d n source).run services m) := by
  unfold sum Instruction.run
  dsimp only
  split
  · rfl
  · exact write_eq hd _ m

theorem sumFlags_eq (hd : Operand.register ops 0 = .ok d) {b : BitVec 64} {addend : Addend}
    (hb : b.toInt = addend.value m.cpu) :
    sumFlags ops ((m.cpu.x n).signExtend 64) b m =
      .ok ((Instruction.sumFlags d n addend).run services m) := by
  have ha : ((m.cpu.x n).signExtend 64).toInt = (m.cpu.x n).toInt :=
    BitVec.toInt_signExtend_of_le (by decide)
  have hn : -2 ^ 32 ≤ (m.cpu.x n).toInt ∧ (m.cpu.x n).toInt ≤ 2 ^ 32 :=
    (Addend.register n).value_bounds m.cpu
  have haddend := addend.value_bounds m.cpu
  obtain ⟨sum, hsum, hchecked⟩ := addWithFlags_eq (a := (m.cpu.x n).signExtend 64) (b := b)
    (by omega)
  rw [ha, hb] at hsum
  unfold sumFlags Instruction.run
  dsimp only
  rw [hchecked, ok_bind, hsum]
  exact write_eq hd _ _

theorem product_write_eq (hd : Operand.register ops 0 = .ok d) (part : ProductPart) :
    (product part (m.cpu.x n) (m.cpu.x k) >>= fun v => write ops v m) =
      .ok ((Instruction.product part d n k).run services m) := by
  obtain ⟨v, hv, hchecked⟩ := product_eq part (m.cpu.x n) (m.cpu.x k)
  unfold Instruction.run
  dsimp only
  rw [hchecked, ok_bind, hv]
  exact write_eq hd v m

theorem quotient_eq (hd : Operand.register ops 0 = .ok d) (isSigned : Bool) :
    quotient isSigned ops (m.cpu.x n) (m.cpu.x k) m =
      .ok ((Instruction.quotient isSigned d n k).run services m) := by
  unfold quotient Instruction.run quotient?
  dsimp only
  by_cases hzero : m.cpu.x k = 0
  · rw [if_pos hzero, if_pos hzero]
    rfl
  · rw [if_neg hzero, if_neg hzero, divide_eq hzero, ok_bind]
    exact write_eq hd _ m

theorem logic_eq (hd : Operand.register ops 0 = .ok d) (setsFlags : Bool) (v : Word) :
    logic setsFlags ops v m = .ok (.done (m.mapCpu fun p =>
      if setsFlags then (p.setX d v).setLogicFlags v else p.setX d v)) := by
  unfold logic
  rw [index_eq hd, ok_bind]
  refine mapCpu_eq m ?_
  rw [setX_eq]
  cases setsFlags <;> rfl

theorem shift_eq (hd : Operand.register ops 0 = .ok d) (direction : ShiftDirection) (v : Word) :
    shift direction ops (m.cpu.x n) v m =
      .ok ((Instruction.shift direction d n (Operand.amount v)).run services m) := by
  have hamount : v.toNat % 32 < 32 := Nat.mod_lt _ (by decide)
  unfold shift
  cases direction with
  | left =>
    dsimp only
    rw [shiftLeft_eq hamount, ok_bind]
    exact write_eq hd _ m
  | right =>
    dsimp only
    rw [shiftRight_eq hamount, ok_bind]
    exact write_eq hd _ m

/-! ### Transfers -/

theorem region_eq (hv : Operand.word ops 0 = .ok v) (p : Processor) :
    region ops p = .ok (regionTarget p.pc v) := by
  unfold region
  rw [operand_eq hv, ok_bind, shiftLeft_eq (by decide)]
  rfl

theorem fromHere_eq {width : Nat} (hpos : 0 < width) (hle : width ≤ 32)
    (hv : Operand.word ops position = .ok v) (p : Processor) :
    fromHere width ops position p = .ok (relativeTarget p.pc (signExtendLow width v)) := by
  unfold fromHere
  rw [operand_eq hv, ok_bind, signExtend_eq hpos hle]
  rfl

theorem fromNext_eq (hv : Operand.word ops 1 = .ok v) (p : Processor) :
    fromNext ops p = .ok (p.pc + signExtendLow 16 v <<< 2) := by
  unfold fromNext
  rw [operand_eq hv, ok_bind, signExtend_eq (by decide) (by decide)]
  rfl

theorem jumpIf_eq (test : Test) {target : Target} {address : Except Hazard Word}
    (haddress : address = .ok (target.address m.cpu)) :
    jumpIf (test.holds m.cpu) address m =
      .ok ((Instruction.transfer test target false).run services m) := by
  subst haddress
  unfold jumpIf Instruction.run Machine.mapCpu Processor.transfer
  dsimp only
  split <;> rfl

theorem call_eq (hv : Operand.word ops 0 = .ok v) :
    call ops m = .ok ((Instruction.transfer .always (.region v) true).run services m) := by
  have hjump (m : Machine) : jumpIf true (region ops m.cpu) m =
      .ok (.done (m.mapCpu (·.jump (regionTarget m.cpu.pc v)))) := by
    rw [region_eq hv]
    rfl
  let skip := if m.cpu.config.delayedBranching then instructionLength else 0
  have hlink : mapCpu (setX linkRegister (m.cpu.pc + skip)) m =
      .ok (.done (m.mapCpu (·.linkReturn linkRegister))) :=
    mapCpu_eq m (setX_eq m.cpu linkRegister _)
  unfold call
  dsimp only
  rw [andThen_eq hlink hjump]
  rfl

/-! ### Loads and stores -/

theorem address_eq (hn : Operand.register ops 1 = .ok n) (hv : Operand.word ops 2 = .ok v)
    (p : Processor) : address ops p = .ok (p.effective n (signExtendLow 16 v)) := by
  unfold address
  rw [xAt_eq hn, ok_bind, operand_eq hv, ok_bind, signExtend_eq (by decide) (by decide)]
  rfl

theorem load_eq {take : Word → Processor → Except Hazard Processor}
    {take' : Word → Processor → Processor} (htake : ∀ v p, take v p = .ok (take' v p))
    (width : Width) (address : Word) (m : Machine) :
    load width address take m = .ok (m.load width address take') := by
  unfold load Machine.load
  cases m.memory.load width.bytes address with
  | error e => rfl
  | ok v => exact mapCpu_eq m (htake v m.cpu)

theorem loadTo_eq {take : Nat → Word → Processor → Except Hazard Processor}
    {take' : Register → Word → Processor → Processor}
    (htake : ∀ (r : Register) v p, take r v p = .ok (take' r v p))
    (hd : Operand.register ops 0 = .ok d) (hn : Operand.register ops 1 = .ok n)
    (hv : Operand.word ops 2 = .ok v) (width : Width) :
    loadTo take width ops m =
      .ok (m.load width (m.cpu.effective n (signExtendLow 16 v)) (take' d)) := by
  unfold loadTo
  rw [address_eq hn hv, ok_bind, index_eq hd, ok_bind]
  exact load_eq (fun v p => htake d v p) width _ m

theorem store_eq (hn : Operand.register ops 1 = .ok n) (hv : Operand.word ops 2 = .ok v)
    (width : Width) (w : Word) :
    store width ops w m = .ok (m.store width (m.cpu.effective n (signExtendLow 16 v)) w) := by
  unfold store
  rw [address_eq hn hv]
  rfl

theorem storeExclusive_eq (hd : Operand.register ops 0 = .ok d)
    (hn : Operand.register ops 1 = .ok n) (hk : Operand.register ops 2 = .ok k) :
    storeExclusive ops m = .ok ((Instruction.storeExclusive d n k).run services m) := by
  unfold storeExclusive
  rw [index_eq hn, ok_bind, xAt_eq hk, ok_bind, xAt_eq hd, ok_bind, pure_eq_ok]
  exact andThen_eq rfl fun m => mapCpu_eq m (setX_eq m.cpu n 0)

theorem moveWide_eq {lane : Word} (hd : Operand.register ops 0 = .ok d)
    (hv : Operand.word ops 1 = .ok v) (hlane : Operand.word ops 2 = .ok lane) (keep : Bool) :
    moveWide keep ops m =
      .ok ((Instruction.moveWide keep d (lowHalf v) lane).run services m) := by
  have hamount := toNat_and_one_mul lane
  have hlt : (lane &&& 1).toNat * 16 < 32 := by
    rw [hamount]
    split <;> decide
  unfold moveWide Instruction.run
  rw [operand_eq hv, ok_bind, operand_eq hlane, ok_bind]
  dsimp only
  split
  · rw [shiftLeft_eq hlt, ok_bind, hamount]
    cases keep with
    | false => exact write_eq hd _ m
    | true =>
      rw [xAt_eq hd, ok_bind, ← hamount, shiftLeft_eq hlt, ok_bind, hamount]
      exact write_eq hd _ m
  · rfl

/-! ### Floating-point instructions -/

theorem withPairs_eq {rest : List Nat} {use : Execution} {use' : RegisterPair → Outcome TrapCause}
    (huse : ∀ pair : RegisterPair, pair.lower = r → withPairs rest m use = .ok (use' pair)) :
    withPairs (r.val :: rest) m use = .ok (m.withPair r use') := by
  -- one refusal is like another, so it does not matter which odd register is seen first
  by_cases heven : r.val % 2 = 0
  · obtain ⟨pair, hpair, hwith⟩ := Machine.withPair_of_even (m := m) heven use'
    rw [hwith, ← huse pair hpair]
    unfold withPairs
    rw [List.any_cons, heven]
    rfl
  · have hodd : (r.val % 2 != 0) = true := bne_iff_ne.2 heven
    rw [Machine.withPair_of_odd heven]
    unfold withPairs
    rw [List.any_cons, hodd]
    rfl

theorem withPairs_nil (use : Execution) : withPairs [] m use = use := rfl

/-- The second half of a double is a register that exists. -/
theorem double_eq (p : Processor) (pair : RegisterPair) :
    double p pair.lower = .ok (p.double pair) := by
  unfold double Processor.double
  rw [show pair.lower.val + 1 = pair.upper.val from rfl, s_eq, ok_bind, s_eq, ok_bind,
    shiftLeft_eq (by decide), ok_bind, pure_eq_ok, shiftLeft_or_eq_append]

theorem setDouble_eq (pattern : Nat) (pair : RegisterPair) (p : Processor) :
    setDouble pair.lower (BitVec.ofNat 64 (Ieee.canonical .double pattern)) p =
      .ok (p.setDouble pair pattern) := by
  unfold setDouble Processor.setDouble
  rw [show pair.lower.val + 1 = pair.upper.val from rfl, shiftRight_eq (by decide), ok_bind,
    setS_eq, ok_bind, setS_eq, BitVec.setWidth_ushiftRight_eq_extractLsb]
  rfl

theorem floatOp_eq (hd : Operand.register ops 0 = .ok d) (hn : Operand.register ops 1 = .ok n)
    (hk : Operand.register ops 2 = .ok k) (op : Ieee.Operation) (precision : Precision) :
    floatOp op precision ops m =
      .ok ((Instruction.floatOp op precision d n k).run services m) := by
  unfold floatOp
  cases precision with
  | single =>
    dsimp only
    rw [sAt_eq hn, ok_bind, sAt_eq hk, ok_bind, index_eq hd, ok_bind]
    exact mapCpu_eq m (setS_eq m.cpu d _)
  | double =>
    dsimp only
    rw [index_eq hd, ok_bind, index_eq hn, ok_bind, index_eq hk, ok_bind]
    refine withPairs_eq m fun d' hd' => withPairs_eq m fun n' hn' => withPairs_eq m fun k' hk' => ?_
    rw [withPairs_nil, ← hn', ← hk', ← hd', double_eq, ok_bind, double_eq, ok_bind]
    exact mapCpu_eq m (setDouble_eq _ d' m.cpu)

theorem floatCompare_eq (hn : Operand.register ops 0 = .ok n)
    (hk : Operand.register ops 1 = .ok k) (precision : Precision) :
    floatCompare precision ops m =
      .ok ((Instruction.floatCompare precision n k).run services m) := by
  unfold floatCompare
  cases precision with
  | single =>
    dsimp only
    rw [sAt_eq hn, ok_bind, sAt_eq hk, ok_bind]
    rfl
  | double =>
    dsimp only
    rw [index_eq hn, ok_bind, index_eq hk, ok_bind]
    refine withPairs_eq m fun n' hn' => withPairs_eq m fun k' hk' => ?_
    rw [withPairs_nil, ← hn', ← hk', double_eq, ok_bind, double_eq, ok_bind]
    rfl

theorem loadPair_eq (hd : Operand.register ops 0 = .ok d) (hn : Operand.register ops 1 = .ok n)
    (hv : Operand.word ops 2 = .ok v) :
    loadPair ops m =
      .ok ((Instruction.floatLoad .double d n (signExtendLow 16 v)).run services m) := by
  unfold loadPair
  rw [index_eq hd, ok_bind]
  refine withPairs_eq m fun pair hpair => ?_
  have hword (r : Register) (address : Word) (m : Machine) :
      load .word address (setS r) m = .ok (m.load .word address (Processor.setS r)) :=
    load_eq (fun v p => setS_eq p r v) .word address m
  rw [withPairs_nil, address_eq hn hv, ok_bind, ← hpair]
  exact andThen_eq (andThen_eq rfl (hword pair.lower _)) (hword pair.upper _)

theorem storePair_eq (hd : Operand.register ops 0 = .ok d) (hn : Operand.register ops 1 = .ok n)
    (hv : Operand.word ops 2 = .ok v) :
    storePair ops m =
      .ok ((Instruction.floatStore .double d n (signExtendLow 16 v)).run services m) := by
  unfold storePair
  rw [index_eq hd, ok_bind]
  refine withPairs_eq m fun pair hpair => ?_
  rw [withPairs_nil, address_eq hn hv, ok_bind, ← hpair, s_eq, ok_bind,
    show pair.lower.val + 1 = pair.upper.val from rfl, s_eq]
  rfl

end

/-! ## Actions -/

open Operand in
/-- An instruction that has its operands is executed without a hazard, and as it should be. -/
theorem execute_eq_ok {action : Action} {i : Instruction}
    (h : Instruction.ofOperands action ops = .ok i) (services : Registry) (m : Machine) :
    execute services action ops m = .ok (i.run services m) := by
  have hword (v : Word) : (v.signExtend 64).toInt = v.toInt :=
    BitVec.toInt_signExtend_of_le (by decide)
  have h16 (v : Word) : signExtend 16 v = .ok (signExtendLow 16 v) :=
    signExtend_eq (by decide) (by decide) v
  cases action with
  | nop =>
    cases h
    rfl
  | svc =>
    cases h
    exact congrArg (· >>= fun v => .ok (services.dispatch v m)) (x_eq m.cpu serviceRegister)
  | add | sub =>
    obtain ⟨d, hd, n, hn, k, hk, rfl⟩ := three_eq_ok.1 h
    simp only [execute, xAt_eq hn, xAt_eq hk, ok_bind]
    exact sum_eq services m hd _ (.register k)
  | addi | subi =>
    obtain ⟨d, hd, n, hn, v, hv, rfl⟩ := twoImmediate_eq_ok.1 h
    simp only [execute, xAt_eq hn, operand_eq hv, h16, ok_bind]
    exact sum_eq services m hd _ (.immediate _)
  | adds =>
    obtain ⟨d, hd, n, hn, k, hk, rfl⟩ := three_eq_ok.1 h
    simp only [execute, xAt_eq hn, xAt_eq hk, ok_bind]
    exact sumFlags_eq services m hd (hword (m.cpu.x k))
  | subs =>
    obtain ⟨d, hd, n, hn, k, hk, rfl⟩ := three_eq_ok.1 h
    have hbounds := (Addend.negated k).value_bounds m.cpu
    have hwide : -2 ^ 63 ≤ -(m.cpu.x k).toInt ∧ -(m.cpu.x k).toInt < 2 ^ 63 :=
      ⟨Int.le_trans (by decide) hbounds.1, Int.lt_of_le_of_lt hbounds.2 (by decide)⟩
    simp only [execute, xAt_eq hn, xAt_eq hk, ok_bind, wide_eq hwide]
    exact sumFlags_eq services m hd (BitVec.toInt_ofInt_eq_self (by decide) hwide.1 hwide.2)
  | addis | subis =>
    obtain ⟨d, hd, n, hn, v, hv, rfl⟩ := twoImmediate_eq_ok.1 h
    simp only [execute, xAt_eq hn, operand_eq hv, h16, ok_bind]
    exact sumFlags_eq services m hd (hword _)
  | mul | smulh | umulh =>
    obtain ⟨d, hd, n, hn, k, hk, rfl⟩ := three_eq_ok.1 h
    simp only [execute, xAt_eq hn, xAt_eq hk, ok_bind]
    exact product_write_eq services m hd _
  | sdiv | udiv =>
    obtain ⟨d, hd, n, hn, k, hk, rfl⟩ := three_eq_ok.1 h
    simp only [execute, xAt_eq hn, xAt_eq hk, ok_bind]
    exact quotient_eq services m hd _
  | and | ands | orr | eor =>
    obtain ⟨d, hd, n, hn, k, hk, rfl⟩ := three_eq_ok.1 h
    simp only [execute, xAt_eq hn, xAt_eq hk, ok_bind]
    exact logic_eq m hd _ _
  | andi | andis | orri | eori =>
    obtain ⟨d, hd, n, hn, v, hv, rfl⟩ := twoImmediate_eq_ok.1 h
    simp only [execute, xAt_eq hn, operand_eq hv, ok_bind]
    exact logic_eq m hd _ _
  | lsl | lsr =>
    obtain ⟨d, hd, n, hn, v, hv, rfl⟩ := twoImmediate_eq_ok.1 h
    simp only [execute, xAt_eq hn, operand_eq hv, ok_bind]
    exact shift_eq services m hd _ v
  | b =>
    obtain ⟨v, hv, rfl⟩ := immediate_eq_ok.1 h
    exact jumpIf_eq services m .always (region_eq hv m.cpu)
  | bRel =>
    obtain ⟨v, hv, rfl⟩ := immediate_eq_ok.1 h
    exact jumpIf_eq services m .always (fromHere_eq (by decide) (by decide) hv m.cpu)
  | bl =>
    obtain ⟨v, hv, rfl⟩ := immediate_eq_ok.1 h
    exact call_eq services m hv
  | br =>
    obtain ⟨n, hn, rfl⟩ := one_eq_ok.1 h
    exact jumpIf_eq services m .always (xAt_eq hn m.cpu)
  | bCond c =>
    obtain ⟨v, hv, rfl⟩ := immediate_eq_ok.1 h
    exact jumpIf_eq services m (.flags c) (region_eq hv m.cpu)
  | cbnz =>
    obtain ⟨n, hn, v, hv, rfl⟩ := oneImmediate_eq_ok.1 h
    simp only [execute, xAt_eq hn, ok_bind]
    exact jumpIf_eq services m (.nonzero n) (fromNext_eq hv m.cpu)
  | cbz =>
    obtain ⟨n, hn, v, hv, rfl⟩ := oneImmediate_eq_ok.1 h
    simp only [execute, xAt_eq hn, ok_bind]
    exact jumpIf_eq services m (.zero n) (fromNext_eq hv m.cpu)
  | cbnzRel =>
    obtain ⟨n, hn, v, hv, rfl⟩ := oneImmediate_eq_ok.1 h
    simp only [execute, xAt_eq hn, ok_bind]
    exact jumpIf_eq services m (.nonzero n)
      (fromHere_eq (by decide) (by decide) hv m.cpu)
  | cbzRel =>
    obtain ⟨n, hn, v, hv, rfl⟩ := oneImmediate_eq_ok.1 h
    simp only [execute, xAt_eq hn, ok_bind]
    exact jumpIf_eq services m (.zero n) (fromHere_eq (by decide) (by decide) hv m.cpu)
  | ldxr | ldur | ldurb | ldurh =>
    obtain ⟨d, hd, n, hn, v, hv, rfl⟩ := twoImmediate_eq_ok.1 h
    exact loadTo_eq m (fun r v p => setX_eq p r v) hd hn hv _
  | ldurs =>
    obtain ⟨d, hd, n, hn, v, hv, rfl⟩ := twoImmediate_eq_ok.1 h
    exact loadTo_eq m (fun r v p => setS_eq p r v) hd hn hv .word
  | stur | sturb | sturh =>
    obtain ⟨d, hd, n, hn, v, hv, rfl⟩ := twoImmediate_eq_ok.1 h
    simp only [execute, xAt_eq hd, ok_bind]
    exact store_eq m hn hv _ _
  | sturs =>
    obtain ⟨d, hd, n, hn, v, hv, rfl⟩ := twoImmediate_eq_ok.1 h
    simp only [execute, sAt_eq hd, ok_bind]
    exact store_eq m hn hv .word _
  | stxr =>
    obtain ⟨d, hd, n, hn, k, hk, rfl⟩ := three_eq_ok.1 h
    exact storeExclusive_eq services m hd hn hk
  | lda =>
    obtain ⟨d, hd, v, hv, rfl⟩ := oneImmediate_eq_ok.1 h
    simp only [execute, operand_eq hv, ok_bind]
    exact write_eq hd v m
  | movz | movk =>
    obtain ⟨d, hd, v, hv, lane, hlane, rfl⟩ := oneImmediates_eq_ok.1 h
    exact moveWide_eq services m hd hv hlane _
  | fadds | fsubs | fmuls | fdivs | faddd | fsubd | fmuld | fdivd =>
    obtain ⟨d, hd, n, hn, k, hk, rfl⟩ := three_eq_ok.1 h
    simp only [execute]
    exact floatOp_eq services m hd hn hk _ _
  | fcmps | fcmpd =>
    obtain ⟨n, hn, k, hk, rfl⟩ := two_eq_ok.1 h
    simp only [execute]
    exact floatCompare_eq services m hn hk _
  | ldurd =>
    obtain ⟨d, hd, n, hn, v, hv, rfl⟩ := twoImmediate_eq_ok.1 h
    exact loadPair_eq services m hd hn hv
  | sturd =>
    obtain ⟨d, hd, n, hn, v, hv, rfl⟩ := twoImmediate_eq_ok.1 h
    exact storePair_eq services m hd hn hv

end Checked

end LegMachine
