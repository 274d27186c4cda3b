import LegMachine.Proofs.Exec.Operands
import LegMachine.Proofs.Exec.Safety
import LegMachine.Proofs.Exec.Sums
import Mathlib.Data.List.Induction

/-!
# Registers built from halfwords

A wide move writes the halfword that the last bit of its lane selects, and keeps or clears the other
one (`getLsbD_movedWide`); a lane beyond the third traps. What one move makes of a halfword
(`WideMove.halfword_execute`) gives by induction what a sequence makes of it: the last move that
decides a halfword determines it (`WideMove.halfword_runAll`). So two moves make any word
(`wideMoves_determine`).
-/

namespace LegMachine

/-! ## Halfwords -/

/-- The low or the high half of a word. -/
def halfword (h : Fin 2) (w : Word) : BitVec 16 :=
  w.extractLsb' (16 * h) 16

theorem getLsbD_halfword (h : Fin 2) (w : Word) {i : Nat} (hi : i < 16) :
    (halfword h w).getLsbD i = w.getLsbD (16 * h + i) := by
  rw [halfword, BitVec.getLsbD_extractLsb', decide_eq_true hi, Bool.true_and]

theorem eq_of_halfword_eq {v w : Word} (h : ∀ half, halfword half v = halfword half w) :
    v = w := by
  apply BitVec.eq_of_getLsbD_eq
  intro j hj
  have hhalf : j / 16 < 2 := by omega
  have hplace : j % 16 < 16 := by omega
  have hsplit : 16 * (j / 16) + j % 16 = j := by omega
  have hbit := congrArg (·.getLsbD (j % 16)) (h ⟨j / 16, hhalf⟩)
  simp only [getLsbD_halfword _ _ hplace, hsplit] at hbit
  exact hbit

def laneHalf (lane : Word) : Fin 2 :=
  ⟨lane.toNat % 2, Nat.mod_lt _ (by decide)⟩

/-- The amount that moves a halfword to its place. -/
theorem amount_eq (lane : Word) :
    (if lane.getLsbD 0 then 16 else 0) = 16 * (laneHalf lane).val := by
  rw [← toNat_and_one_mul, BitVec.toNat_and, Nat.mul_comm]
  exact congrArg (16 * ·) (Nat.and_one_is_mod _)

theorem getLsbD_lowHalf_shiftLeft (h : Fin 2) (v : Word) {j : Nat} (hj : j < 32) :
    (lowHalf v <<< (16 * h.val)).getLsbD j = (decide (j / 16 = h) && v.getLsbD (j % 16)) := by
  rw [lowHalf_eq_zeroExtendLow, BitVec.getLsbD_shiftLeft, getLsbD_zeroExtendLow, decide_eq_true hj,
    Bool.true_and]
  by_cases hplace : j / 16 = h
  · have hin : ¬ j < 16 * h.val ∧ j - 16 * h.val = j % 16 ∧ j % 16 < 16 := by omega
    simp [hplace, hin]
  · have hout : j < 16 * h.val ∨ ¬ j - 16 * h.val < 16 := by omega
    rcases hout with hout | hout <;> simp [hplace, hout]

/-- A bit behind a wide move comes from the immediate in the halfword that is written. -/
theorem getLsbD_movedWide (keep : Bool) (d : Register) (v lane : Word) (p : Processor) {j : Nat}
    (hj : j < 32) : (p.movedWide keep d (lowHalf v) lane).getLsbD j =
      if j / 16 = laneHalf lane then v.getLsbD (j % 16) else keep && (p.x d).getLsbD j := by
  have hmask : (0xFFFF : Word) = lowHalf (BitVec.allOnes 32) := by decide
  have hones : (BitVec.allOnes 32).getLsbD (j % 16) = true := by
    rw [BitVec.getLsbD_allOnes, decide_eq_true_iff]
    omega
  unfold Processor.movedWide
  dsimp only
  rw [amount_eq]
  cases keep with
  | false =>
    rw [if_neg Bool.false_ne_true, getLsbD_lowHalf_shiftLeft _ _ hj, Bool.false_and]
    split <;> simp [*]
  | true =>
    rw [if_pos rfl, BitVec.getLsbD_or, BitVec.getLsbD_and, BitVec.getLsbD_not, hmask,
      getLsbD_lowHalf_shiftLeft _ _ hj, getLsbD_lowHalf_shiftLeft _ _ hj, hones]
    split <;> simp [*]

theorem halfword_movedWide (keep : Bool) (d : Register) (v lane : Word) (p : Processor)
    (h : Fin 2) : halfword h (p.movedWide keep d (lowHalf v) lane) =
      if laneHalf lane = h then v.setWidth 16
      else if keep then halfword h (p.x d) else 0 := by
  apply BitVec.eq_of_getLsbD_eq
  intro i hi
  have hj : 16 * h.val + i < 32 := by omega
  have hhalf : (16 * h.val + i) / 16 = h := by omega
  have hplace : (16 * h.val + i) % 16 = i := by omega
  rw [getLsbD_halfword _ _ hi, getLsbD_movedWide _ _ _ _ _ hj, hhalf, hplace]
  by_cases hsame : laneHalf lane = h
  · rw [if_pos (congrArg Fin.val hsame.symm), if_pos hsame, BitVec.getLsbD_setWidth,
      decide_eq_true hi, Bool.true_and]
  · rw [if_neg fun hval => hsame (Fin.ext hval.symm), if_neg hsame]
    cases keep with
    | false => simp
    | true => rw [if_pos rfl, getLsbD_halfword _ _ hi, Bool.true_and]

/-! ## Wide moves -/

/-- A wide move in one of its spellings, with an immediate and a lane. -/
structure WideMove where
  form : Descriptor
  listed : form ∈ catalog
  mnemonic : form.mnemonic = "MOVZ".toList ∨ form.mnemonic = "MOVK".toList
  value : Word
  lane : Word

theorem catalog_wideMoves : ∀ d ∈ catalog,
    (d.mnemonic = "MOVZ".toList → d.action = .movz) ∧
      (d.mnemonic = "MOVK".toList → d.action = .movk) := by
  decide +kernel

namespace WideMove

/-- The move leaves the halfword that it does not write. -/
def keeps (move : WideMove) : Bool :=
  move.form.mnemonic == "MOVK".toList

def InRange (move : WideMove) : Prop :=
  0 ≤ move.lane.toInt ∧ move.lane.toInt ≤ 3

instance (move : WideMove) : Decidable move.InRange :=
  inferInstanceAs (Decidable (_ ∧ _))

def half (move : WideMove) : Fin 2 :=
  laneHalf move.lane

/-- What a halfword is behind the move does not depend on what it was. -/
def Decides (h : Fin 2) (move : WideMove) : Prop :=
  move.InRange ∧ (move.half = h ∨ move.keeps = false)

instance (h : Fin 2) (move : WideMove) : Decidable (move.Decides h) :=
  inferInstanceAs (Decidable (_ ∧ _))

def execute (services : Registry) (d : Register) (move : WideMove) (m : Machine) :
    Outcome TrapCause :=
  LegMachine.execute services move.form.action [BitVec.ofNat 32 d, move.value, move.lane] m

/-- Execute the moves one after the other; what traps is skipped. -/
def runAll (services : Registry) (d : Register) (moves : List WideMove) (m : Machine) : Machine :=
  moves.foldl (fun m move => (move.execute services d m).machine) m

theorem action_eq (move : WideMove) :
    move.form.action = if move.keeps then .movk else .movz := by
  obtain ⟨hclears, hkeeps⟩ := catalog_wideMoves _ move.listed
  rcases move.mnemonic with hname | hname
  · have hnot : move.keeps = false := by
      rw [keeps, hname]
      decide
    rw [hnot, hclears hname]
    rfl
  · have hyes : move.keeps = true := by
      rw [keeps, hname]
      decide
    rw [hyes, hkeeps hname]
    rfl

theorem lane_lt_iff (move : WideMove) : move.lane < 4 ↔ move.InRange := by
  have hlane := move.lane.isLt
  have hfour : (4 : Word).toNat = 4 := rfl
  rw [InRange, BitVec.lt_def, BitVec.toInt_eq_toNat_cond, hfour]
  split <;> omega

section

variable (services : Registry) (d : Register) (move : WideMove) (m : Machine)

theorem execute_eq : move.execute services d m =
    if move.InRange then .done (m.mapCpu fun p =>
      p.setX d (p.movedWide move.keeps d (lowHalf move.value) move.lane))
    else .trapped (.invalidOperand .laneOutOfRange) m := by
  have hd : Operand.register [BitVec.ofNat 32 d, move.value, move.lane] 0 = .ok d := by
    have hnumber : (BitVec.ofNat 32 d.val).toNat = d.val := by
      rw [BitVec.toNat_ofNat]
      omega
    have hlt : (BitVec.ofNat 32 d.val).toNat < 32 := hnumber.trans_lt d.isLt
    rw [Operand.register_of_lt rfl hlt]
    exact congrArg Except.ok (Fin.ext hnumber)
  have hi : Instruction.ofOperands move.form.action [BitVec.ofNat 32 d, move.value, move.lane] =
      .ok (.moveWide move.keeps d (lowHalf move.value) move.lane) := by
    rw [action_eq]
    cases move.keeps with
    | false => exact Operand.oneImmediates_eq_ok.2 ⟨d, hd, _, rfl, _, rfl, rfl⟩
    | true => exact Operand.oneImmediates_eq_ok.2 ⟨d, hd, _, rfl, _, rfl, rfl⟩
  rw [execute, execute_of_operands hi, Instruction.run]
  exact if_congr move.lane_lt_iff rfl rfl

variable {d} (hd : d ≠ zeroRegister) (h : Fin 2)
include hd

/-- What a move makes of a halfword. -/
theorem halfword_execute : halfword h ((move.execute services d m).machine.cpu.x d) =
    if move.Decides h then (if move.half = h then move.value.setWidth 16 else 0)
    else halfword h (m.cpu.x d) := by
  rw [execute_eq]
  by_cases hrange : move.InRange
  · rw [if_pos hrange]
    show halfword h ((m.cpu.setX d _).x d) = _
    rw [Processor.x_setX, if_pos ⟨rfl, hd⟩, halfword_movedWide, ← half]
    have hdecides : move.Decides h ↔ move.half = h ∨ move.keeps = false := and_iff_right hrange
    by_cases hhalf : move.half = h
    · rw [if_pos (hdecides.2 (.inl hhalf)), if_pos hhalf, if_pos hhalf]
    · rw [if_neg hhalf, if_neg hhalf]
      cases hkeeps : move.keeps with
      | false => rw [if_pos (hdecides.2 (.inr hkeeps)), if_neg Bool.false_ne_true]
      | true => rw [if_neg fun hd => (hdecides.1 hd).elim hhalf (by simp [hkeeps]), if_pos rfl]
  · rw [if_neg hrange, if_neg fun hdecides => hrange hdecides.1]
    rfl

/-- The last move that decides a halfword determines it. -/
theorem halfword_runAll (moves : List WideMove) :
    halfword h ((runAll services d moves m).cpu.x d) =
      match (moves.filter (·.Decides h)).getLast? with
      | none => halfword h (m.cpu.x d)
      | some move => if move.half = h then move.value.setWidth 16 else 0 := by
  -- from the front all later moves would have to be looked at, so the last one is split off
  induction moves using List.reverseRecOn with
  | nil => rfl
  | append_singleton moves move ih =>
    have hlast : runAll services d (moves ++ [move]) m =
        (move.execute services d (runAll services d moves m)).machine := by
      rw [runAll, List.foldl_append]
      rfl
    rw [hlast, halfword_execute services move _ hd, List.filter_append]
    by_cases hdecides : move.Decides h
    · simp [hdecides]
    · simp [hdecides, ih]

/-- Two moves that write different halfwords make any word of them, if the first clears. -/
theorem x_runAll_pair {first second : WideMove} {v : Word} (hfirst : first.InRange)
    (hsecond : second.InRange) (hclears : first.keeps = false) (hkeeps : second.keeps = true)
    (hne : first.half ≠ second.half) (hv : first.value.setWidth 16 = halfword first.half v)
    (hv' : second.value.setWidth 16 = halfword second.half v) :
    (runAll services d [first, second] m).cpu.x d = v := by
  apply eq_of_halfword_eq
  intro h
  have hdecides : first.Decides h := ⟨hfirst, .inr hclears⟩
  rw [halfword_runAll services m hd]
  by_cases hhalf : second.half = h
  · have hdecides' : second.Decides h := ⟨hsecond, .inl hhalf⟩
    subst hhalf
    simp [hdecides, hdecides', hv']
  · have hnot : ¬ second.Decides h := fun hdecides' =>
      hdecides'.2.elim hhalf (by simp [hkeeps])
    have hfirst : first.half = h := by omega
    subst hfirst
    simp [hdecides, hnot, hv]

end

end WideMove

/-- A wide move with a lane beyond the third traps and changes nothing, and any other is done.
Behind a sequence of them each halfword is what the last one makes of it that decides it, so a word
is made by clearing and keeping moves of its two halves. -/
theorem wideMoves_determine (services : Registry) {d : Register} (hd : d ≠ zeroRegister) :
    (∀ (move : WideMove) (m : Machine), if move.InRange
      then ∃ after, move.execute services d m = .done after
      else move.execute services d m = .trapped (.invalidOperand .laneOutOfRange) m) ∧
    (∀ (moves : List WideMove) (m : Machine) (h : Fin 2),
      halfword h ((WideMove.runAll services d moves m).cpu.x d) =
        match (moves.filter (·.Decides h)).getLast? with
        | none => halfword h (m.cpu.x d)
        | some move => if move.half = h then move.value.setWidth 16 else 0) ∧
    ∀ (first second : WideMove) (m : Machine) (v : Word), first.InRange → second.InRange →
      first.keeps = false → second.keeps = true → first.half ≠ second.half →
      first.value.setWidth 16 = halfword first.half v →
      second.value.setWidth 16 = halfword second.half v →
      (WideMove.runAll services d [first, second] m).cpu.x d = v := by
  refine ⟨fun move m => ?_, fun moves m h => WideMove.halfword_runAll services m hd h moves,
    fun first second m v => WideMove.x_runAll_pair services m hd⟩
  rw [WideMove.execute_eq]
  split
  · exact ⟨_, rfl⟩
  · rfl

/-- The high halfword first, the low one last, and a lane between them that traps. -/
theorem wideMoves_determine_highFirst :
    let m : Machine := ⟨(Processor.initial ⟨false⟩).setX 1 (-1), ⟨⟨#[]⟩, 0⟩, ""⟩
    let high : WideMove := ⟨Catalog.memory[5], by decide +kernel, by decide, 0x1234, 3⟩
    let beyond : WideMove := ⟨Catalog.memory[8], by decide +kernel, by decide, 0x1111, 4⟩
    let low : WideMove := ⟨Catalog.memory[6], by decide +kernel, by decide, -0x4111, 0⟩
    (1 : Register) ≠ zeroRegister ∧
      beyond.execute .empty 1 m = .trapped (.invalidOperand .laneOutOfRange) m ∧
      halfword 1 ((WideMove.runAll .empty 1 [high, beyond, low] m).cpu.x 1) = 0x1234 ∧
      (WideMove.runAll .empty 1 [high, low] m).cpu.x 1 = 0x1234BEEF := by
  intro m high beyond low
  have hd : (1 : Register) ≠ zeroRegister := by decide
  obtain ⟨htraps, hhalves, hpair⟩ := wideMoves_determine .empty hd
  refine ⟨hd, ?_, ?_, ?_⟩
  · have hbeyond := htraps beyond m
    rwa [if_neg (by decide)] at hbeyond
  · rw [hhalves]
    decide +kernel
  · exact hpair high low m _ (by decide) (by decide) (by decide) (by decide) (by decide)
      (by decide) (by decide)

end LegMachine
