import LegMachine.Proofs.Exec.Frame

/-!
# Instructions and the flow of control

The program counter, the delay slot and the configuration say where a processor goes on. An
instruction that is neither a transfer nor a call of a service does not read them and does not write
them: with other ones it does the same and leaves those (`run_withControl`), and in particular it
leaves them as they are (`run_keeps_control`). Which actions are transfers, and on what test, is
told by `control_of_operands`.
-/

namespace LegMachine

def Processor.withControl (pc : Word) (slot : DelaySlot) (config : Config) (p : Processor) :
    Processor :=
  { p with pc, delay := slot, config }

def Machine.withControl (pc : Word) (slot : DelaySlot) (config : Config) (m : Machine) : Machine :=
  m.mapCpu (·.withControl pc slot config)

theorem Machine.withControl_self (m : Machine) :
    m.withControl m.cpu.pc m.cpu.delay m.cpu.config = m := rfl

theorem Processor.transparent_withControl (pc : Word) (slot : DelaySlot) (config : Config) :
    Transparent (·.withControl pc slot config) where
  x _ _ := rfl
  s _ _ := rfl
  flags _ := rfl
  setX r v p := by
    unfold setX
    split <;> rfl
  setS _ _ _ := rfl
  setFlags _ _ _ _ := rfl

/-! ## Straight instructions -/

namespace Instruction

variable {i : Instruction} (hi : i.isStraight = true) (services : Registry) (m : Machine)
include hi

/-- Where the processor goes on makes no difference to a straight instruction. -/
theorem run_withControl (pc : Word) (slot : DelaySlot) (config : Config) :
    i.run services (m.withControl pc slot config) =
      (i.run services m).mapMachine (Machine.withControl pc slot config) :=
  run_mapCpu (Processor.transparent_withControl pc slot config) hi services m

theorem run_keeps_control :
    (i.run services m).machine.cpu.pc = m.cpu.pc ∧
      (i.run services m).machine.cpu.delay = m.cpu.delay ∧
      (i.run services m).machine.cpu.config = m.cpu.config := by
  have hself := run_withControl hi services m m.cpu.pc m.cpu.delay m.cpu.config
  rw [Machine.withControl_self] at hself
  rw [hself, Outcome.machine_mapMachine]
  exact ⟨rfl, rfl, rfl⟩

end Instruction

/-! ## Instructions made from actions -/

theorem bind_eq_ok {ε α β : Type} {x : Except ε α} {f : α → Except ε β} {b : β} :
    x >>= f = .ok b ↔ ∃ a, x = .ok a ∧ f a = .ok b := by
  cases x <;> simp [bind, Except.bind]

namespace Operand

variable {ops : List Word} {i : Instruction}

@[simp] theorem one_eq_ok {make : Register → Instruction} :
    one ops make = .ok i ↔ ∃ n, register ops 0 = .ok n ∧ make n = i := by
  simp only [one, bind_eq_ok, pure, Except.pure, Except.ok.injEq]

@[simp] theorem two_eq_ok {make : Register → Register → Instruction} :
    two ops make = .ok i ↔ ∃ n, register ops 0 = .ok n ∧ ∃ k, register ops 1 = .ok k ∧
      make n k = i := by
  simp only [two, bind_eq_ok, pure, Except.pure, Except.ok.injEq]

@[simp] theorem three_eq_ok {make : Register → Register → Register → Instruction} :
    three ops make = .ok i ↔ ∃ d, register ops 0 = .ok d ∧ ∃ n, register ops 1 = .ok n ∧
      ∃ k, register ops 2 = .ok k ∧ make d n k = i := by
  simp only [three, bind_eq_ok, pure, Except.pure, Except.ok.injEq]

@[simp] theorem immediate_eq_ok {make : Word → Instruction} :
    immediate ops make = .ok i ↔ ∃ v, word ops 0 = .ok v ∧ make v = i := by
  simp only [immediate, bind_eq_ok, pure, Except.pure, Except.ok.injEq]

@[simp] theorem oneImmediate_eq_ok {make : Register → Word → Instruction} :
    oneImmediate ops make = .ok i ↔ ∃ n, register ops 0 = .ok n ∧ ∃ v, word ops 1 = .ok v ∧
      make n v = i := by
  simp only [oneImmediate, bind_eq_ok, pure, Except.pure, Except.ok.injEq]

@[simp] theorem twoImmediate_eq_ok {make : Register → Register → Word → Instruction} :
    twoImmediate ops make = .ok i ↔ ∃ d, register ops 0 = .ok d ∧ ∃ n, register ops 1 = .ok n ∧
      ∃ v, word ops 2 = .ok v ∧ make d n v = i := by
  simp only [twoImmediate, bind_eq_ok, pure, Except.pure, Except.ok.injEq]

@[simp] theorem oneImmediates_eq_ok {make : Register → Word → Word → Instruction} :
    oneImmediates ops make = .ok i ↔ ∃ d, register ops 0 = .ok d ∧ ∃ v, word ops 1 = .ok v ∧
      ∃ l, word ops 2 = .ok l ∧ make d v l = i := by
  simp only [oneImmediates, bind_eq_ok, pure, Except.pure, Except.ok.injEq]

end Operand

/-- The action is a transfer of control, and the condition that it depends on holds. -/
def Action.Transfers (ops : List Word) (p : Processor) : Action → Prop
  | .b | .bRel | .bl | .br => True
  | .bCond c => c.holds p.flags = true
  | .cbz | .cbzRel => ∃ n, Operand.register ops 0 = .ok n ∧ p.x n = 0
  | .cbnz | .cbnzRel => ∃ n, Operand.register ops 0 = .ok n ∧ p.x n ≠ 0
  | _ => False

/-- How an instruction made from an action goes on. -/
inductive Instruction.Control (action : Action) (ops : List Word) : Instruction → Prop where
  | service : action = .svc → Control action ops .service
  | transfer {test : Test} {target : Target} {link : Bool} :
      (link = true ↔ action = .bl) → (∀ p, test.holds p = true ↔ action.Transfers ops p) →
      Control action ops (.transfer test target link)
  | straight {i : Instruction} : i.isStraight = true → (∀ p, ¬ action.Transfers ops p) →
      Control action ops i

namespace Instruction

open Operand

theorem control_of_operands {action : Action} {ops : List Word} {i : Instruction}
    (h : ofOperands action ops = .ok i) : Control action ops i := by
  cases action with
  | nop =>
    cases h
    exact .straight rfl fun _ => id
  | svc =>
    cases h
    exact .service rfl
  | add | sub | adds | subs | mul | smulh | umulh | sdiv | udiv | and | ands | orr | eor | stxr
  | fadds | fsubs | fmuls | fdivs | faddd | fsubd | fmuld | fdivd =>
    obtain ⟨_, -, _, -, _, -, rfl⟩ := three_eq_ok.1 h
    exact .straight rfl fun _ => id
  | addi | subi | addis | subis | andi | andis | orri | eori | lsl | lsr | ldxr | ldur | ldurb
  | ldurh | stur | sturb | sturh | ldurs | ldurd | sturs | sturd =>
    obtain ⟨_, -, _, -, _, -, rfl⟩ := twoImmediate_eq_ok.1 h
    exact .straight rfl fun _ => id
  | lda =>
    obtain ⟨_, -, _, -, rfl⟩ := oneImmediate_eq_ok.1 h
    exact .straight rfl fun _ => id
  | movz | movk =>
    obtain ⟨_, -, _, -, _, -, rfl⟩ := oneImmediates_eq_ok.1 h
    exact .straight rfl fun _ => id
  | fcmps | fcmpd =>
    obtain ⟨_, -, _, -, rfl⟩ := two_eq_ok.1 h
    exact .straight rfl fun _ => id
  | b | bRel | bl =>
    obtain ⟨_, -, rfl⟩ := immediate_eq_ok.1 h
    exact .transfer (by simp) fun _ => iff_of_true rfl trivial
  | bCond c =>
    obtain ⟨_, -, rfl⟩ := immediate_eq_ok.1 h
    exact .transfer (by simp) fun _ => Iff.rfl
  | br =>
    obtain ⟨_, -, rfl⟩ := one_eq_ok.1 h
    exact .transfer (by simp) fun _ => iff_of_true rfl trivial
  | cbz | cbzRel =>
    obtain ⟨n, hn, _, -, rfl⟩ := oneImmediate_eq_ok.1 h
    exact .transfer (by simp) fun p => by simp [Test.holds, Action.Transfers, hn]
  | cbnz | cbnzRel =>
    obtain ⟨n, hn, _, -, rfl⟩ := oneImmediate_eq_ok.1 h
    exact .transfer (by simp) fun p => by simp [Test.holds, Action.Transfers, hn]

end Instruction

end LegMachine
