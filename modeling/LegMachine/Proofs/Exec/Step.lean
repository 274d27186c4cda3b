import LegMachine.Exec.Step
import Mathlib.Logic.Function.Iterate

/-!
# What a step is made of

A step whose word is fetched and decoded is the execution of the decoded action behind the advanced
program counter, after which the delay slot settles; a trap is reported with the address and the
text of the instruction (`step_eq`), which has one if its sample can be read
(`Decoded.report_of_isReadable`). Any other step traps and changes nothing (`reads_or_trapped`).
What every step keeps is kept by a run (`run_induction`).
-/

namespace LegMachine

namespace Outcome

variable {ε ε' ε'' : Type}

def mapCause (f : ε → ε') : Outcome ε → Outcome ε'
  | done m => done m
  | trapped cause m => trapped (f cause) m
  | fault cause m => fault cause m

theorem mapCause_mapCause (f : ε → ε') (g : ε' → ε'') (o : Outcome ε) :
    (o.mapCause f).mapCause g = o.mapCause (g ∘ f) := by
  cases o <;> rfl

@[simp] theorem mapCause_id (o : Outcome ε) : o.mapCause id = o := by
  cases o <;> rfl

theorem mapCause_eq_done {f : ε → ε'} {o : Outcome ε} {after : Machine} :
    o.mapCause f = .done after ↔ o = .done after := by
  cases o <;> simp [mapCause]

@[simp] theorem machine_mapCause (f : ε → ε') (o : Outcome ε) :
    (o.mapCause f).machine = o.machine := by
  cases o <;> rfl

end Outcome

namespace Decoded

variable {d : Decoded} {pc : Word} {cause : TrapCause} {m : Machine}

theorem trap_of_isReadable (h : d.descriptor.isReadable = true) (pc : Word) (cause : TrapCause)
    (m : Machine) : d.trap pc cause m = .trapped ⟨pc, d.text pc, cause⟩ m := by
  rw [trap, print_of_isReadable h]

theorem trap_of_not_isReadable (h : d.descriptor.isReadable = false) (pc : Word)
    (cause : TrapCause) (m : Machine) : d.trap pc cause m = .fault .dividedCharacter m := by
  simp only [trap, print, h, Bool.false_eq_true, if_false]

theorem trap_eq_trapped {trap : Trap} {after : Machine} :
    d.trap pc cause m = .trapped trap after ↔
      d.descriptor.isReadable = true ∧ ⟨pc, d.text pc, cause⟩ = trap ∧ m = after := by
  cases h : d.descriptor.isReadable with
  | true => simp [trap_of_isReadable h]
  | false => simp [trap_of_not_isReadable h]

theorem trap_ne_done {after : Machine} : d.trap pc cause m ≠ .done after := by
  unfold trap
  cases d.print pc <;> nofun

@[simp] theorem machine_trap : (d.trap pc cause m).machine = m := by
  unfold trap
  cases d.print pc <;> rfl

/-- Tell of a trap with the text of the instruction. -/
def report (d : Decoded) (pc : Word) : Outcome TrapCause → Outcome Trap
  | .done m => .done m
  | .trapped cause m => d.trap pc cause m
  | .fault f m => .fault f m

theorem report_of_isReadable (h : d.descriptor.isReadable = true) (pc : Word)
    (o : Outcome TrapCause) : d.report pc o = o.mapCause (⟨pc, d.text pc, ·⟩) := by
  cases o with
  | trapped cause m => exact trap_of_isReadable h pc cause m
  | done | fault => rfl

@[simp] theorem machine_report (o : Outcome TrapCause) : (d.report pc o).machine = o.machine := by
  cases o with
  | trapped => exact machine_trap
  | done | fault => rfl

end Decoded

/-- The machine on which a fetched instruction is executed. -/
def Machine.advancePc (m : Machine) : Machine :=
  m.mapCpu (·.setPc (m.cpu.pc + instructionLength))

def executeAndSettle (services : Registry) (action : Action) (operands : List Word) (m : Machine) :
    Outcome TrapCause :=
  (execute services action operands m).andThen fun after => .done (after.mapCpu Processor.settle)

section

variable {decode : Word → Option Decoded} {services : Registry} {m : Machine} {w : Word}
  {d : Decoded} (hfetch : m.memory.load 4 m.cpu.pc = .ok w) (hdecode : decode w = some d)
include hfetch hdecode

theorem step_eq :
    step ⟨decode, services⟩ m = d.report m.cpu.pc
      (executeAndSettle services d.descriptor.action d.operands m.advancePc) := by
  unfold step executeAndSettle Machine.advancePc
  simp only [hfetch, hdecode]
  cases execute services d.descriptor.action d.operands
    (m.mapCpu (·.setPc (m.cpu.pc + instructionLength))) <;> rfl

theorem step_mapCause (hreadable : d.descriptor.isReadable = true) :
    (step ⟨decode, services⟩ m).mapCause Trap.cause =
      executeAndSettle services d.descriptor.action d.operands m.advancePc := by
  rw [step_eq hfetch hdecode, Decoded.report_of_isReadable hreadable, Outcome.mapCause_mapCause]
  exact Outcome.mapCause_id _

theorem step_eq_done {after : Machine} :
    step ⟨decode, services⟩ m = .done after ↔ ∃ i executed,
      Instruction.ofOperands d.descriptor.action d.operands = .ok i ∧
        i.run services m.advancePc = .done executed ∧
        executed.mapCpu Processor.settle = after := by
  rw [step_eq hfetch hdecode, executeAndSettle, execute]
  cases Instruction.ofOperands d.descriptor.action d.operands with
  | error f => simp [Outcome.andThen, Decoded.report]
  | ok i =>
    dsimp only
    cases hrun : i.run services m.advancePc with
    | trapped cause after =>
      simp [Outcome.andThen, Decoded.report, Decoded.trap_ne_done, hrun]
    | done | fault => simp [Outcome.andThen, Decoded.report, hrun]

theorem step_eq_trapped {trap : Trap} {after : Machine} :
    step ⟨decode, services⟩ m = .trapped trap after ↔ ∃ i cause,
      Instruction.ofOperands d.descriptor.action d.operands = .ok i ∧
        i.run services m.advancePc = .trapped cause after ∧
        d.descriptor.isReadable = true ∧ ⟨m.cpu.pc, d.text m.cpu.pc, cause⟩ = trap := by
  rw [step_eq hfetch hdecode, executeAndSettle, execute]
  cases Instruction.ofOperands d.descriptor.action d.operands with
  | error f => simp [Outcome.andThen, Decoded.report]
  | ok i =>
    dsimp only
    cases hrun : i.run services m.advancePc with
    | trapped cause stopped =>
      constructor
      · intro h
        obtain ⟨hreadable, htrap, rfl⟩ := Decoded.trap_eq_trapped.1 h
        exact ⟨i, cause, rfl, hrun, hreadable, htrap⟩
      · rintro ⟨i', cause', hi, hrun', hreadable, htrap⟩
        obtain rfl := Except.ok.inj hi
        obtain ⟨rfl, rfl⟩ := Outcome.trapped.inj (hrun.symm.trans hrun')
        exact Decoded.trap_eq_trapped.2 ⟨hreadable, htrap, rfl⟩
    | done | fault => simp [Outcome.andThen, Decoded.report, hrun]

end

/-- The word at the program counter is read as an instruction. -/
def Machine.Reads (env : Environment) (d : Decoded) (m : Machine) : Prop :=
  ∃ w, m.memory.load 4 m.cpu.pc = .ok w ∧ env.decode w = some d

section

variable {env : Environment} {m : Machine}

theorem Machine.Reads.unique {d d' : Decoded} (h : m.Reads env d) (h' : m.Reads env d') :
    d' = d := by
  obtain ⟨w, hfetch, hdecode⟩ := h
  obtain ⟨w', hfetch', hdecode'⟩ := h'
  obtain rfl := Except.ok.inj (hfetch'.symm.trans hfetch)
  exact Option.some.inj (hdecode'.symm.trans hdecode)

theorem reads_or_trapped (env : Environment) (m : Machine) :
    (∃ d, m.Reads env d) ∨ ∃ trap, step env m = .trapped trap m ∧ trap.pc = m.cpu.pc := by
  cases hfetch : m.memory.load 4 m.cpu.pc with
  | error e =>
    refine .inr ⟨⟨m.cpu.pc, "<fetch>", .address e⟩, ?_, rfl⟩
    simp only [step, hfetch]
  | ok w =>
    cases hdecode : env.decode w with
    | none =>
      refine .inr ⟨⟨m.cpu.pc, unknownWord w, .decodeMiss w⟩, ?_, rfl⟩
      simp only [step, hfetch, hdecode]
    | some d => exact .inl ⟨d, w, hfetch, hdecode⟩

theorem step_of_run {d : Decoded} {i : Instruction} {executed : Machine} (hreads : m.Reads env d)
    (hi : Instruction.ofOperands d.descriptor.action d.operands = .ok i)
    (hrun : i.run env.services m.advancePc = .done executed) :
    step env m = .done (executed.mapCpu Processor.settle) := by
  obtain ⟨w, hfetch, hdecode⟩ := hreads
  exact (step_eq_done hfetch hdecode).2 ⟨i, executed, hi, hrun, rfl⟩

theorem step_of_trapped_run {d : Decoded} {i : Instruction} {cause : TrapCause} {after : Machine}
    (hreads : m.Reads env d)
    (hi : Instruction.ofOperands d.descriptor.action d.operands = .ok i)
    (hrun : i.run env.services m.advancePc = .trapped cause after) :
    step env m = d.trap m.cpu.pc cause after := by
  obtain ⟨w, hfetch, hdecode⟩ := hreads
  rw [step_eq hfetch hdecode, executeAndSettle, execute, hi]
  dsimp only
  rw [hrun]
  rfl

theorem exists_reads_of_done {after : Machine} (h : step env m = .done after) :
    ∃ d, m.Reads env d := by
  rcases reads_or_trapped env m with hreads | ⟨trap, htrap, -⟩
  · exact hreads
  · rw [htrap] at h
    cases h

end

/-! ## Runs -/

/-- The machine after `n` steps, however they end. -/
def afterSteps (env : Environment) (n : Nat) (m : Machine) : Machine :=
  (fun m => (step env m).machine)^[n] m

@[simp] theorem afterSteps_zero (env : Environment) (m : Machine) : afterSteps env 0 m = m := rfl

theorem afterSteps_succ (env : Environment) (n : Nat) (m : Machine) :
    afterSteps env (n + 1) m = (step env (afterSteps env n m)).machine :=
  Function.iterate_succ_apply' ..

section

variable {env : Environment} {P : Machine → Prop}
  (hstep : ∀ m, P m → P (step env m).machine)
include hstep

theorem runFrom_induction {m : Machine} (hm : P m) (before limit : Nat) :
    P (runFrom env before limit m).machine := by
  induction limit generalizing before m with
  | zero => exact hm
  | succ limit ih =>
    have hnext := hstep m hm
    unfold runFrom
    split
    · exact hm
    · split
      · next after hdone =>
        rw [hdone] at hnext
        exact ih hnext (before + 1)
      · next trap after htrapped =>
        rw [htrapped] at hnext
        exact hnext
      · next f after hfault =>
        rw [hfault] at hnext
        exact hnext

/-- What every step keeps, however it ends, holds after a run. -/
theorem run_induction {m : Machine} (hm : P m) (limit : Nat) : P (run env limit m).machine :=
  runFrom_induction hstep hm 0 limit

end

end LegMachine
