import LegMachine.Exec.Script
import LegMachine.Proofs.Exec.Control
import LegMachine.Proofs.Exec.Step
import LegMachine.Proofs.Isa.Decoding
import LegMachine.Proofs.Machine.Processor
import Mathlib.Logic.Function.Iterate

/-!
# Delayed branching

A step with delayed branching is compared with the step of the same machine that branches at once
and has nothing in its delay slot (`Machine.immediate`). What an instruction does besides is the
same; a target that the one goes to waits in the slot of the other (`ShiftedBySlot`,
`exists_shifted`). No step leaves a target behind that is only registered
(`ne_registered_of_step`). Without delayed branching the slot stays empty if services transfer
control by jumps only (`atRest_step`), as scripts do (`Registry.transfersByJumps_of_scripted`).
-/

namespace LegMachine

/-- The machine as it is without delayed branching, with nothing in the delay slot. -/
def Machine.immediate (m : Machine) : Machine :=
  m.withControl m.cpu.pc .empty { m.cpu.config with delayedBranching := false }

/-- How a step with delayed branching from `m` ends, which is `later`, if the step without ends in
`now`. -/
structure ShiftedBySlot (d : Decoded) (m now later : Machine) : Prop where
  memory : later.memory = now.memory
  console : later.console = now.console
  flags : later.cpu.flags = now.cpu.flags
  floats : later.cpu.floats = now.cpu.floats
  halted : later.cpu.halted = now.cpu.halted
  config : later.cpu.config = m.cpu.config
  integers : d.descriptor.action ≠ .bl → later.cpu.integers = now.cpu.integers
  /-- A call leaves a return address that is behind the delay slot. -/
  link : d.descriptor.action = .bl → now.cpu.x linkRegister = m.cpu.pc + 4 ∧
    later.cpu.integers = now.cpu.integers.set linkRegister (m.cpu.pc + 8)
  taken : d.descriptor.action.Transfers d.operands m.cpu →
    later.cpu.pc = m.cpu.pc + 4 ∧ later.cpu.delay = .triggered now.cpu.pc
  untaken : ¬ d.descriptor.action.Transfers d.operands m.cpu → now.cpu.pc = m.cpu.pc + 4 ∧
    match m.cpu.delay with
    | .empty => later.cpu.pc = m.cpu.pc + 4 ∧ later.cpu.delay = .empty
    | .triggered t => later.cpu.pc = t ∧ later.cpu.delay = .empty
    | .registered t => later.cpu.pc = m.cpu.pc + 4 ∧ later.cpu.delay = .triggered t

/-! ## The step of an instruction -/

namespace Processor

theorem settle_eq (p : Processor) :
    p.settle = p.withControl (p.delay.advance.2.getD p.pc) p.delay.advance.1 p.config := by
  unfold settle
  cases p.delay <;> rfl

theorem setX_linkRegister (v : Word) (p : Processor) :
    p.setX linkRegister v = { p with integers := p.integers.set linkRegister v } := rfl

variable {test : Test} {target : Target} {link : Bool} {p : Processor}

theorem transfer_of_not_holds (h : ¬ test.holds p = true) : p.transfer test target link = p := by
  unfold transfer
  rw [if_neg h]

theorem settle_transfer_delayed (hmode : p.config.delayedBranching = true)
    (h : test.holds p = true) :
    (p.transfer test target link).settle =
      (if link then p.setX linkRegister (p.pc + instructionLength) else p).withControl
        p.pc (.triggered (target.address p)) p.config := by
  unfold transfer
  rw [if_pos h]
  cases link with
  | false =>
    simp [jump, hmode, settle, withControl, DelaySlot.register, DelaySlot.advance]
  | true =>
    simp [linkReturn, setX_linkRegister, jump, hmode, settle, withControl, DelaySlot.register,
      DelaySlot.advance]

theorem settle_transfer_immediate (hmode : p.config.delayedBranching = false)
    (hempty : p.delay = .empty) (h : test.holds p = true) :
    (p.transfer test target link).settle =
      (if link then p.setX linkRegister p.pc else p).withControl
        (target.address p) .empty p.config := by
  unfold transfer
  rw [if_pos h]
  cases link with
  | false =>
    simp [jump, hmode, settle, withControl, setPc, hempty, DelaySlot.advance]
  | true =>
    simp [linkReturn, setX_linkRegister, jump, hmode, settle, withControl, setPc, hempty,
      DelaySlot.advance]

end Processor

theorem Test.holds_withControl (test : Test) (p : Processor) (pc : Word) (slot : DelaySlot)
    (config : Config) : test.holds (p.withControl pc slot config) = test.holds p :=
  (Processor.transparent_withControl pc slot config).holds p test

section

variable {d : Decoded} {m : Machine}

/-- An instruction that goes on to the next one. -/
theorem shifted_of_kept {x : Machine} (hpc : x.cpu.pc = m.cpu.pc + instructionLength)
    (hslot : x.cpu.delay = m.cpu.delay) (hconfig : x.cpu.config = m.cpu.config)
    (huntaken : ¬ d.descriptor.action.Transfers d.operands m.cpu) (config : Config) :
    ShiftedBySlot d m (x.withControl (m.cpu.pc + instructionLength) .empty config)
      (x.mapCpu Processor.settle) := by
  have hsettle : x.mapCpu Processor.settle = x.withControl
      (m.cpu.delay.advance.2.getD (m.cpu.pc + instructionLength)) m.cpu.delay.advance.1
      m.cpu.config := by
    rw [← hpc, ← hslot, ← hconfig]
    exact congrArg (fun p => { x with cpu := p }) x.cpu.settle_eq
  rw [hsettle]
  constructor
  case link =>
    intro hbl
    rw [hbl] at huntaken
    exact absurd trivial huntaken
  case taken => exact fun h => absurd h huntaken
  case untaken =>
    refine fun _ => ⟨rfl, ?_⟩
    cases m.cpu.delay <;> exact ⟨rfl, rfl⟩
  case integers => exact fun _ => rfl
  case memory | console | flags | floats | halted | config => rfl

/-- A transfer that takes place: the target waits in the slot, whatever the slot held. -/
theorem shifted_of_taken {test : Test} {target : Target} {link : Bool}
    (hmode : m.cpu.config.delayedBranching = true) (hholds : test.holds m.cpu = true)
    (hlink : link = true ↔ d.descriptor.action = .bl)
    (htaken : d.descriptor.action.Transfers d.operands m.cpu) :
    ShiftedBySlot d m
      (m.immediate.advancePc.mapCpu fun p => (p.transfer test target link).settle)
      (m.advancePc.mapCpu fun p => (p.transfer test target link).settle) := by
  let next := m.cpu.pc + instructionLength
  let config : Config := { m.cpu.config with delayedBranching := false }
  let u := target.address m.advancePc.cpu
  have hlater : (m.advancePc.cpu.transfer test target link).settle =
      (if link then m.advancePc.cpu.setX linkRegister (next + instructionLength)
        else m.advancePc.cpu).withControl next (.triggered u) m.cpu.config :=
    Processor.settle_transfer_delayed (p := m.advancePc.cpu) hmode
      ((test.holds_withControl m.cpu next m.cpu.delay m.cpu.config).trans hholds)
  have hnow : (m.immediate.advancePc.cpu.transfer test target link).settle =
      (if link then m.immediate.advancePc.cpu.setX linkRegister next
        else m.immediate.advancePc.cpu).withControl u .empty config := by
    rw [Processor.settle_transfer_immediate (p := m.immediate.advancePc.cpu) rfl rfl
      ((test.holds_withControl m.cpu next .empty config).trans hholds)]
    rfl
  have hcall : next + instructionLength = m.cpu.pc + 8 := BitVec.add_assoc ..
  unfold Machine.mapCpu
  dsimp only
  rw [hlater, hnow]
  constructor
  case link =>
    intro hbl
    rw [if_pos (hlink.2 hbl), if_pos (hlink.2 hbl), ← hcall]
    refine ⟨Processor.x_setX linkRegister linkRegister next m.immediate.advancePc.cpu, ?_⟩
    exact (Vector.set_set ..).symm
  case integers =>
    intro hbl
    rw [if_neg fun h => hbl (hlink.1 h), if_neg fun h => hbl (hlink.1 h)]
    rfl
  case taken => exact fun _ => ⟨rfl, rfl⟩
  case untaken => exact fun h => absurd htaken h
  case memory | console | flags | floats | halted | config => cases link <;> rfl

end

/-- A step with delayed branching ends as the step without, up to one slot. -/
theorem exists_shifted {env : Environment} {m later : Machine} {d : Decoded}
    (hreads : m.Reads env d) (hsvc : d.descriptor.action ≠ .svc)
    (hmode : m.cpu.config.delayedBranching = true) (hstep : step env m = .done later) :
    ∃ now, step env m.immediate = .done now ∧ ShiftedBySlot d m now later := by
  have hreads' : m.immediate.Reads env d := hreads
  obtain ⟨w, hfetch, hdecode⟩ := hreads
  obtain ⟨i, executed, hi, hrun, rfl⟩ := (step_eq_done hfetch hdecode).1 hstep
  have hadvance : m.immediate.advancePc =
      m.advancePc.withControl (m.cpu.pc + instructionLength) .empty m.immediate.cpu.config := rfl
  cases Instruction.control_of_operands hi with
  | service h => exact absurd h hsvc
  | straight hstraight huntaken =>
    obtain ⟨hpc, hslot, hconfig⟩ :=
      Instruction.run_keeps_control hstraight env.services m.advancePc
    have hother := Instruction.run_withControl hstraight env.services m.advancePc
      (m.cpu.pc + instructionLength) .empty m.immediate.cpu.config
    rw [hrun] at hpc hslot hconfig hother
    rw [← hadvance] at hother
    exact ⟨_, step_of_run hreads' hi hother, shifted_of_kept hpc hslot hconfig (huntaken m.cpu) _⟩
  | @transfer test target link hlink hholds =>
    cases hrun
    by_cases h : test.holds m.cpu = true
    · exact ⟨_, step_of_run hreads' hi rfl, shifted_of_taken hmode h hlink ((hholds m.cpu).1 h)⟩
    · have hkept (x : Machine) (hx : test.holds x.cpu = test.holds m.cpu) :
          x.mapCpu (·.transfer test target link) = x :=
        congrArg (fun p => { x with cpu := p }) (Processor.transfer_of_not_holds (by rwa [hx]))
      have hshifted : ShiftedBySlot d m (m.immediate.advancePc.mapCpu Processor.settle)
          (m.advancePc.mapCpu Processor.settle) :=
        shifted_of_kept (x := m.advancePc) rfl rfl rfl
          (fun htaken => h ((hholds m.cpu).2 htaken)) m.immediate.cpu.config
      refine ⟨_, step_of_run hreads' hi rfl, ?_⟩
      rw [hkept m.immediate.advancePc (Test.holds_withControl ..),
        hkept m.advancePc (Test.holds_withControl ..)]
      exact hshifted

/-! ## The slot after steps -/

/-- What a step registers is due after the next one: nothing is only registered between steps. -/
theorem ne_registered_of_step {env : Environment} {m after : Machine}
    (hstep : step env m = .done after) (target : Word) :
    after.cpu.delay ≠ .registered target := by
  obtain ⟨d, w, hfetch, hdecode⟩ := exists_reads_of_done hstep
  obtain ⟨_, executed, -, -, rfl⟩ := (step_eq_done hfetch hdecode).1 hstep
  show executed.cpu.settle.delay ≠ _
  rw [Processor.settle_eq]
  show executed.cpu.delay.advance.1 ≠ _
  cases executed.cpu.delay <;> exact nofun

/-- Branches are taken at once, and nothing waits in the delay slot. -/
structure Machine.AtRest (m : Machine) : Prop where
  immediate : m.cpu.config.delayedBranching = false
  empty : m.cpu.delay = .empty

/-- How a service may change a machine if it transfers control by jumps only. -/
inductive Machine.ReachesByJumps : Machine → Machine → Prop where
  | keep {m after : Machine} : after.cpu.pc = m.cpu.pc → after.cpu.delay = m.cpu.delay →
      after.cpu.config = m.cpu.config → ReachesByJumps m after
  | jump (m : Machine) (target : Word) : ReachesByJumps m (m.mapCpu (·.jump target))
  | trans {m₁ m₂ m₃ : Machine} : ReachesByJumps m₁ m₂ → ReachesByJumps m₂ m₃ →
      ReachesByJumps m₁ m₃

/-- Every service transfers control by jumps only. -/
def Registry.TransfersByJumps (r : Registry) : Prop :=
  ∀ s ∈ r.services, ∀ m : Machine, m.ReachesByJumps (s.run m).machine

namespace Machine

variable {m after : Machine}

theorem AtRest.of_kept (h : m.AtRest) (hslot : after.cpu.delay = m.cpu.delay)
    (hconfig : after.cpu.config = m.cpu.config) : after.AtRest :=
  ⟨by rw [hconfig, h.immediate], by rw [hslot, h.empty]⟩

theorem AtRest.jump (h : m.AtRest) (target : Word) : (m.mapCpu (·.jump target)).AtRest := by
  unfold mapCpu
  dsimp only
  rw [Processor.jump_of_immediate h.immediate]
  exact h.of_kept rfl rfl

theorem AtRest.of_reaches (h : m.AtRest) (hreaches : m.ReachesByJumps after) : after.AtRest := by
  induction hreaches with
  | keep _ hslot hconfig => exact h.of_kept hslot hconfig
  | jump m target => exact h.jump target
  | trans _ _ ih₁ ih₂ => exact ih₂ (ih₁ h)

theorem AtRest.transfer (h : m.AtRest) (test : Test) (target : Target) (link : Bool) :
    (m.mapCpu (·.transfer test target link)).AtRest := by
  unfold mapCpu Processor.transfer
  dsimp only
  split
  · cases link with
    | false => exact h.jump _
    | true =>
      have hlinked : (m.mapCpu (·.linkReturn linkRegister)).AtRest :=
        h.of_kept (Processor.delay_setX ..) (Processor.config_setX ..)
      exact hlinked.jump _
  · exact h

theorem AtRest.settle (h : m.AtRest) : (m.mapCpu Processor.settle).AtRest :=
  h.of_kept (congrArg Processor.delay (Processor.settle_of_empty h.empty))
    (congrArg Processor.config (Processor.settle_of_empty h.empty))

end Machine

section

variable {services : Registry} (hservices : services.TransfersByJumps)
include hservices

theorem atRest_execute {m : Machine} (h : m.AtRest) (action : Action) (ops : List Word) :
    (execute services action ops m).machine.AtRest := by
  unfold execute
  cases hi : Instruction.ofOperands action ops with
  | error f => exact h
  | ok i =>
    dsimp only
    cases Instruction.control_of_operands hi with
    | service =>
      unfold Instruction.run Registry.dispatch
      dsimp only
      cases hfind : services.find? (m.cpu.x serviceRegister) with
      | none => exact h
      | some s => exact h.of_reaches (hservices s (List.mem_of_find?_eq_some hfind) m)
    | straight hstraight =>
      obtain ⟨-, hslot, hconfig⟩ := Instruction.run_keeps_control hstraight services m
      exact h.of_kept hslot hconfig
    | transfer => exact h.transfer ..

theorem atRest_step {decode : Word → Option Decoded} {m : Machine} (h : m.AtRest) :
    (step ⟨decode, services⟩ m).machine.AtRest := by
  rcases reads_or_trapped ⟨decode, services⟩ m with ⟨d, w, hfetch, hdecode⟩ | ⟨trap, htrap, -⟩
  · have hadvanced : m.advancePc.AtRest := h.of_kept rfl rfl
    have hexecuted := atRest_execute hservices hadvanced d.descriptor.action d.operands
    rw [step_eq hfetch hdecode, Decoded.machine_report, executeAndSettle]
    cases hexec : execute services d.descriptor.action d.operands m.advancePc with
    | done after =>
      rw [hexec] at hexecuted
      exact hexecuted.settle
    | trapped _ _ | fault _ _ =>
      rw [hexec] at hexecuted
      exact hexecuted
  · rw [htrap]
    exact h

theorem atRest_iterate {decode : Word → Option Decoded} {m : Machine} (h : m.AtRest) (n : Nat) :
    ((fun m => (step ⟨decode, services⟩ m).machine)^[n] m).AtRest :=
  Function.Iterate.rec Machine.AtRest h (fun _ hm => atRest_step hservices hm) n

end

/-! ## Scripted services -/

theorem Machine.reachesByJumps_setX (m : Machine) (r : Register) (v : Word) :
    m.ReachesByJumps (m.mapCpu (·.setX r v)) := by
  refine .keep ?_ (Processor.delay_setX r v m.cpu) (Processor.config_setX r v m.cpu)
  show (m.cpu.setX r v).pc = m.cpu.pc
  unfold Processor.setX
  split <;> rfl

theorem Machine.reachesByJumps_store (m : Machine) (width : Width) (address v : Word) :
    m.ReachesByJumps (m.store width address v).machine := by
  unfold store
  split <;> exact .keep rfl rfl rfl

theorem Effect.reachesByJumps_run (m : Machine) (e : Effect) :
    m.ReachesByJumps (e.run m).machine := by
  cases e with
  | jump target => exact .jump m target
  | setX r v => exact m.reachesByJumps_setX r v
  | addX r v => exact m.reachesByJumps_setX r (m.cpu.x r + v)
  | storeWord _ _ | storeByte _ _ => exact m.reachesByJumps_store ..
  | loadWord a d =>
    unfold run Machine.load
    dsimp only
    split
    · exact .keep rfl rfl rfl
    · exact m.reachesByJumps_setX ..
  | halt | overflow | fail _ | printInteger _ | printCharacter _ => exact .keep rfl rfl rfl

theorem Effect.reachesByJumps_runAll (m : Machine) (effects : List Effect) :
    m.ReachesByJumps (Effect.runAll m effects).machine := by
  induction effects generalizing m with
  | nil => exact .keep rfl rfl rfl
  | cons e rest ih =>
    have hfirst := e.reachesByJumps_run m
    unfold runAll
    cases hrun : e.run m with
    | done after =>
      rw [hrun] at hfirst
      exact hfirst.trans (ih after)
    | trapped _ _ | fault _ _ =>
      rw [hrun] at hfirst
      exact hfirst

/-- Services that are given as scripts transfer control by jumps only. -/
theorem Registry.transfersByJumps_of_scripted {r : Registry}
    (h : ∀ s ∈ r.services, ∃ number name effects, s = Service.scripted number name effects) :
    r.TransfersByJumps := by
  intro s hs m
  obtain ⟨_, _, effects, rfl⟩ := h s hs
  exact Effect.reachesByJumps_runAll m effects

/-! ## Delayed branching -/

/-- Delayed branching is branching at once, one slot later. -/
theorem step_delayedBranching (env : Environment) :
    (∀ m d later, m.Reads env d → d.descriptor.action ≠ .svc →
      m.cpu.config.delayedBranching = true → step env m = .done later →
      ∃ now, step env m.immediate = .done now ∧ ShiftedBySlot d m now later) ∧
    (∀ m after, step env m = .done after → ∀ target, after.cpu.delay ≠ .registered target) ∧
    (env.services.TransfersByJumps → ∀ m : Machine, m.AtRest → ∀ n,
      ((fun m => (step env m).machine)^[n] m).cpu.delay = .empty ∧
        (run env n m).machine.cpu.delay = .empty) := by
  refine ⟨?_, ?_, ?_⟩
  · intro m d later hreads hsvc hmode hstep
    exact exists_shifted hreads hsvc hmode hstep
  · intro m after hstep target
    exact ne_registered_of_step hstep target
  · intro hservices m h n
    have hrun : (run env n m).machine.AtRest :=
      run_induction (P := Machine.AtRest) (fun _ hm => atRest_step hservices hm) h n
    exact ⟨(atRest_iterate hservices h n).empty, hrun.empty⟩

theorem decode?_call :
    instructionSet.decode? 0x0C000010 = some ⟨Catalog.control[4], [16], 0x0C000010⟩ := by
  let e : Encoding := ⟨0xFC000000, 0x0C000000, [⟨'i', (List.range 26).reverse⟩]⟩
  have hcompile : Catalog.control[4].template.compile = .ok e := rfl
  exact decode?_of_compile (by simp [catalog]) hcompile (by decide) fun _ => by decide

/-- A call behind another branch: the older target is dropped. -/
theorem step_delayedBranching_call :
    let env : Environment :=
      ⟨instructionSet.decode?, ⟨[Service.scripted 1 "jump" [.jump 0x40]]⟩⟩
    let m : Machine :=
      ⟨{ Processor.initial ⟨true⟩ with delay := .triggered 0x80 },
        ⟨⟨#[0x10, 0, 0, 0x0C]⟩, 0⟩, ""⟩
    let d : Decoded := ⟨Catalog.control[4], [16], 0x0C000010⟩
    m.Reads env d ∧ d.descriptor.action ≠ .svc ∧ m.cpu.config.delayedBranching = true ∧
      (∃ later, step env m = .done later ∧ later.cpu.pc = 4 ∧
        later.cpu.delay = .triggered 0x40 ∧ later.cpu.x linkRegister = 8 ∧
        ∀ target, later.cpu.delay ≠ .registered target) ∧
      env.services.TransfersByJumps ∧ m.immediate.AtRest ∧
      (run env 5 m.immediate).machine.cpu.delay = .empty := by
  intro env m d
  have hfetch : m.memory.load 4 m.cpu.pc = .ok d.word := by decide
  have hdecode : env.decode d.word = some d := by
    dsimp only [env, d]
    exact decode?_call
  have hreads : m.Reads env d := ⟨d.word, hfetch, hdecode⟩
  have hsvc : d.descriptor.action ≠ .svc := nofun
  have hservices : env.services.TransfersByJumps := by
    apply Registry.transfersByJumps_of_scripted
    intro s hs
    exact ⟨_, _, _, List.mem_singleton.1 hs⟩
  have hrest : m.immediate.AtRest := ⟨rfl, rfl⟩
  let call (x : Machine) : Machine :=
    (x.advancePc.mapCpu (·.transfer .always (.region 16) true)).mapCpu Processor.settle
  have hlater : step env m = .done (call m) := step_of_run hreads rfl rfl
  have hreads' : m.immediate.Reads env d := hreads
  have hnow' : step env m.immediate = .done (call m.immediate) := step_of_run hreads' rfl rfl
  obtain ⟨hshifts, hregistered, hempty⟩ := step_delayedBranching env
  obtain ⟨now, hnow, hshifted⟩ := hshifts m d _ hreads hsvc rfl hlater
  have hpc : now.cpu.pc = 0x40 := by
    rw [Outcome.done.inj (hnow.symm.trans hnow')]
    decide
  obtain ⟨hnext, hslot⟩ := hshifted.taken trivial
  have hlink := (hshifted.link rfl).2
  refine ⟨hreads, hsvc, rfl, ⟨call m, hlater, ?_, ?_, ?_, ?_⟩, hservices, hrest, ?_⟩
  · exact hnext
  · rw [hslot, hpc]
  · unfold Processor.x
    rw [hlink, if_neg (by decide)]
    exact Vector.getElem_set_self ..
  · exact hregistered m _ hlater
  · exact (hempty hservices m.immediate hrest 5).2

end LegMachine
