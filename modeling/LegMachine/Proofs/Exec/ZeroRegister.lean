import LegMachine.Exec.Script
import LegMachine.Proofs.Exec.Frame
import LegMachine.Proofs.Exec.Step
import LegMachine.Proofs.Isa.Decoding
import Mathlib.Logic.Function.Iterate

/-!
# The register that reads as zero

The word that is kept for the integer register 31 is hidden: whatever it is, a machine does the
same, and the word stays what it is. This needs services that take the integer registers by their
numbers, which is what a `ServiceProgram` can do; scripts are such programs
(`Registry.namesRegisters_of_scripted`). Replacing the hidden word commutes with each instruction
(`run_withHidden`), with a step (`step_withHidden`) and so with any number of steps.
-/

namespace LegMachine

/-! ## Machines that differ in the hidden word -/

/-- The word that is kept for the register that reads as zero. -/
def Processor.hidden (p : Processor) : Word :=
  p.integers[zeroRegister]

def Processor.withHidden (v : Word) (p : Processor) : Processor :=
  { p with integers := p.integers.set zeroRegister v }

def Machine.withHidden (v : Word) (m : Machine) : Machine :=
  m.mapCpu (·.withHidden v)

/-- The machines are equal but for the hidden word. -/
structure Machine.SameButZero (m m' : Machine) : Prop where
  cpu : m'.cpu = { m.cpu with integers := m'.cpu.integers }
  integers : ∀ r : Register, r ≠ zeroRegister → m'.cpu.integers.get r = m.cpu.integers.get r
  memory : m'.memory = m.memory
  console : m'.console = m.console

/-- Both end in the same way, and the machines are equal but for the hidden word. -/
inductive Outcome.SameButZero {ε : Type} : Outcome ε → Outcome ε → Prop where
  | done {m m' : Machine} : m.SameButZero m' → SameButZero (done m) (done m')
  | trapped {m m' : Machine} (cause : ε) :
      m.SameButZero m' → SameButZero (trapped cause m) (trapped cause m')
  | fault {m m' : Machine} (cause : Fault) :
      m.SameButZero m' → SameButZero (fault cause m) (fault cause m')

namespace Machine

@[simp] theorem hidden_withHidden (v : Word) (m : Machine) : (m.withHidden v).cpu.hidden = v :=
  Vector.getElem_set_self ..

@[simp] theorem withHidden_hidden (m : Machine) : m.withHidden m.cpu.hidden = m :=
  congrArg (fun xs => { m with cpu := { m.cpu with integers := xs } }) (Vector.set_getElem_self ..)

theorem sameButZero_withHidden (v : Word) (m : Machine) : m.SameButZero (m.withHidden v) where
  cpu := rfl
  integers r hr := by
    have hne : zeroRegister.val ≠ r.val := fun h => hr (Fin.ext h.symm)
    exact Vector.getElem_set_ne zeroRegister.isLt r.isLt hne
  memory := rfl
  console := rfl

theorem SameButZero.eq_withHidden {m m' : Machine} (h : m.SameButZero m') :
    m' = m.withHidden m'.cpu.hidden := by
  have hintegers : m'.cpu.integers = m.cpu.integers.set zeroRegister m'.cpu.hidden := by
    apply Vector.ext
    intro i hi
    rw [Vector.getElem_set]
    split
    · next hzero =>
      subst hzero
      rfl
    · next hne => exact h.integers ⟨i, hi⟩ fun hzero => hne (congrArg Fin.val hzero).symm
  obtain ⟨cpu, memory, console⟩ := m'
  obtain ⟨rfl⟩ : memory = m.memory := h.memory
  obtain ⟨rfl⟩ : console = m.console := h.console
  have hcpu : cpu = m.cpu.withHidden cpu.hidden :=
    h.cpu.trans (congrArg (fun xs => { m.cpu with integers := xs }) hintegers)
  exact congrArg (fun p => { m with cpu := p }) hcpu

end Machine

theorem Outcome.sameButZero_mapMachine {ε : Type} (v : Word) (o : Outcome ε) :
    o.SameButZero (o.mapMachine (Machine.withHidden v)) := by
  cases o with
  | done m => exact .done (m.sameButZero_withHidden v)
  | trapped cause m => exact .trapped cause (m.sameButZero_withHidden v)
  | fault cause m => exact .fault cause (m.sameButZero_withHidden v)

/-! ## The processor -/

namespace Processor

variable (v : Word) (p : Processor)

theorem x_withHidden (r : Register) : (p.withHidden v).x r = p.x r := by
  unfold x
  split
  · rfl
  · next hr =>
    have hne : zeroRegister.val ≠ r.val := fun h => hr (Fin.ext h.symm)
    exact Vector.getElem_set_ne zeroRegister.isLt r.isLt hne

theorem setX_withHidden (r : Register) (w : Word) :
    (p.withHidden v).setX r w = (p.setX r w).withHidden v := by
  unfold setX
  split
  · rfl
  · next hr =>
    have hne : zeroRegister.val ≠ r.val := fun h => hr (Fin.ext h.symm)
    exact congrArg (fun xs => { p with integers := xs }) (Vector.set_comm _ _ hne)

theorem transparent_withHidden : Transparent (withHidden v) where
  x p r := p.x_withHidden v r
  s _ _ := rfl
  flags _ := rfl
  setX r w p := p.setX_withHidden v r w
  setS _ _ _ := rfl
  setFlags _ _ _ _ := rfl

theorem jump_withHidden (target : Word) :
    (p.withHidden v).jump target = (p.jump target).withHidden v := by
  unfold jump
  rw [show (p.withHidden v).config = p.config from rfl]
  split <;> rfl

theorem transfer_withHidden (test : Test) (target : Target) (link : Bool) :
    (p.withHidden v).transfer test target link = (p.transfer test target link).withHidden v := by
  have haddress : target.address (p.withHidden v) = target.address p := by
    cases target with
    | register r => exact p.x_withHidden v r
    | region | fromHere | fromNext => rfl
  unfold transfer
  rw [(transparent_withHidden v).holds, haddress]
  split
  · cases link with
    | false => exact p.jump_withHidden v _
    | true =>
      have hlink : (p.withHidden v).linkReturn linkRegister =
          (p.linkReturn linkRegister).withHidden v := p.setX_withHidden v _ _
      dsimp only
      rw [if_pos rfl, if_pos rfl, hlink]
      exact jump_withHidden v _ _
  · rfl

theorem settle_withHidden : (p.withHidden v).settle = p.settle.withHidden v := by
  obtain ⟨pc, flags, integers, floats, delay, halted, config⟩ := p
  cases delay <;> rfl

end Processor

/-! ## Services -/

def Machine.withIntegers (integers : Vector Word 32) (m : Machine) : Machine :=
  m.mapCpu fun p => { p with integers }

/-- The machine without its integer registers. -/
def Machine.sealed (m : Machine) : Machine :=
  m.withIntegers (Vector.replicate 32 0)

/-- What a service can do that takes the integer registers by their numbers. All the rest of the
machine is open to it. -/
inductive ServiceProgram where
  | finish
  | trap (cause : TrapCause)
  | fault (cause : Fault)
  | readX (r : Register) (next : Word → ServiceProgram)
  | writeX (r : Register) (v : Word) (rest : ServiceProgram)
  /-- See the rest of the machine. -/
  | inspect (next : Machine → ServiceProgram)
  /-- Change the rest of the machine. -/
  | change (f : Machine → Machine) (rest : ServiceProgram)

namespace ServiceProgram

def run : ServiceProgram → Machine → Outcome TrapCause
  | finish, m => .done m
  | trap cause, m => .trapped cause m
  | fault cause, m => .fault cause m
  | readX r next, m => (next (m.cpu.x r)).run m
  | writeX r v rest, m => rest.run (m.mapCpu (·.setX r v))
  | inspect next, m => (next m.sealed).run m
  | change f rest, m => rest.run ((f m.sealed).withIntegers m.cpu.integers)

theorem run_withHidden (v : Word) (program : ServiceProgram) (m : Machine) :
    program.run (m.withHidden v) = (program.run m).mapMachine (Machine.withHidden v) := by
  induction program generalizing m with
  | finish | trap | fault => rfl
  | readX r next ih =>
    have hx : (m.withHidden v).cpu.x r = m.cpu.x r := m.cpu.x_withHidden v r
    unfold run
    rw [hx]
    exact ih (m.cpu.x r) m
  | writeX r w rest ih =>
    have hset : (m.withHidden v).mapCpu (·.setX r w) = (m.mapCpu (·.setX r w)).withHidden v :=
      congrArg (fun p => { m with cpu := p }) (m.cpu.setX_withHidden v r w)
    unfold run
    rw [hset]
    exact ih _
  | inspect next ih => exact ih m.sealed m
  | change f rest ih => exact ih ((f m.sealed).withIntegers m.cpu.integers)

end ServiceProgram

/-- The services take the integer registers by their numbers. -/
def Registry.NamesRegisters (r : Registry) : Prop :=
  ∀ s ∈ r.services, ∃ program : ServiceProgram, s.run = program.run

/-! ## Instructions, steps and runs -/

section

variable {env : Environment} (hservices : env.services.NamesRegisters) (v : Word) (m : Machine)
include hservices

theorem Instruction.run_withHidden (i : Instruction) :
    i.run env.services (m.withHidden v) =
      (i.run env.services m).mapMachine (Machine.withHidden v) := by
  cases hi : i.isStraight with
  | true => exact run_mapCpu (Processor.transparent_withHidden v) hi env.services m
  | false =>
    cases i with
    | transfer test target link =>
      exact congrArg (fun p => Outcome.done { m with cpu := p })
        (m.cpu.transfer_withHidden v test target link)
    | service =>
      unfold run Registry.dispatch
      rw [show (m.withHidden v).cpu.x serviceRegister = m.cpu.x serviceRegister from
        m.cpu.x_withHidden v _]
      cases hfind : env.services.find? (m.cpu.x serviceRegister) with
      | none => rfl
      | some s =>
        obtain ⟨program, hprogram⟩ := hservices s (List.mem_of_find?_eq_some hfind)
        dsimp only
        rw [hprogram]
        exact program.run_withHidden v m
    | _ => cases hi

theorem execute_withHidden (action : Action) (ops : List Word) :
    execute env.services action ops (m.withHidden v) =
      (execute env.services action ops m).mapMachine (Machine.withHidden v) := by
  unfold execute
  cases Instruction.ofOperands action ops with
  | error f => rfl
  | ok i => exact i.run_withHidden hservices v m

/-- A step with another hidden word ends with that word, and in all else as it does. -/
theorem step_withHidden :
    step env (m.withHidden v) = (step env m).mapMachine (Machine.withHidden v) := by
  let next := m.mapCpu (·.setPc (m.cpu.pc + instructionLength))
  have hmemory : (m.withHidden v).memory = m.memory := rfl
  have hpc : (m.withHidden v).cpu.pc = m.cpu.pc := rfl
  have hnext : (m.withHidden v).mapCpu (·.setPc (m.cpu.pc + instructionLength)) =
      next.withHidden v := rfl
  cases hfetch : m.memory.load 4 m.cpu.pc with
  | error e => simp only [step, hmemory, hpc, hfetch, Outcome.mapMachine]
  | ok w =>
    cases hdecode : env.decode w with
    | none => simp only [step, hmemory, hpc, hfetch, hdecode, Outcome.mapMachine]
    | some d =>
      simp only [step, hmemory, hpc, hfetch, hdecode, hnext, execute_withHidden hservices]
      cases execute env.services d.descriptor.action d.operands next with
      | done after =>
        exact congrArg (fun p => Outcome.done { after with cpu := p })
          (after.cpu.settle_withHidden v)
      | trapped cause after =>
        unfold Decoded.trap
        cases d.print m.cpu.pc <;> rfl
      | fault => rfl

/-- The hidden word stays what it is. -/
theorem hidden_step : (step env m).machine.cpu.hidden = m.cpu.hidden := by
  -- with its own hidden word put in place the machine is the same, and so is where it ends
  have hself := step_withHidden hservices m.cpu.hidden m
  rw [Machine.withHidden_hidden] at hself
  rw [hself, Outcome.machine_mapMachine, Machine.hidden_withHidden]

theorem iterate_withHidden (n : Nat) :
    (fun m => (step env m).machine)^[n] (m.withHidden v) =
      ((fun m => (step env m).machine)^[n] m).withHidden v := by
  have hstep : Function.Semiconj (Machine.withHidden v) (fun m => (step env m).machine)
      fun m => (step env m).machine := fun m => by
    show (step env m).machine.withHidden v = (step env (m.withHidden v)).machine
    rw [step_withHidden hservices, Outcome.machine_mapMachine]
  exact ((hstep.iterate_right n).eq m).symm

theorem hidden_iterate (n : Nat) :
    ((fun m => (step env m).machine)^[n] m).cpu.hidden = m.cpu.hidden :=
  Function.Iterate.rec (fun after => after.cpu.hidden = m.cpu.hidden) rfl
    (fun after h => (hidden_step hservices after).trans h) n

theorem runFrom_withHidden (before limit : Nat) :
    runFrom env before limit (m.withHidden v) =
      let r := runFrom env before limit m
      { r with machine := r.machine.withHidden v } := by
  induction limit generalizing before m with
  | zero => rfl
  | succ limit ih =>
    unfold runFrom
    rw [show (m.withHidden v).cpu.halted = m.cpu.halted from rfl, step_withHidden hservices]
    cases m.cpu.halted with
    | true => rfl
    | false =>
      cases step env m with
      | done after => exact ih after (before + 1)
      | trapped | fault => rfl

end

/-! ## Scripted services -/

namespace ServiceProgram

def store (width : Width) (address value : Register) (rest : ServiceProgram) : ServiceProgram :=
  readX address fun a => readX value fun v => inspect fun m =>
    match m.memory.locate .store width.bytes width.bytes a with
    | .error e => trap (.address e)
    | .ok offset =>
      let data := LittleEndian.split width.bytes v.toNat
      change (fun m => { m with memory := m.memory.write offset data }) rest

def ofEffect (rest : ServiceProgram) : Effect → ServiceProgram
  | .setX r v => writeX r v rest
  | .addX r v => readX r fun x => writeX r (x + v) rest
  | .storeWord a v => store .word a v rest
  | .storeByte a v => store .byte a v rest
  | .loadWord a d => readX a fun address => inspect fun m =>
    match m.memory.load 4 address with
    | .error e => trap (.address e)
    | .ok v => writeX d v rest
  | .jump t => change (·.mapCpu (·.jump t)) rest
  | .halt => change (·.mapCpu fun p => { p with halted := true }) rest
  | .overflow => trap .arithmeticOverflow
  | .fail reason => trap (.invalidOperand (.refused reason))
  | .printInteger r => readX r fun x => change
    (fun m => { m with console := m.console ++ String.ofList (Text.decimal x.toInt) }) rest
  | .printCharacter r => readX r fun x => change
    (fun m => { m with console := m.console.push (Char.ofNat (x.setWidth 8).toNat) }) rest

variable (rest : ServiceProgram) (m : Machine)

theorem run_store (width : Width) (a v : Register) :
    (store width a v rest).run m =
      (m.store width (m.cpu.x a) (m.cpu.x v)).andThen rest.run := by
  simp only [store, run, Machine.store]
  rw [show m.sealed.memory = m.memory from rfl]
  cases m.memory.locate .store width.bytes width.bytes (m.cpu.x a) <;> rfl

theorem run_ofEffect (e : Effect) : (ofEffect rest e).run m = (e.run m).andThen rest.run := by
  cases e with
  | storeWord a v | storeByte a v => exact run_store rest m _ a v
  | loadWord a d =>
    simp only [ofEffect, run, Effect.run, Machine.load]
    rw [show m.sealed.memory = m.memory from rfl, show Width.word.bytes = 4 from rfl]
    cases m.memory.load 4 (m.cpu.x a) <;> rfl
  | jump t =>
    have hjump : (m.sealed.mapCpu (·.jump t)).withIntegers m.cpu.integers =
        m.mapCpu (·.jump t) := by
      unfold Machine.mapCpu Processor.jump
      dsimp only
      rw [show m.sealed.cpu.config = m.cpu.config from rfl]
      split <;> rfl
    exact congrArg rest.run hjump
  | setX | addX | halt | overflow | fail | printInteger | printCharacter => rfl

theorem run_foldr_ofEffect (effects : List Effect) :
    (effects.foldr (fun e rest => ofEffect rest e) finish).run m =
      Effect.runAll m effects := by
  induction effects generalizing m with
  | nil => rfl
  | cons e effects ih =>
    rw [List.foldr_cons, run_ofEffect, Effect.runAll]
    exact congrArg (e.run m).andThen (funext ih)

end ServiceProgram

/-- Services that are given as scripts take the integer registers by their numbers. -/
theorem Registry.namesRegisters_of_scripted {r : Registry}
    (h : ∀ s ∈ r.services, ∃ number name effects, s = Service.scripted number name effects) :
    r.NamesRegisters := by
  intro s hs
  obtain ⟨_, _, effects, rfl⟩ := h s hs
  exact ⟨_, funext fun m => (ServiceProgram.run_foldr_ofEffect m effects).symm⟩

/-! ## The hidden word -/

/-- The word behind the register that reads as zero is not seen and does not change: two machines
that differ in it alone take the same steps, and stay as they differ. -/
theorem hidden_unobservable (env : Environment) (hservices : env.services.NamesRegisters) :
    (∀ m m' : Machine, m.SameButZero m' →
      (∀ n, let after := (fun m => (step env m).machine)^[n]
        (after m).SameButZero (after m') ∧
          (step env (after m)).SameButZero (step env (after m')) ∧
          (after m).cpu.integers[zeroRegister] = m.cpu.integers[zeroRegister] ∧
          (after m').cpu.integers[zeroRegister] = m'.cpu.integers[zeroRegister]) ∧
      ∀ limit, (run env limit m).machine.SameButZero (run env limit m').machine ∧
        (run env limit m').steps = (run env limit m).steps ∧
        (run env limit m').ending = (run env limit m).ending) ∧
    ∀ config pc memory console n,
      let fresh : Machine := ⟨(Processor.initial config).reset pc, memory, console⟩
      ((fun m => (step env m).machine)^[n] fresh).cpu.integers[zeroRegister] = 0 := by
  constructor
  · intro m m' hsame
    obtain ⟨v, rfl⟩ : ∃ v, m' = m.withHidden v := ⟨_, hsame.eq_withHidden⟩
    constructor
    · intro n after
      have hafter : after (m.withHidden v) = (after m).withHidden v :=
        iterate_withHidden hservices v m n
      refine ⟨?_, ?_, hidden_iterate hservices m n, hidden_iterate hservices (m.withHidden v) n⟩
      · rw [hafter]
        exact (after m).sameButZero_withHidden v
      · rw [hafter, step_withHidden hservices]
        exact Outcome.sameButZero_mapMachine v _
    · intro limit
      unfold run
      rw [runFrom_withHidden hservices]
      exact ⟨Machine.sameButZero_withHidden v _, rfl, rfl⟩
  · intro config pc memory console n fresh
    have hfresh : fresh.cpu.hidden = 0 := Vector.getElem_replicate ..
    exact (hidden_iterate hservices fresh n).trans hfresh

theorem decode?_service :
    instructionSet.decode? 0x58000000 = some ⟨Catalog.control[26], [0], 0x58000000⟩ := by
  let e : Encoding := ⟨0xFC000000, 0x58000000, [⟨'i', (List.range 26).reverse⟩]⟩
  have hcompile : Catalog.control[26].template.compile = .ok e := rfl
  exact decode?_of_compile (by simp [catalog]) hcompile (by decide) fun _ => by decide

/-- A service that adds to the register and prints it prints zero, whatever the hidden word is. -/
theorem hidden_unobservable_service :
    let env : Environment :=
      ⟨instructionSet.decode?, ⟨[Service.scripted 0 "count" [.addX 31 5, .printInteger 31]]⟩⟩
    let fresh : Machine :=
      ⟨(Processor.initial ⟨false⟩).reset 0, ⟨⟨#[0, 0, 0, 0x58]⟩, 0⟩, ""⟩
    let other := fresh.withHidden 7
    env.services.NamesRegisters ∧ fresh.SameButZero other ∧
      (∃ after after', step env fresh = .done after ∧ step env other = .done after' ∧
        after.console = "0" ∧ after.SameButZero after' ∧
        after'.cpu.integers[zeroRegister] = 7) ∧
      ((fun m => (step env m).machine)^[5] fresh).cpu.integers[zeroRegister] = 0 := by
  intro env fresh other
  let d : Decoded := ⟨Catalog.control[26], [0], 0x58000000⟩
  have hservices : env.services.NamesRegisters := by
    apply Registry.namesRegisters_of_scripted
    intro s hs
    exact ⟨_, _, _, List.mem_singleton.1 hs⟩
  have hsame : fresh.SameButZero other := fresh.sameButZero_withHidden 7
  have hfetch : fresh.memory.load 4 fresh.cpu.pc = .ok d.word := by decide
  have hdecode : env.decode d.word = some d := by
    dsimp only [env, d]
    exact decode?_service
  have hreads : fresh.Reads env d := ⟨d.word, hfetch, hdecode⟩
  let after : Machine :=
    { fresh.advancePc with console := "" ++ String.ofList (Text.decimal 0) }
  have hafter : step env fresh = .done (after.mapCpu Processor.settle) :=
    step_of_run hreads rfl rfl
  obtain ⟨hruns, hfresh⟩ := hidden_unobservable env hservices
  obtain ⟨-, hstep, -, -⟩ := (hruns fresh other hsame).1 0
  obtain ⟨-, -, -, hkept⟩ := (hruns fresh other hsame).1 1
  refine ⟨hservices, hsame, ?_, hfresh ⟨false⟩ 0 fresh.memory "" 5⟩
  change (step env fresh).SameButZero (step env other) at hstep
  change (step env other).machine.cpu.integers[zeroRegister] = _ at hkept
  rw [hafter] at hstep
  cases hother : step env other with
  | done after' =>
    rw [hother] at hstep hkept
    obtain ⟨hsame'⟩ := hstep
    exact ⟨_, after', hafter, rfl, by decide, hsame', hkept.trans (by decide)⟩
  | trapped | fault =>
    rw [hother] at hstep
    cases hstep

end LegMachine
