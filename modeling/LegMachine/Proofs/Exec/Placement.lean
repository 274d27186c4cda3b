import LegMachine.Proofs.Exec.Operands
import LegMachine.Proofs.Exec.Step

/-!
# Instructions placed in memory

An instruction of the catalog that is encoded and placed at the program counter is stepped as it is
executed on the operands that were encoded (`step_of_placed`), although high bits of immediates are
lost in the word. The left shift with all fields zero is read as the idle word, and does nothing
either.
-/

namespace LegMachine

theorem Processor.setX_x_self (p : Processor) (r : Register) : p.setX r (p.x r) = p := by
  by_cases hr : r = zeroRegister
  · simp [hr]
  · simp [Processor.setX, Processor.x, hr]

theorem execute_congr (services : Registry) {action : Action} {ops ops' : List Word}
    (h : OperandKind.AgreeAll action.operandKinds ops ops') (m : Machine) :
    execute services action ops m = execute services action ops' m := by
  unfold execute
  rw [Instruction.ofOperands_congr h]

theorem extract_zero_of_lsl : ∀ e ∈ catalogEntries, e.descriptor.action = .lsl →
    e.encoding.extract 0 = [0, 0, 0] := by
  decide +kernel

theorem execute_nop (services : Registry) (ops : List Word) (m : Machine) :
    execute services .nop ops m = .done m := rfl

/-- Shifting the first register by nothing into itself changes nothing. -/
theorem execute_lsl_zero (services : Registry) (m : Machine) :
    execute services .lsl [0, 0, 0] m = .done m := by
  have hself : m.cpu.setX 0 (m.cpu.x 0 <<< 0) = m.cpu := by
    rw [BitVec.shiftLeft_zero]
    exact m.cpu.setX_x_self 0
  exact congrArg (fun p => Outcome.done { m with cpu := p }) hself

theorem execute_encode (services : Registry) {e : Entry} (he : e ∈ catalogEntries)
    {ops : List Word} (hops : e.descriptor.Admits ops) (m : Machine) :
    ∃ d, instructionSet.decode? (e.encoding.encode ops) = some d ∧
      execute services d.descriptor.action d.operands m =
        execute services e.descriptor.action ops m := by
  have hp := Template.partition_of_compile (mem_catalogEntries.1 he).2
  have hagree := execute_congr services (agree_extract_encode he hops) m
  by_cases hidle : e.descriptor.action = .lsl ∧ e.encoding.encode ops = 0
  · obtain ⟨hlsl, hzero⟩ := hidle
    obtain ⟨x, -, hnop, hdecode⟩ := decode?_zero
    refine ⟨x.decode 0, by rw [hzero, hdecode], ?_⟩
    have hleft : execute services (x.decode 0).descriptor.action (x.decode 0).operands m =
        .done m := by
      rw [show (x.decode 0).descriptor.action = .nop from hnop, execute_nop]
    rw [hleft, ← hagree, hzero, extract_zero_of_lsl e he hlsl, hlsl, execute_lsl_zero]
  · have hlsl : e.descriptor.action = .lsl → e.encoding.encode ops ≠ 0 :=
      fun hlsl hzero => hidle ⟨hlsl, hzero⟩
    exact ⟨_, decode?_of_accepts he (Encoding.accepts_encode hp ops) hlsl, hagree⟩

/-- Encoding an instruction of the catalog, placing the word at the program counter and taking a
step ends like executing the instruction on the operands themselves. -/
theorem step_of_placed {d : Descriptor} (hd : d ∈ catalog) :
    ∃ e, d.template.compile = .ok e ∧
      ∀ (services : Registry) (ops : List Word) (m : Machine), d.Admits ops →
        m.memory.load 4 m.cpu.pc = .ok (e.encode ops) →
          (step ⟨instructionSet.decode?, services⟩ m).mapCause Trap.cause =
            executeAndSettle services d.action ops m.advancePc := by
  obtain ⟨e, hcompile⟩ := exists_compile hd
  refine ⟨e, hcompile, fun services ops m hops hload => ?_⟩
  have he : ⟨d, e⟩ ∈ catalogEntries := mem_catalogEntries.2 ⟨hd, hcompile⟩
  obtain ⟨x, hdecode, hexec⟩ := execute_encode services he hops m.advancePc
  rw [step_mapCause hload hdecode (isReadable_of_decode? hdecode), executeAndSettle, hexec,
    executeAndSettle]

/-- `SUBIS X1,X2,74565`, whose immediate does not fit into the 16 bits of its field, is stored as
`SUBIS X1,X2,9029` and steps alike: 9029 is subtracted, without a borrow. -/
theorem step_of_placed_subis :
    let d := Catalog.arithmetic[7]
    let ops : List Word := [1, 2, 74565]
    let m : Machine :=
      ⟨(Processor.initial ⟨false⟩).setX 2 10000, ⟨⟨#[0x45, 0x23, 0x22, 0x2C]⟩, 0⟩, ""⟩
    d ∈ catalog ∧ d.Admits ops ∧ m.memory.load 4 m.cpu.pc = .ok 0x2C222345 ∧
      (step ⟨instructionSet.decode?, .empty⟩ m).mapCause Trap.cause =
        executeAndSettle .empty d.action ops m.advancePc ∧
      ∃ after, step ⟨instructionSet.decode?, .empty⟩ m = .done after ∧ after.cpu.x 1 = 971 ∧
        after.cpu.x 2 = 10000 ∧ after.cpu.pc = 4 ∧ after.cpu.flags.negative = false ∧
        after.cpu.flags.zero = false ∧ after.cpu.flags.carry = true ∧
        after.cpu.flags.overflow = false := by
  intro d ops m
  have hmem : d ∈ catalog := by simp [d, catalog]
  have hadmits : d.Admits ops := .cons (by decide) (.cons (by decide) (.cons (by decide) .nil))
  have hload : m.memory.load 4 m.cpu.pc = .ok 0x2C222345 := by decide
  obtain ⟨e, hcompile, hplaced⟩ := step_of_placed hmem
  have hword : d.template.compile.toOption.map (·.encode ops) = some 0x2C222345 := by decide
  rw [hcompile] at hword
  have hstep := hplaced .empty ops m hadmits (by rw [hload, ← Option.some.inj hword])
  let sum : Processor := (m.advancePc.cpu.setFlags 971 false true).setX 1 971
  have hdone : executeAndSettle .empty d.action ops m.advancePc =
      .done { m.advancePc with cpu := sum } := by decide +kernel
  have hafter := Outcome.mapCause_eq_done.1 (hstep.trans hdone)
  exact ⟨hmem, hadmits, hload, hstep, _, hafter, by decide⟩

end LegMachine
