import LegMachine.Exec.Execute

/-!
# Changes that instructions do not see

A change of the processor is transparent if registers and flags have the same values behind it and
are written through it. An instruction that is neither a transfer of control nor a call of a service
does the same in front of such a change and behind it (`run_mapCpu`).
-/

namespace LegMachine

namespace Outcome

variable {ε : Type}

def mapMachine (f : Machine → Machine) : Outcome ε → Outcome ε
  | done m => done (f m)
  | trapped cause m => trapped cause (f m)
  | fault cause m => fault cause (f m)

@[simp] theorem machine_mapMachine (f : Machine → Machine) (o : Outcome ε) :
    (o.mapMachine f).machine = f o.machine := by
  cases o <;> rfl

theorem andThen_mapMachine {f : Machine → Machine} {next next' : Machine → Outcome ε}
    (h : ∀ m, next' (f m) = (next m).mapMachine f) (o : Outcome ε) :
    (o.mapMachine f).andThen next' = (o.andThen next).mapMachine f := by
  cases o with
  | done m => exact h m
  | trapped _ _ | fault _ _ => rfl

end Outcome

/-- Neither a transfer nor a call of a service. -/
def Instruction.isStraight : Instruction → Bool
  | transfer .. | service => false
  | _ => true

/-- Registers and flags are read and written through this change. -/
structure Processor.Transparent (f : Processor → Processor) : Prop where
  x (p : Processor) (r : Register) : (f p).x r = p.x r
  s (p : Processor) (r : Register) : (f p).s r = p.s r
  flags (p : Processor) : (f p).flags = p.flags
  setX (r : Register) (v : Word) (p : Processor) : (f p).setX r v = f (p.setX r v)
  setS (r : Register) (v : Word) (p : Processor) : (f p).setS r v = f (p.setS r v)
  setFlags (result : Word) (overflow carry : Bool) (p : Processor) :
    (f p).setFlags result overflow carry = f (p.setFlags result overflow carry)

section

variable {f : Processor → Processor} (hf : Processor.Transparent f)

namespace Processor.Transparent

variable (p : Processor)
include hf

theorem source (source : Source) : source.value (f p) = source.value p := by
  cases source with
  | register r => exact hf.x p r
  | immediate v => rfl

theorem addend (addend : Addend) : addend.value (f p) = addend.value p := by
  cases addend with
  | register r => exact congrArg BitVec.toInt (hf.x p r)
  | negated r => exact congrArg (- BitVec.toInt ·) (hf.x p r)
  | immediate v => rfl

theorem holds (test : Test) : test.holds (f p) = test.holds p := by
  cases test with
  | always => rfl
  | flags c => exact congrArg c.holds (hf.flags p)
  | zero r => exact congrArg (· == 0) (hf.x p r)
  | nonzero r => exact congrArg (· != 0) (hf.x p r)

theorem effective (n : Register) (offset : Word) :
    (f p).effective n offset = p.effective n offset :=
  congrArg (· + offset) (hf.x p n)

theorem movedWide (keep : Bool) (d : Register) (v lane : Word) :
    (f p).movedWide keep d v lane = p.movedWide keep d v lane := by
  unfold Processor.movedWide
  rw [hf.x]

theorem double (pair : RegisterPair) : (f p).double pair = p.double pair := by
  unfold Processor.double
  rw [hf.s, hf.s]

theorem setLogicFlags (result : Word) :
    (f p).setLogicFlags result = f (p.setLogicFlags result) := by
  unfold Processor.setLogicFlags
  rw [hf.flags, hf.setFlags]

theorem setDouble (pair : RegisterPair) (pattern : Nat) :
    (f p).setDouble pair pattern = f (p.setDouble pair pattern) := by
  unfold Processor.setDouble
  dsimp only
  rw [hf.setS, hf.setS]

theorem setRelation (relation : Ieee.Relation) :
    (f p).setRelation relation = f (p.setRelation relation) := by
  cases relation <;> exact hf.setFlags ..

end Processor.Transparent

/-! ## Accesses -/

namespace Machine

variable (m : Machine)

theorem done_mapCpu {g g' : Processor → Processor} (h : g' (f m.cpu) = f (g m.cpu)) :
    Outcome.done (ε := TrapCause) ((m.mapCpu f).mapCpu g') =
      (Outcome.done (m.mapCpu g)).mapMachine (mapCpu f) :=
  congrArg (fun p => Outcome.done { m with cpu := p }) h

theorem load_mapCpu (width : Width) (address : Word) (take : Word → Processor → Processor)
    (htake : ∀ v p, take v (f p) = f (take v p)) :
    (m.mapCpu f).load width address take = (m.load width address take).mapMachine (mapCpu f) := by
  unfold load
  rw [show (m.mapCpu f).memory = m.memory from rfl]
  cases m.memory.load width.bytes address with
  | error e => rfl
  | ok v => exact m.done_mapCpu (htake v m.cpu)

theorem store_mapCpu (width : Width) (address value : Word) :
    (m.mapCpu f).store width address value =
      (m.store width address value).mapMachine (mapCpu f) := by
  unfold store
  rw [show (m.mapCpu f).memory = m.memory from rfl]
  cases m.memory.locate .store width.bytes width.bytes address <;> rfl

theorem checkPair_mapCpu (access : Access) (address : Word) :
    (m.mapCpu f).checkPair access address =
      (m.checkPair access address).mapMachine (mapCpu f) := by
  unfold checkPair
  split <;> rfl

theorem withPair_mapCpu (r : Register) {use use' : RegisterPair → Outcome TrapCause}
    (huse : ∀ pair, use' pair = (use pair).mapMachine (mapCpu f)) :
    (m.mapCpu f).withPair r use' = (m.withPair r use).mapMachine (mapCpu f) := by
  unfold withPair
  cases RegisterPair.ofRegister? r with
  | none => rfl
  | some pair => exact huse pair

include hf

theorem loadPair_mapCpu (pair : RegisterPair) (address : Word) :
    (m.mapCpu f).loadPair pair address = (m.loadPair pair address).mapMachine (mapCpu f) := by
  have hword (r : Register) (address : Word) (m : Machine) :
      (m.mapCpu f).load .word address (Processor.setS r) =
        (m.load .word address (Processor.setS r)).mapMachine (mapCpu f) :=
    m.load_mapCpu .word address (Processor.setS r) (hf.setS r)
  unfold loadPair
  rw [checkPair_mapCpu, Outcome.andThen_mapMachine (hword pair.lower address),
    Outcome.andThen_mapMachine (hword pair.upper (address + 4))]

theorem storePair_mapCpu (pair : RegisterPair) (address : Word) :
    (m.mapCpu f).storePair pair address = (m.storePair pair address).mapMachine (mapCpu f) := by
  have hword (address v : Word) (m : Machine) :
      (m.mapCpu f).store .word address v = (m.store .word address v).mapMachine (mapCpu f) :=
    m.store_mapCpu .word address v
  unfold storePair
  rw [show (m.mapCpu f).cpu = f m.cpu from rfl, hf.s, hf.s, checkPair_mapCpu]
  dsimp only
  rw [Outcome.andThen_mapMachine (hword address _),
    Outcome.andThen_mapMachine (hword (address + 4) _)]

end Machine

/-! ## Instructions -/

include hf

/-- A straight instruction does not see the change and leaves it. -/
theorem Instruction.run_mapCpu {i : Instruction} (hi : i.isStraight = true) (services : Registry)
    (m : Machine) :
    i.run services (m.mapCpu f) = (i.run services m).mapMachine (Machine.mapCpu f) := by
  have hcpu : (m.mapCpu f).cpu = f m.cpu := rfl
  cases i with
  | transfer | service => cases hi
  | nop => rfl
  | sum op d n source =>
    simp only [run, hcpu, hf.x, hf.source]
    split
    · rfl
    · exact m.done_mapCpu (hf.setX ..)
  | sumFlags d n addend =>
    simp only [run, hcpu, hf.x, hf.addend]
    split
    · rfl
    · exact m.done_mapCpu (by rw [hf.setFlags, hf.setX])
  | product _ _ _ _ | quotient _ _ _ _ =>
    simp only [run, hcpu, hf.x]
    split
    · rfl
    · exact m.done_mapCpu (hf.setX ..)
  | logic op setsFlags d n source =>
    simp only [run, hcpu, hf.x, hf.source]
    refine m.done_mapCpu ?_
    split
    · rw [hf.setX, hf.setLogicFlags]
    · exact hf.setX ..
  | shift direction d n amount =>
    simp only [run, hcpu, hf.x]
    exact m.done_mapCpu (hf.setX ..)
  | load width d n offset =>
    simp only [run, hcpu, hf.effective]
    exact m.load_mapCpu width _ _ (hf.setX d)
  | store width d n offset =>
    simp only [run, hcpu, hf.effective, hf.x]
    exact m.store_mapCpu width _ _
  | storeExclusive t status n =>
    simp only [run, hcpu, hf.x, Machine.store_mapCpu]
    exact Outcome.andThen_mapMachine (fun m => m.done_mapCpu (hf.setX status 0 m.cpu)) _
  | setAddress d v => exact m.done_mapCpu (hf.setX ..)
  | moveWide keep d v lane =>
    simp only [run]
    split
    · exact m.done_mapCpu (by rw [hf.movedWide, hf.setX])
    · rfl
  | floatOp op precision d n k =>
    cases precision with
    | single =>
      simp only [run, hcpu, hf.s]
      exact m.done_mapCpu (hf.setS ..)
    | double =>
      simp only [run, hcpu, hf.double]
      exact m.withPair_mapCpu d fun d => m.withPair_mapCpu n fun n => m.withPair_mapCpu k fun k =>
        m.done_mapCpu (hf.setDouble ..)
  | floatCompare precision n k =>
    cases precision with
    | single =>
      simp only [run, hcpu, hf.s]
      exact m.done_mapCpu (hf.setRelation ..)
    | double =>
      simp only [run, hcpu, hf.double]
      exact m.withPair_mapCpu n fun n => m.withPair_mapCpu k fun k =>
        m.done_mapCpu (hf.setRelation ..)
  | floatLoad precision d n offset =>
    cases precision with
    | single =>
      simp only [run, hcpu, hf.effective]
      exact m.load_mapCpu .word _ _ (hf.setS d)
    | double =>
      simp only [run, hcpu, hf.effective]
      exact m.withPair_mapCpu d fun pair => m.loadPair_mapCpu hf pair _
  | floatStore precision d n offset =>
    cases precision with
    | single =>
      simp only [run, hcpu, hf.effective, hf.s]
      exact m.store_mapCpu .word _ _
    | double =>
      simp only [run, hcpu, hf.effective]
      exact m.withPair_mapCpu d fun pair => m.storePair_mapCpu hf pair _

end

end LegMachine
