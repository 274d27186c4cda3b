import LegMachine.Proofs.Exec.Footprint
import LegMachine.Proofs.Exec.Leftover
import LegMachine.Proofs.Machine.Processor

/-!
# Accesses to the memory

A load or store names a register, a base register and an offset. Where it is done, the memory has
been accessed at the sum of the base and the offset, a pair of words there and behind, and what was
loaded or stored is the only change (`Instruction.accesses_of_run`, `accesses_of_step`).
-/

namespace LegMachine

def Action.offsetAccesses : List Action :=
  [ldxr, ldur, ldurb, ldurh, stur, sturb, sturh, ldurs, ldurd, sturs, sturd]

def Action.accessWidth : Action → Width
  | ldurb | sturb => .byte
  | ldurh | sturh => .half
  | _ => .word

/-- What an action leaves that has loaded or stored a register at an address. A double is two words
of the memory and two registers. -/
inductive Machine.Accesses (r : Register) (address : Word) (m : Machine) :
    Action → Machine → Prop where
  | load {action : Action} {v : Word} : action ∈ [.ldxr, .ldur, .ldurb, .ldurh] →
      m.memory.load action.accessWidth.bytes address = .ok v →
      Accesses r address m action (m.mapCpu (·.setX r v))
  | store {action : Action} {memory : Memory} : action ∈ [.stur, .sturb, .sturh] →
      m.memory.store action.accessWidth.bytes address (m.cpu.x r) = .ok memory →
      Accesses r address m action { m with memory }
  | loadSingle {v : Word} : m.memory.load 4 address = .ok v →
      Accesses r address m .ldurs (m.mapCpu (·.setS r v))
  | storeSingle {memory : Memory} : m.memory.store 4 address (m.cpu.s r) = .ok memory →
      Accesses r address m .sturs { m with memory }
  | loadDouble {low high : Word} : m.memory.load 4 address = .ok low →
      m.memory.load 4 (address + 4) = .ok high →
      Accesses r address m .ldurd
        (m.mapCpu fun p => (p.setS r low).setS (nextRegister r) high)
  | storeDouble {first second : Memory} : m.memory.store 4 address (m.cpu.s r) = .ok first →
      first.store 4 (address + 4) (m.cpu.s (nextRegister r)) = .ok second →
      Accesses r address m .sturd { m with memory := second }

namespace Machine

variable {m after : Machine} {address : Word}

theorem Accesses.delay_eq {r : Register} {action : Action} (h : m.Accesses r address action after) :
    after.cpu.delay = m.cpu.delay := by
  cases h with
  | load => exact Processor.delay_setX ..
  | store | loadSingle | storeSingle | loadDouble | storeDouble => rfl

theorem load_eq_done {width : Width} {take : Word → Processor → Processor} :
    m.load width address take = .done after ↔
      ∃ v, m.memory.load width.bytes address = .ok v ∧ m.mapCpu (take v) = after := by
  unfold load
  cases m.memory.load width.bytes address <;> simp

theorem store_eq_done {width : Width} {v : Word} :
    m.store width address v = .done after ↔
      ∃ memory, m.memory.store width.bytes address v = .ok memory ∧
        { m with memory } = after := by
  rw [store_eq]
  cases m.memory.store width.bytes address v <;> simp

theorem checkPair_eq_done {access : Access} (h : m.checkPair access address = .done after) :
    after = m := by
  unfold checkPair at h
  split at h <;> cases h
  rfl

theorem withPair_eq_done {r : Register} {use : RegisterPair → Outcome TrapCause}
    (h : m.withPair r use = .done after) : ∃ pair, pair.lower = r ∧ use pair = .done after := by
  by_cases heven : r.val % 2 = 0
  · obtain ⟨pair, hlower, hpair⟩ := withPair_of_even (m := m) heven use
    exact ⟨pair, hlower, hpair.symm.trans h⟩
  · rw [withPair_of_odd heven] at h
    cases h

theorem andThen_eq_done {o : Outcome TrapCause} {next : Machine → Outcome TrapCause} :
    o.andThen next = .done after ↔ ∃ between, o = .done between ∧ next between = .done after := by
  cases o <;> simp [Outcome.andThen]

theorem accesses_loadPair {pair : RegisterPair} (h : m.loadPair pair address = .done after) :
    m.Accesses pair.lower address .ldurd after := by
  obtain ⟨loaded, hloaded, hsecond⟩ := andThen_eq_done.1 h
  obtain ⟨checked, hchecked, hfirst⟩ := andThen_eq_done.1 hloaded
  obtain rfl := checkPair_eq_done hchecked
  obtain ⟨low, hlow, rfl⟩ := load_eq_done.1 hfirst
  obtain ⟨high, hhigh, rfl⟩ := load_eq_done.1 hsecond
  rw [pair.upper_eq]
  exact .loadDouble hlow hhigh

theorem accesses_storePair {pair : RegisterPair} (h : m.storePair pair address = .done after) :
    m.Accesses pair.lower address .sturd after := by
  obtain ⟨stored, hstored, hsecond⟩ := andThen_eq_done.1 h
  obtain ⟨checked, hchecked, hfirst⟩ := andThen_eq_done.1 hstored
  obtain rfl := checkPair_eq_done hchecked
  obtain ⟨first, hlow, rfl⟩ := store_eq_done.1 hfirst
  obtain ⟨second, hhigh, rfl⟩ := store_eq_done.1 hsecond
  rw [pair.upper_eq] at hhigh
  exact .storeDouble hlow hhigh

end Machine

open Operand in
/-- A load or store with an offset accesses the memory that far from its base. -/
theorem Instruction.accesses_of_run {action : Action} {ops : List Word} {r n : Register} {v : Word}
    {i : Instruction} {services : Registry} {m after : Machine}
    (haction : action ∈ Action.offsetAccesses) (hi : ofOperands action ops = .ok i)
    (hr : register ops 0 = .ok r) (hn : register ops 1 = .ok n) (hv : word ops 2 = .ok v)
    (hrun : i.run services m = .done after) :
    m.Accesses r (m.cpu.x n + signExtendLow 16 v) action after := by
  have hmake (make : Register → Register → Word → Instruction) :
      twoImmediate ops make = .ok (make r n v) :=
    twoImmediate_eq_ok.2 ⟨r, hr, n, hn, v, hv, rfl⟩
  cases action with
  | ldxr | ldur | ldurb | ldurh =>
    obtain rfl := Except.ok.inj (hi.symm.trans (hmake _))
    obtain ⟨w, hw, rfl⟩ := Machine.load_eq_done.1 hrun
    exact .load (by simp) hw
  | stur | sturb | sturh =>
    obtain rfl := Except.ok.inj (hi.symm.trans (hmake _))
    obtain ⟨memory, hmemory, rfl⟩ := Machine.store_eq_done.1 hrun
    exact .store (by simp) hmemory
  | ldurs =>
    obtain rfl := Except.ok.inj (hi.symm.trans (hmake _))
    obtain ⟨w, hw, rfl⟩ := Machine.load_eq_done.1 hrun
    exact .loadSingle hw
  | sturs =>
    obtain rfl := Except.ok.inj (hi.symm.trans (hmake _))
    obtain ⟨memory, hmemory, rfl⟩ := Machine.store_eq_done.1 hrun
    exact .storeSingle hmemory
  | ldurd =>
    obtain rfl := Except.ok.inj (hi.symm.trans (hmake _))
    obtain ⟨pair, rfl, hpair⟩ := Machine.withPair_eq_done hrun
    exact Machine.accesses_loadPair hpair
  | sturd =>
    obtain rfl := Except.ok.inj (hi.symm.trans (hmake _))
    obtain ⟨pair, rfl, hpair⟩ := Machine.withPair_eq_done hrun
    exact Machine.accesses_storePair hpair
  | _ => simp [Action.offsetAccesses] at haction

theorem Machine.settle_of_empty {m : Machine} (hempty : m.cpu.delay = .empty) :
    m.mapCpu Processor.settle = m := by
  unfold mapCpu
  rw [Processor.settle_of_empty hempty]

/-- A load or store that is done leaves its access and nothing else. -/
theorem accesses_of_step {env : Environment} {m after : Machine} {d : Decoded} {r n : Register}
    {v : Word} (hreads : m.Reads env d) (hempty : m.cpu.delay = .empty)
    (haction : d.descriptor.action ∈ Action.offsetAccesses)
    (hr : Operand.register d.operands 0 = .ok r) (hn : Operand.register d.operands 1 = .ok n)
    (hv : Operand.word d.operands 2 = .ok v)
    (hstep : step env m = .done after) :
    m.advancePc.Accesses r (m.cpu.x n + signExtendLow 16 v) d.descriptor.action after := by
  obtain ⟨w, hfetch, hdecode⟩ := hreads
  obtain ⟨i, executed, hi, hrun, rfl⟩ := (step_eq_done hfetch hdecode).1 hstep
  have haccess := Instruction.accesses_of_run haction hi hr hn hv hrun
  rw [Machine.settle_of_empty (haccess.delay_eq.trans hempty)]
  exact haccess

end LegMachine
