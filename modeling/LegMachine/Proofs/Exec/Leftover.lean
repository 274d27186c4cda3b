import LegMachine.Proofs.Exec.Control
import LegMachine.Proofs.Exec.Step
import LegMachine.Proofs.Isa.Decoding
import LegMachine.Proofs.Machine.Memory

/-!
# What a trap leaves behind

An instruction checks before it writes, so that a trap leaves nothing but the advanced program
counter (`Instruction.eq_of_run_eq_trapped`). The exceptions are a load and a store of a pair of
words of which the memory holds only the first (`Memory.Splits`): the first word is then loaded or
stored already (`Machine.loadPair_of_splits`, `Machine.storePair_of_splits`). A word that is not
fetched or not decoded leaves the whole machine as it is.
-/

namespace LegMachine

/-! ## Pairs of words at the end of the memory -/

namespace Memory

/-- The memory ends within the pair of words at an address, behind the first. -/
structure Splits (m : Memory) (address : Word) : Prop where
  aligned : address.toNat % 8 = 0
  first : m.Maps 4 address
  ends : m.base.toNat + m.bytes.size < address.toNat + 8

variable {m : Memory} {address : Word}

theorem toNat_second (haligned : address.toNat % 8 = 0) :
    (address + 4).toNat = address.toNat + 4 := by
  have hlt : address.toNat < 2 ^ 32 := address.isLt
  exact BitVec.toNat_add_of_lt (show address.toNat + 4 < 2 ^ 32 by omega)

theorem aligned_first (haligned : address.toNat % 8 = 0) : address.toNat % 4 = 0 := by
  omega

theorem aligned_second (haligned : address.toNat % 8 = 0) : (address + 4).toNat % 4 = 0 := by
  rw [toNat_second haligned]
  omega

theorem splits_iff (haligned : address.toNat % 8 = 0) (hfirst : m.Maps 4 address) :
    m.Splits address ↔ ¬ m.Maps 4 (address + 4) := by
  have hin := maps_iff.1 hfirst
  rw [maps_iff, toNat_second haligned]
  constructor
  · rintro ⟨-, -, hends⟩
    omega
  · intro hnot
    exact ⟨haligned, hfirst, by omega⟩

/-- A pair is divided exactly if its second word cannot be loaded behind its first. -/
theorem splits_iff_load (haligned : address.toNat % 8 = 0) :
    m.Splits address ↔
      (∃ v, m.load 4 address = .ok v) ∧ ∃ e, m.load 4 (address + 4) = .error e := by
  have hsecond := aligned_second haligned
  constructor
  · intro h
    exact ⟨load_of_maps (aligned_first haligned) h.first, _,
      load_of_not_maps hsecond ((splits_iff haligned h.first).1 h)⟩
  · rintro ⟨⟨v, hv⟩, e, he⟩
    refine (splits_iff haligned (load_eq_ok.1 hv).2.1).2 fun hmaps => ?_
    obtain ⟨w, hw⟩ := load_of_maps hsecond hmaps
    rw [hw] at he
    cases he

/-- A pair is divided exactly if its second word cannot be stored behind its first. -/
theorem splits_iff_store (haligned : address.toNat % 8 = 0) (low high : Word) :
    m.Splits address ↔ ∃ memory, m.store 4 address low = .ok memory ∧
      ∃ e, memory.store 4 (address + 4) high = .error e := by
  have hfirst := aligned_first haligned
  have hsecond := aligned_second haligned
  by_cases hmaps : m.Maps 4 address
  · obtain ⟨memory, hmemory, hsame⟩ := store_of_maps hfirst hmaps low
    rw [splits_iff haligned hmaps, ← hsame, hmemory]
    constructor
    · intro hnot
      exact ⟨memory, rfl, _, store_of_not_maps hsecond hnot high⟩
    · rintro ⟨_, ⟨⟩, e, he⟩ hin
      obtain ⟨_, hlast, -⟩ := store_of_maps hsecond hin high
      rw [hlast] at he
      cases he
  · rw [store_of_not_maps hfirst hmaps]
    exact iff_of_false (fun h => hmaps h.first) (by simp)

end Memory

namespace Machine

variable {m after : Machine} {address : Word} {cause : TrapCause}

/-- A store traps or is done as its access to the memory fails or succeeds. -/
theorem store_eq (m : Machine) (width : Width) (address v : Word) :
    m.store width address v = match m.memory.store width.bytes address v with
      | .error e => .trapped (.address e) m
      | .ok memory => .done { m with memory } := by
  unfold store Memory.store
  cases m.memory.locate .store width.bytes width.bytes address <;> rfl

theorem eq_of_load_eq_trapped {width : Width} {take : Word → Processor → Processor}
    (h : m.load width address take = .trapped cause after) : after = m := by
  unfold load at h
  split at h <;> cases h
  rfl

theorem eq_of_store_eq_trapped {width : Width} {v : Word}
    (h : m.store width address v = .trapped cause after) : after = m := by
  unfold store at h
  split at h <;> cases h
  rfl

section

variable {r : Register} {use : RegisterPair → Outcome TrapCause}

theorem withPair_of_even (heven : r.val % 2 = 0) (use : RegisterPair → Outcome TrapCause) :
    ∃ pair : RegisterPair, pair.lower = r ∧ m.withPair r use = use pair := by
  refine ⟨⟨r, by omega⟩, rfl, ?_⟩
  unfold withPair RegisterPair.ofRegister?
  rw [dif_pos heven]

theorem withPair_of_odd (hodd : ¬ r.val % 2 = 0) :
    m.withPair r use = .trapped (.invalidOperand .oddRegister) m := by
  unfold withPair RegisterPair.ofRegister?
  rw [dif_neg hodd]

theorem eq_of_withPair_eq_trapped
    (huse : ∀ pair, r.val % 2 = 0 → use pair = .trapped cause after → after = m)
    (h : m.withPair r use = .trapped cause after) : after = m := by
  by_cases heven : r.val % 2 = 0
  · obtain ⟨pair, -, hpair⟩ := withPair_of_even (m := m) heven use
    rw [hpair] at h
    exact huse pair heven h
  · rw [withPair_of_odd heven] at h
    cases h
    rfl

end

theorem checkPair_of_aligned {access : Access} (haligned : address.toNat % 8 = 0) :
    m.checkPair access address = .done m := by
  unfold checkPair pairAligned
  rw [if_pos (by simp [haligned])]

theorem checkPair_of_misaligned {access : Access} (hmisaligned : ¬ address.toNat % 8 = 0) :
    m.checkPair access address = .trapped (.address ⟨access, address, .misalignedPair⟩) m := by
  unfold checkPair pairAligned
  rw [if_neg (by simpa using hmisaligned)]

/-- A load of a pair that is not divided traps before it writes. -/
theorem eq_of_loadPair_eq_trapped {pair : RegisterPair} (hsplits : ¬ m.memory.Splits address)
    (h : m.loadPair pair address = .trapped cause after) : after = m := by
  unfold loadPair at h
  by_cases haligned : address.toNat % 8 = 0
  · rw [checkPair_of_aligned haligned] at h
    cases hfirst : m.memory.load 4 address with
    | error e =>
      simp only [Outcome.andThen, load, Width.bytes, hfirst] at h
      cases h
      rfl
    | ok v =>
      cases hsecond : m.memory.load 4 (address + 4) with
      | error e =>
        exact absurd ((Memory.splits_iff_load haligned).2 ⟨⟨v, hfirst⟩, e, hsecond⟩) hsplits
      | ok _ =>
        simp only [Outcome.andThen, load, Width.bytes, hfirst, mapCpu, hsecond] at h
        cases h
  · rw [checkPair_of_misaligned haligned] at h
    cases h
    rfl

/-- A store of a pair that is not divided traps before it writes. -/
theorem eq_of_storePair_eq_trapped {pair : RegisterPair} (hsplits : ¬ m.memory.Splits address)
    (h : m.storePair pair address = .trapped cause after) : after = m := by
  unfold storePair at h
  by_cases haligned : address.toNat % 8 = 0
  · rw [checkPair_of_aligned haligned] at h
    cases hfirst : m.memory.store 4 address (m.cpu.s pair.lower) with
    | error e =>
      simp only [Outcome.andThen, store_eq, Width.bytes, hfirst] at h
      cases h
      rfl
    | ok memory =>
      cases hsecond : memory.store 4 (address + 4) (m.cpu.s pair.upper) with
      | error e =>
        exact absurd ((Memory.splits_iff_store haligned _ _).2 ⟨memory, hfirst, e, hsecond⟩)
          hsplits
      | ok _ =>
        simp only [Outcome.andThen, store_eq, Width.bytes, hfirst, hsecond] at h
        cases h
  · rw [checkPair_of_misaligned haligned] at h
    cases h
    rfl

/-- A load of a pair that is divided has loaded the first word. -/
theorem loadPair_of_splits (pair : RegisterPair) (h : m.memory.Splits address) :
    ∃ v, m.memory.load 4 address = .ok v ∧ m.loadPair pair address =
      .trapped (.address ⟨.load, address + 4, .outOfRange⟩)
        (m.mapCpu (Processor.setS pair.lower v)) := by
  obtain ⟨v, hv⟩ := Memory.load_of_maps (Memory.aligned_first h.aligned) h.first
  have hlast := Memory.load_of_not_maps (Memory.aligned_second h.aligned)
    ((Memory.splits_iff h.aligned h.first).1 h)
  refine ⟨v, hv, ?_⟩
  unfold loadPair
  rw [checkPair_of_aligned h.aligned]
  simp only [Outcome.andThen, load, Width.bytes, hv, mapCpu, hlast]

/-- A store of a pair that is divided has stored the first word. -/
theorem storePair_of_splits (pair : RegisterPair) (h : m.memory.Splits address) :
    ∃ memory, m.memory.store 4 address (m.cpu.s pair.lower) = .ok memory ∧
      m.storePair pair address =
        .trapped (.address ⟨.store, address + 4, .outOfRange⟩) { m with memory } := by
  obtain ⟨memory, hmemory, hsame⟩ :=
    Memory.store_of_maps (Memory.aligned_first h.aligned) h.first (m.cpu.s pair.lower)
  have hlast := Memory.store_of_not_maps (m := memory) (Memory.aligned_second h.aligned)
    (fun hmaps => (Memory.splits_iff h.aligned h.first).1 h ((hsame _ _).1 hmaps))
    (m.cpu.s pair.upper)
  refine ⟨memory, hmemory, ?_⟩
  unfold storePair
  rw [checkPair_of_aligned h.aligned]
  simp only [Outcome.andThen, store_eq, Width.bytes, hmemory, hlast]

end Machine

/-! ## Instructions -/

namespace Instruction

/-- The instruction accesses a pair of words that the end of the memory divides. -/
def Splits (m : Machine) : Instruction → Prop
  | floatLoad .double r n offset | floatStore .double r n offset =>
    r.val % 2 = 0 ∧ m.memory.Splits (m.cpu.effective n offset)
  | _ => False

variable {i : Instruction} {services : Registry} {m after : Machine} {cause : TrapCause}

/-- An instruction that traps has not written anything. -/
theorem eq_of_run_eq_trapped (hservice : i ≠ .service) (hsplits : ¬ i.Splits m)
    (h : i.run services m = .trapped cause after) : after = m := by
  cases i with
  | service => exact absurd rfl hservice
  | nop | transfer _ _ _ | shift _ _ _ _ | setAddress _ _ | logic _ _ _ _ _ => cases h
  | sum _ _ _ _ | moveWide _ _ _ _ =>
    unfold run at h
    dsimp only at h
    split at h <;> cases h
    rfl
  | sumFlags _ _ _ | product _ _ _ _ | quotient _ _ _ _ =>
    unfold run at h
    dsimp only at h
    split at h <;> cases h
  | load _ _ _ _ => exact Machine.eq_of_load_eq_trapped h
  | store _ _ _ _ => exact Machine.eq_of_store_eq_trapped h
  | storeExclusive t status n =>
    unfold run at h
    dsimp only at h
    cases hstore : m.store .word (m.cpu.x n) (m.cpu.x t) with
    | done _ | fault _ _ =>
      rw [hstore] at h
      cases h
    | trapped _ _ =>
      rw [hstore] at h
      cases h
      exact Machine.eq_of_store_eq_trapped hstore
  | floatOp op precision d n k =>
    cases precision with
    | single => cases h
    | double =>
      refine Machine.eq_of_withPair_eq_trapped (fun _ _ h => ?_) h
      refine Machine.eq_of_withPair_eq_trapped (fun _ _ h => ?_) h
      refine Machine.eq_of_withPair_eq_trapped (fun _ _ h => ?_) h
      cases h
  | floatCompare precision n k =>
    cases precision with
    | single => cases h
    | double =>
      refine Machine.eq_of_withPair_eq_trapped (fun _ _ h => ?_) h
      refine Machine.eq_of_withPair_eq_trapped (fun _ _ h => ?_) h
      cases h
  | floatLoad precision d n offset =>
    cases precision with
    | single => exact Machine.eq_of_load_eq_trapped h
    | double =>
      refine Machine.eq_of_withPair_eq_trapped (fun pair heven h => ?_) h
      exact Machine.eq_of_loadPair_eq_trapped (fun hpair => hsplits ⟨heven, hpair⟩) h
  | floatStore precision d n offset =>
    cases precision with
    | single => exact Machine.eq_of_store_eq_trapped h
    | double =>
      refine Machine.eq_of_withPair_eq_trapped (fun pair heven h => ?_) h
      exact Machine.eq_of_storePair_eq_trapped (fun hpair => hsplits ⟨heven, hpair⟩) h

section

open Operand

variable {action : Action} {ops : List Word}

theorem ofOperands_eq_service : ofOperands action ops = .ok .service ↔ action = .svc := by
  cases action <;> simp [ofOperands]

theorem ofOperands_eq_pairLoad {r n : Register} {offset : Word} :
    ofOperands action ops = .ok (.floatLoad .double r n offset) ↔
      action = .ldurd ∧ register ops 0 = .ok r ∧ register ops 1 = .ok n ∧
        ∃ v, word ops 2 = .ok v ∧ signExtendLow 16 v = offset := by
  cases action <;> simp [ofOperands]

theorem ofOperands_eq_pairStore {r n : Register} {offset : Word} :
    ofOperands action ops = .ok (.floatStore .double r n offset) ↔
      action = .sturd ∧ register ops 0 = .ok r ∧ register ops 1 = .ok n ∧
        ∃ v, word ops 2 = .ok v ∧ signExtendLow 16 v = offset := by
  cases action <;> simp [ofOperands]

end

end Instruction

/-! ## Steps -/

/-- The step calls a service that there is. -/
def Machine.EntersService (env : Environment) (m : Machine) : Prop :=
  ∃ d s, m.Reads env d ∧ d.descriptor.action = .svc ∧
    env.services.find? (m.cpu.x serviceRegister) = some s

/-- The operands name an even register, and a pair of words that the end of the memory divides. -/
structure Decoded.SplitsPair (d : Decoded) (m : Machine) (r : Register) (address : Word) :
    Prop where
  register : Operand.register d.operands 0 = .ok r
  effective : ∃ n v, Operand.register d.operands 1 = .ok n ∧ Operand.word d.operands 2 = .ok v ∧
    m.cpu.effective n (signExtendLow 16 v) = address
  even : r.val % 2 = 0
  splits : m.memory.Splits address

/-- What a step from `m` leaves behind if it traps. -/
structure Leftover (env : Environment) (m : Machine) (trap : Trap) (after : Machine) : Prop where
  pc : trap.pc = m.cpu.pc
  unread : (∀ d, ¬ m.Reads env d) → after = m
  text : ∀ d, m.Reads env d → d.print m.cpu.pc = .ok trap.instruction
  whole : ∀ d, m.Reads env d →
    (d.descriptor.action = .ldurd ∨ d.descriptor.action = .sturd →
      ∀ r address, ¬ d.SplitsPair m r address) → after = m.advancePc
  halfLoaded : ∀ d r address, m.Reads env d → d.descriptor.action = .ldurd →
    d.SplitsPair m r address →
    trap.cause = .address ⟨.load, address + 4, .outOfRange⟩ ∧
      ∃ v, m.memory.load 4 address = .ok v ∧
        after = m.advancePc.mapCpu (Processor.setS r v)
  halfStored : ∀ d r address, m.Reads env d → d.descriptor.action = .sturd →
    d.SplitsPair m r address →
    trap.cause = .address ⟨.store, address + 4, .outOfRange⟩ ∧
      ∃ memory, m.memory.store 4 address (m.cpu.s r) = .ok memory ∧
        after = { m.advancePc with memory }

section

variable {env : Environment} {m : Machine} {d : Decoded} {r : Register} {address : Word}

/-- A pair load of which only the first word is mapped loads that word and traps. -/
theorem step_halfLoaded (hreads : m.Reads env d) (haction : d.descriptor.action = .ldurd)
    (h : d.SplitsPair m r address) :
    ∃ v, m.memory.load 4 address = .ok v ∧ step env m =
      d.trap m.cpu.pc (.address ⟨.load, address + 4, .outOfRange⟩)
        (m.advancePc.mapCpu (Processor.setS r v)) := by
  obtain ⟨w, hfetch, hdecode⟩ := hreads
  obtain ⟨hr, ⟨n, v, hn, hv, rfl⟩, heven, hsplits⟩ := h
  obtain ⟨pair, rfl, hpair⟩ := Machine.withPair_of_even (m := m.advancePc) heven
    (m.advancePc.loadPair · (m.advancePc.cpu.effective n (signExtendLow 16 v)))
  obtain ⟨x, hx, hload⟩ := Machine.loadPair_of_splits (m := m.advancePc) pair hsplits
  have hi := Instruction.ofOperands_eq_pairLoad.2 ⟨haction, hr, hn, v, hv, rfl⟩
  refine ⟨x, hx, step_of_trapped_run ⟨w, hfetch, hdecode⟩ hi ?_⟩
  exact hpair.trans hload

/-- A pair store of which only the first word is mapped stores that word and traps. -/
theorem step_halfStored (hreads : m.Reads env d) (haction : d.descriptor.action = .sturd)
    (h : d.SplitsPair m r address) :
    ∃ memory, m.memory.store 4 address (m.cpu.s r) = .ok memory ∧ step env m =
      d.trap m.cpu.pc (.address ⟨.store, address + 4, .outOfRange⟩)
        { m.advancePc with memory } := by
  obtain ⟨w, hfetch, hdecode⟩ := hreads
  obtain ⟨hr, ⟨n, v, hn, hv, rfl⟩, heven, hsplits⟩ := h
  obtain ⟨pair, rfl, hpair⟩ := Machine.withPair_of_even (m := m.advancePc) heven
    (m.advancePc.storePair · (m.advancePc.cpu.effective n (signExtendLow 16 v)))
  obtain ⟨memory, hmemory, hstore⟩ :=
    Machine.storePair_of_splits (m := m.advancePc) pair hsplits
  have hi := Instruction.ofOperands_eq_pairStore.2 ⟨haction, hr, hn, v, hv, rfl⟩
  refine ⟨memory, hmemory, step_of_trapped_run ⟨w, hfetch, hdecode⟩ hi ?_⟩
  exact hpair.trans hstore

/-- Every other trap leaves the machine as it was, behind the instruction. -/
theorem eq_advancePc_of_step {trap : Trap} {after : Machine} (hreads : m.Reads env d)
    (hservice : ¬ m.EntersService env)
    (hsplits : d.descriptor.action = .ldurd ∨ d.descriptor.action = .sturd →
      ∀ r address, ¬ d.SplitsPair m r address)
    (hstep : step env m = .trapped trap after) : after = m.advancePc := by
  obtain ⟨w, hfetch, hdecode⟩ := hreads
  obtain ⟨i, cause, hi, hrun, -⟩ := (step_eq_trapped hfetch hdecode).1 hstep
  by_cases hsvc : i = .service
  · subst hsvc
    have haction := Instruction.ofOperands_eq_service.1 hi
    unfold Instruction.run Registry.dispatch at hrun
    dsimp only at hrun
    cases hfind : env.services.find? (m.advancePc.cpu.x serviceRegister) with
    | none =>
      rw [hfind] at hrun
      cases hrun
      rfl
    | some s => exact absurd ⟨d, s, ⟨w, hfetch, hdecode⟩, haction, hfind⟩ hservice
  · refine Instruction.eq_of_run_eq_trapped hsvc (fun hdivided => ?_) hrun
    unfold Instruction.Splits at hdivided
    split at hdivided
    · obtain ⟨haction, hr, hn, v, hv, rfl⟩ := Instruction.ofOperands_eq_pairLoad.1 hi
      exact hsplits (.inl haction) _ _ ⟨hr, ⟨_, v, hn, hv, rfl⟩, hdivided.1, hdivided.2⟩
    · obtain ⟨haction, hr, hn, v, hv, rfl⟩ := Instruction.ofOperands_eq_pairStore.1 hi
      exact hsplits (.inr haction) _ _ ⟨hr, ⟨_, v, hn, hv, rfl⟩, hdivided.1, hdivided.2⟩
    · exact hdivided

theorem leftover_of_step {trap : Trap} {after : Machine} (hservice : ¬ m.EntersService env)
    (hstep : step env m = .trapped trap after) : Leftover env m trap after := by
  have hread : ∀ d, m.Reads env d → d.descriptor.isReadable = true ∧
      ∃ cause, ⟨m.cpu.pc, d.text m.cpu.pc, cause⟩ = trap := by
    rintro d ⟨w, hfetch, hdecode⟩
    obtain ⟨_, cause, -, -, hreadable, htrap⟩ := (step_eq_trapped hfetch hdecode).1 hstep
    exact ⟨hreadable, cause, htrap⟩
  have hunread : (∃ d, m.Reads env d) ∨ trap.pc = m.cpu.pc ∧ after = m := by
    rcases reads_or_trapped env m with hreads | ⟨_, htrap, hpc⟩
    · exact .inl hreads
    · rw [htrap] at hstep
      cases hstep
      exact .inr ⟨hpc, rfl⟩
  constructor
  case pc =>
    rcases hunread with ⟨d, hreads⟩ | ⟨hpc, -⟩
    · obtain ⟨-, _, rfl⟩ := hread d hreads
      rfl
    · exact hpc
  case unread =>
    intro hnot
    rcases hunread with ⟨d, hreads⟩ | ⟨-, hsame⟩
    · exact absurd hreads (hnot d)
    · exact hsame
  case text =>
    intro d hreads
    obtain ⟨hreadable, _, rfl⟩ := hread d hreads
    exact Decoded.print_of_isReadable hreadable m.cpu.pc
  case whole =>
    intro d hreads hsplits
    exact eq_advancePc_of_step hreads hservice hsplits hstep
  case halfLoaded =>
    intro d r address hreads haction hsplits
    obtain ⟨v, hv, hhalf⟩ := step_halfLoaded hreads haction hsplits
    obtain ⟨-, rfl, rfl⟩ := Decoded.trap_eq_trapped.1 (hhalf.symm.trans hstep)
    exact ⟨rfl, v, hv, rfl⟩
  case halfStored =>
    intro d r address hreads haction hsplits
    obtain ⟨memory, hmemory, hhalf⟩ := step_halfStored hreads haction hsplits
    obtain ⟨-, rfl, rfl⟩ := Decoded.trap_eq_trapped.1 (hhalf.symm.trans hstep)
    exact ⟨rfl, memory, hmemory, rfl⟩

end

/-- What is left behind by a trap, unless a service was called: the machine behind the instruction,
with the first word of a pair that the end of the memory divides. -/
theorem step_leftover (env : Environment) (m : Machine) :
    (∀ trap after, step env m = .trapped trap after → ¬ m.EntersService env →
      Leftover env m trap after) ∧
    (∀ d r address, m.Reads env d →
      d.descriptor.action = .ldurd ∨ d.descriptor.action = .sturd →
      d.SplitsPair m r address →
      (∃ cause after, step env m = d.trap m.cpu.pc cause after) ∧
      (d.descriptor.isReadable = true → ∃ trap after, step env m = .trapped trap after)) ∧
    ∀ address : Word, address.toNat % 8 = 0 →
      (m.memory.Splits address ↔ (∃ v, m.memory.load 4 address = .ok v) ∧
        ∃ e, m.memory.load 4 (address + 4) = .error e) ∧
      ∀ low high, m.memory.Splits address ↔
        ∃ memory, m.memory.store 4 address low = .ok memory ∧
          ∃ e, memory.store 4 (address + 4) high = .error e := by
  refine ⟨fun trap after hstep hservice => leftover_of_step hservice hstep, ?_, ?_⟩
  · intro d r address hreads hpair hsplits
    have htrap : ∃ cause after, step env m = d.trap m.cpu.pc cause after := by
      rcases hpair with haction | haction
      · obtain ⟨v, -, hhalf⟩ := step_halfLoaded hreads haction hsplits
        exact ⟨_, _, hhalf⟩
      · obtain ⟨memory, -, hhalf⟩ := step_halfStored hreads haction hsplits
        exact ⟨_, _, hhalf⟩
    refine ⟨htrap, fun hreadable => ?_⟩
    obtain ⟨cause, after, hstep⟩ := htrap
    exact ⟨_, after, hstep.trans (Decoded.trap_of_isReadable hreadable _ cause after)⟩
  · intro address haligned
    exact ⟨Memory.splits_iff_load haligned, Memory.splits_iff_store haligned⟩

theorem decode?_pairLoad :
    instructionSet.decode? 0xD45F0000 =
      some ⟨Catalog.floatingPoint[9], [2, 31, 0], 0xD45F0000⟩ := by
  let e : Encoding := ⟨0xFC000000, 0xD4000000, [⟨'d', [25, 24, 23, 22, 21]⟩,
    ⟨'n', [20, 19, 18, 17, 16]⟩, ⟨'i', (List.range 16).reverse⟩]⟩
  have hcompile : Catalog.floatingPoint[9].template.compile = .ok e := rfl
  exact decode?_of_compile (by simp [catalog]) hcompile (by decide) fun _ => by decide

/-- A pair is loaded from the only word of the memory, which is the instruction. -/
theorem step_leftover_pairLoad :
    let env : Environment := ⟨instructionSet.decode?, .empty⟩
    let m : Machine := ⟨.initial ⟨false⟩, ⟨⟨#[0, 0, 0x5F, 0xD4]⟩, 0⟩, ""⟩
    let d : Decoded := ⟨Catalog.floatingPoint[9], [2, 31, 0], 0xD45F0000⟩
    m.Reads env d ∧ d.descriptor.action = .ldurd ∧ d.SplitsPair m 2 0 ∧
      ¬ m.EntersService env ∧ ∃ trap after, step env m = .trapped trap after ∧
        trap.pc = 0 ∧ trap.instruction = "LDURD D2,[X31,0]" ∧ after.cpu.pc = 4 ∧
        after.cpu.s 2 = 0xD45F0000 ∧ after.cpu.s 3 = 0 := by
  intro env m d
  have hfetch : m.memory.load 4 m.cpu.pc = .ok d.word := by decide
  have hdecode : env.decode d.word = some d := by
    dsimp only [env, d]
    exact decode?_pairLoad
  have hreads : m.Reads env d := ⟨d.word, hfetch, hdecode⟩
  have hpair : d.SplitsPair m 2 0 :=
    ⟨rfl, ⟨31, 0, rfl, rfl, by decide⟩, by decide, by decide, ⟨by decide, by decide⟩, by decide⟩
  have hservice : ¬ m.EntersService env := by
    rintro ⟨_, _, -, -, hfind⟩
    cases hfind
  obtain ⟨hleft, htraps, -⟩ := step_leftover env m
  obtain ⟨⟨cause, after, hstep⟩, -⟩ := htraps d 2 0 hreads (.inl rfl) hpair
  rw [Decoded.trap_of_isReadable (isReadable_of_decode? decode?_pairLoad)] at hstep
  have hleftover := hleft _ after hstep hservice
  obtain ⟨-, v, hv, hafter⟩ := hleftover.halfLoaded d 2 0 hreads rfl hpair
  have hword : v = d.word := Except.ok.inj (hv.symm.trans hfetch)
  have htext : d.text m.cpu.pc = "LDURD D2,[X31,0]" := by decide +kernel
  rw [hword] at hafter
  refine ⟨hreads, rfl, hpair, hservice, _, after, hstep, hleftover.pc, htext, ?_, ?_, ?_⟩
  · rw [hafter]
    rfl
  · rw [hafter]
    exact Processor.s_setS 2 2 d.word m.advancePc.cpu
  · rw [hafter]
    exact Processor.s_setS 2 3 d.word m.advancePc.cpu

end LegMachine
