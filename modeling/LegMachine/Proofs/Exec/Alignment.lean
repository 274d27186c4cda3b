import LegMachine.Proofs.Exec.DelayedBranching
import LegMachine.Proofs.Exec.Safety
import LegMachine.Proofs.Machine.Memory

/-!
# Where control can go

The program counter and the target in the delay slot stay multiples of four (`aligned_step`,
`aligned_afterSteps`), as long as no service is called and no register with another address is
jumped to. So the fetch of an instruction can fail in one way only, beyond the memory. The target
that a transfer sets lies in the region of the next word, or as many words away as the field of the
instruction says (`Decoded.LeadsTo`, `exists_target`).
-/

namespace LegMachine

/-- The program counter, and the target that waits if there is one, are multiples of four. -/
structure Processor.Aligned (p : Processor) : Prop where
  pc : p.pc.toNat % 4 = 0
  pending : ∀ target, p.delay.pending? = some target → target.toNat % 4 = 0

/-- The instruction at the program counter calls no service, and is no jump to a register that holds
another address than a multiple of four. -/
def Machine.JumpsAligned (env : Environment) (m : Machine) : Prop :=
  ∀ d, m.Reads env d → d.descriptor.action ≠ .svc ∧
    ∀ n, d.descriptor.action = .br → Operand.register d.operands 0 = .ok n →
      (m.cpu.x n).toNat % 4 = 0

/-- The last operand, as the signed number that its field holds. -/
def Decoded.displacement (d : Decoded) : Int :=
  ((d.operands.getLastD 0).setWidth (d.descriptor.fieldWidths.getLastD 0)).toInt

/-- Where a transfer at the program counter may lead: to a word of the region that the next
instruction is in, so many words from the instruction itself or from the next one, or to the address
in a register. -/
def Decoded.LeadsTo (d : Decoded) (p : Processor) (target : Word) : Prop :=
  match d.descriptor.action with
  | .b | .bl | .bCond _ =>
    target.toNat / 2 ^ 28 = (p.pc + 4).toNat / 2 ^ 28 ∧
      target.toNat % 2 ^ 28 = 4 * (d.operands.getLastD 0).toNat
  | .bRel | .cbzRel | .cbnzRel => target = BitVec.ofInt 32 (p.pc.toNat + 4 * d.displacement)
  | .cbz | .cbnz => target = BitVec.ofInt 32 (p.pc.toNat + 4 + 4 * d.displacement)
  | .br => ∃ n, Operand.register d.operands 0 = .ok n ∧ target = p.x n
  | _ => False

/-! ## Multiples of four -/

theorem aligned_next {pc : Word} (h : pc.toNat % 4 = 0) :
    (pc + instructionLength).toNat % 4 = 0 := by
  have hnext : (pc + instructionLength).toNat = (pc.toNat + 4) % 2 ^ 32 := BitVec.toNat_add pc 4
  omega

theorem aligned_shiftLeft (v : Word) : (v <<< 2).toNat % 4 = 0 := by
  rw [BitVec.toNat_shiftLeft, Nat.shiftLeft_eq]
  omega

theorem aligned_branchTarget {pc : Word} (h : pc.toNat % 4 = 0) (v : Word) :
    (branchTarget pc v).toNat % 4 = 0 := by
  have hshift := aligned_shiftLeft v
  rw [branchTarget, BitVec.toNat_add]
  omega

theorem aligned_relativeTarget {pc : Word} (h : pc.toNat % 4 = 0) (v : Word) :
    (relativeTarget pc v).toNat % 4 = 0 := by
  have hsum := aligned_branchTarget h v
  have hlength : instructionLength.toNat = 4 := rfl
  unfold relativeTarget
  rw [BitVec.toNat_sub, hlength]
  omega

theorem aligned_regionTarget (pc field : Word) : (regionTarget pc field).toNat % 4 = 0 := by
  have hregion : (pc &&& 0xF0000000#32).toNat % 2 ^ 2 = 0 := by
    rw [toNat_region]
    omega
  have hshift : (field <<< 2).toNat % 2 ^ 2 = 0 := aligned_shiftLeft field
  show (pc &&& 0xF0000000#32 ||| field <<< 2).toNat % 2 ^ 2 = 0
  rw [BitVec.toNat_or, Nat.or_mod_two_pow, hregion, hshift]
  rfl

/-! ## The processor -/

namespace Processor

variable {p q : Processor}

theorem Aligned.of_kept (h : p.Aligned) (hpc : q.pc = p.pc) (hslot : q.delay = p.delay) :
    q.Aligned where
  pc := by rw [hpc, h.pc]
  pending := by
    rw [hslot]
    exact h.pending

theorem Aligned.setX (h : p.Aligned) (r : Register) (v : Word) : (p.setX r v).Aligned := by
  refine h.of_kept ?_ (delay_setX r v p)
  unfold Processor.setX
  split <;> rfl

theorem Aligned.jump (h : p.Aligned) {target : Word} (htarget : target.toNat % 4 = 0) :
    (p.jump target).Aligned := by
  unfold Processor.jump
  split
  · refine ⟨h.pc, fun t ht => ?_⟩
    obtain rfl : target = t := Option.some.inj ht
    exact htarget
  · exact ⟨htarget, h.pending⟩

theorem Aligned.transfer (h : p.Aligned) {test : Test} {target : Target} (link : Bool)
    (htarget : (target.address p).toNat % 4 = 0) : (p.transfer test target link).Aligned := by
  unfold Processor.transfer
  split
  · cases link with
    | false => exact h.jump htarget
    | true => exact (h.setX linkRegister _).jump htarget
  · exact h

theorem Aligned.settle (h : p.Aligned) : p.settle.Aligned := by
  obtain ⟨pc, flags, integers, floats, delay, halted, config⟩ := p
  cases delay with
  | empty => exact h
  | registered t => exact ⟨h.pc, h.pending⟩
  | triggered t => exact ⟨h.pending t rfl, nofun⟩

end Processor

/-! ## Steps -/

section

variable {env : Environment} {m : Machine}

theorem Instruction.ofOperands_eq_jumpRegister {action : Action} {ops : List Word} {test : Test}
    {link : Bool} {n : Register}
    (h : ofOperands action ops = .ok (.transfer test (.register n) link)) :
    action = .br ∧ Operand.register ops 0 = .ok n := by
  cases action <;> simp_all [ofOperands]

/-- A step, however it ends, goes on at a multiple of four if it begins at one. -/
theorem aligned_step (h : m.cpu.Aligned) (hjumps : m.JumpsAligned env) :
    (step env m).machine.cpu.Aligned := by
  rcases reads_or_trapped env m with ⟨d, hreads⟩ | ⟨trap, htrap, -⟩
  · obtain ⟨hservice, hregister⟩ := hjumps d hreads
    obtain ⟨w, hfetch, hdecode⟩ := hreads
    have hnext : m.advancePc.cpu.Aligned := ⟨aligned_next h.pc, h.pending⟩
    rw [step_eq hfetch hdecode, Decoded.machine_report, executeAndSettle, execute]
    cases hi : Instruction.ofOperands d.descriptor.action d.operands with
    | error f => exact hnext
    | ok i =>
      dsimp only
      have hrun : (i.run env.services m.advancePc).machine.cpu.Aligned := by
        cases Instruction.control_of_operands hi with
        | service h => exact absurd h hservice
        | straight hstraight =>
          obtain ⟨hpc, hslot, -⟩ :=
            Instruction.run_keeps_control hstraight env.services m.advancePc
          exact hnext.of_kept hpc hslot
        | @transfer test target link _ _ =>
          refine hnext.transfer link ?_
          cases target with
          | region field => exact aligned_regionTarget _ field
          | fromHere k => exact aligned_relativeTarget hnext.pc k
          | fromNext k => exact aligned_branchTarget hnext.pc k
          | register n =>
            obtain ⟨hbr, hn⟩ := Instruction.ofOperands_eq_jumpRegister hi
            exact hregister n hbr hn
      cases hexec : i.run env.services m.advancePc with
      | done after =>
        rw [hexec] at hrun
        exact hrun.settle
      | trapped _ _ | fault _ _ =>
        rw [hexec] at hrun
        exact hrun
  · rw [htrap]
    exact h

theorem Machine.jumpsAligned_of_reads {d : Decoded} (hreads : m.Reads env d)
    (hservice : d.descriptor.action ≠ .svc) (hregister : d.descriptor.action ≠ .br) :
    m.JumpsAligned env := by
  intro d' hreads'
  rw [hreads.unique hreads']
  exact ⟨hservice, fun _ hbr => absurd hbr hregister⟩

theorem aligned_afterSteps {n : Nat} (h : m.cpu.Aligned)
    (hjumps : ∀ k < n, (afterSteps env k m).JumpsAligned env) :
    ∀ k ≤ n, (afterSteps env k m).cpu.Aligned := by
  intro k hk
  induction k with
  | zero => exact h
  | succ k ih =>
    rw [afterSteps_succ]
    exact aligned_step (ih (by omega)) (hjumps k (by omega))

end

/-! ## Targets -/

/-- A target has at most 26 bits, and a displacement is read from the whole of its field. -/
theorem catalogEntries_targets : ∀ e ∈ catalogEntries,
    (e.descriptor.action.operandKinds = [.target] →
      e.descriptor.fieldWidths.getLastD 0 ≤ 26) ∧
    (e.descriptor.action ∈ [.bRel, .cbz, .cbnz, .cbzRel, .cbnzRel] →
      e.descriptor.action.operandKinds.getLast? =
        some (.immediate (e.descriptor.fieldWidths.getLastD 0))) := by
  decide +kernel

theorem shiftLeft_signExtendLow (width : Nat) (v : Word) :
    signExtendLow width v <<< 2 = BitVec.ofInt 32 (4 * (v.setWidth width).toInt) := by
  rw [BitVec.shiftLeft_eq_mul_twoPow, Int.mul_comm, BitVec.ofInt_mul]
  rfl

/-- So many words from the next instruction. -/
theorem branchTarget_displacement (pc : Word) (width : Nat) (v : Word) :
    branchTarget (pc + instructionLength) (signExtendLow width v) =
      BitVec.ofInt 32 (pc.toNat + 4 + 4 * (v.setWidth width).toInt) := by
  rw [branchTarget, shiftLeft_signExtendLow, BitVec.ofInt_add, BitVec.ofInt_add,
    BitVec.ofInt_natCast, BitVec.ofNat_toNat, BitVec.setWidth_eq]
  rfl

/-- So many words from the instruction itself. -/
theorem relativeTarget_displacement (pc : Word) (width : Nat) (v : Word) :
    relativeTarget (pc + instructionLength) (signExtendLow width v) =
      BitVec.ofInt 32 (pc.toNat + 4 * (v.setWidth width).toInt) := by
  have hlength : instructionLength = BitVec.ofInt 32 4 := rfl
  unfold relativeTarget
  rw [branchTarget_displacement, hlength, BitVec.sub_eq_add_neg, ← BitVec.ofInt_neg,
    ← BitVec.ofInt_add]
  congr 1
  omega

namespace OperandKind

theorem admitsAll_one {k : OperandKind} {widths : List Nat} {ops : List Word}
    (h : AdmitsAll [k] widths ops) : ∃ n v, widths = [n] ∧ ops = [v] ∧ k.Admits n v := by
  obtain _ | ⟨hv, _ | _⟩ := h
  exact ⟨_, _, rfl, rfl, hv⟩

theorem admitsAll_two {k l : OperandKind} {widths : List Nat} {ops : List Word}
    (h : AdmitsAll [k, l] widths ops) : ∃ n n' v v', widths = [n, n'] ∧ ops = [v, v'] := by
  obtain _ | ⟨-, _ | ⟨-, _ | _⟩⟩ := h
  exact ⟨_, _, _, _, rfl, rfl⟩

end OperandKind

section

open Operand OperandKind

variable {d : Decoded} {w : Word} {p : Processor} {test : Test} {target : Target} {link : Bool}

/-- The target of a transfer that is decoded is where it may lead. -/
theorem leadsTo_of_operands (hdecode : instructionSet.decode? w = some d)
    (hi : Instruction.ofOperands d.descriptor.action d.operands =
      .ok (.transfer test target link)) :
    d.LeadsTo p (target.address (p.setPc (p.pc + instructionLength))) := by
  have hadmits := admits_of_decode? hdecode
  obtain ⟨e, he, -, hd⟩ := exists_of_decode? hdecode
  obtain ⟨htarget, hwidth⟩ := catalogEntries_targets e he
  rw [show e.descriptor = d.descriptor by rw [hd]; rfl] at htarget hwidth
  unfold Descriptor.Admits at hadmits
  unfold Decoded.LeadsTo Decoded.displacement
  cases haction : d.descriptor.action with
  | b | bl | bCond =>
    rw [haction] at hadmits htarget hi
    obtain ⟨n, v, hwidths, hops, hv⟩ := admitsAll_one hadmits
    rw [hops] at hi ⊢
    obtain ⟨_, ⟨⟩, ⟨⟩⟩ := immediate_eq_ok.1 hi
    have hn : n ≤ 26 := by simpa [hwidths] using htarget rfl
    have hfield : v.toNat < 2 ^ 26 :=
      Nat.lt_of_lt_of_le hv (Nat.pow_le_pow_right (by decide) hn)
    have haddress := toNat_regionTarget (p.pc + 4) hfield
    show (regionTarget (p.pc + 4) v).toNat / 2 ^ 28 = _ ∧
      (regionTarget (p.pc + 4) v).toNat % 2 ^ 28 = 4 * v.toNat
    omega
  | bRel =>
    rw [haction] at hadmits hwidth hi
    obtain ⟨n, v, hwidths, hops, -⟩ := admitsAll_one hadmits
    rw [hops] at hi ⊢
    rw [hwidths] at hwidth ⊢
    obtain ⟨_, ⟨⟩, ⟨⟩⟩ := immediate_eq_ok.1 hi
    obtain ⟨⟩ := hwidth (by decide)
    exact relativeTarget_displacement p.pc 26 v
  | cbz | cbnz =>
    rw [haction] at hadmits hwidth hi
    obtain ⟨n, n', v, v', hwidths, hops⟩ := admitsAll_two hadmits
    rw [hops] at hi ⊢
    rw [hwidths] at hwidth ⊢
    obtain ⟨_, -, _, ⟨⟩, ⟨⟩⟩ := oneImmediate_eq_ok.1 hi
    obtain ⟨⟩ := hwidth (by decide)
    exact branchTarget_displacement p.pc 16 v'
  | cbzRel | cbnzRel =>
    rw [haction] at hadmits hwidth hi
    obtain ⟨n, n', v, v', hwidths, hops⟩ := admitsAll_two hadmits
    rw [hops] at hi ⊢
    rw [hwidths] at hwidth ⊢
    obtain ⟨_, -, _, ⟨⟩, ⟨⟩⟩ := oneImmediate_eq_ok.1 hi
    obtain ⟨⟩ := hwidth (by decide)
    exact relativeTarget_displacement p.pc 16 v'
  | br =>
    rw [haction] at hi
    obtain ⟨n, hn, ⟨⟩⟩ := one_eq_ok.1 hi
    exact ⟨n, hn, rfl⟩
  | _ => simp [haction, Instruction.ofOperands] at hi

/-- A transfer that takes place is done, and jumps to where it may lead. -/
theorem exists_target {services : Registry} {m : Machine}
    (hreads : m.Reads ⟨instructionSet.decode?, services⟩ d)
    (htaken : d.descriptor.action.Transfers d.operands m.cpu) :
    ∃ target, d.LeadsTo m.cpu target ∧ step ⟨instructionSet.decode?, services⟩ m =
      .done (m.advancePc.mapCpu fun p =>
        ((if d.descriptor.action = .bl then p.linkReturn linkRegister else p).jump
          target).settle) := by
  obtain ⟨w, -, hdecode⟩ := id hreads
  dsimp only at hdecode
  obtain ⟨i, hi⟩ := exists_ofOperands_of_decode? hdecode
  cases Instruction.control_of_operands hi with
  | service haction =>
    rw [haction] at htaken
    exact htaken.elim
  | straight _ huntaken => exact absurd htaken (huntaken m.cpu)
  | @transfer test target link hlink hholds =>
    have hnext : test.holds m.advancePc.cpu = true :=
      (test.holds_withControl m.cpu _ m.cpu.delay m.cpu.config).trans ((hholds m.cpu).2 htaken)
    have hjump : m.advancePc.cpu.transfer test target link =
        (if d.descriptor.action = .bl then m.advancePc.cpu.linkReturn linkRegister
          else m.advancePc.cpu).jump (target.address m.advancePc.cpu) := by
      unfold Processor.transfer
      rw [if_pos hnext]
      simp only [hlink]
    refine ⟨_, leadsTo_of_operands hdecode hi, ?_⟩
    rw [step_of_run hreads hi rfl]
    exact congrArg (fun p => Outcome.done { m.advancePc with cpu := p.settle }) hjump

end

/-- Without services and jumps to other addresses, control stays at multiples of four however long
the machine steps, and every transfer leads where its field says. -/
theorem control_aligned (services : Registry) :
    let env : Environment := ⟨instructionSet.decode?, services⟩
    (∀ (m : Machine) (n : Nat), m.cpu.Aligned →
      (∀ k < n, (afterSteps env k m).JumpsAligned env) →
      ∀ k ≤ n, (afterSteps env k m).cpu.Aligned ∧
        ∀ e, (afterSteps env k m).memory.load 4 (afterSteps env k m).cpu.pc = .error e →
          e = ⟨.load, (afterSteps env k m).cpu.pc, .outOfRange⟩) ∧
    ∀ m d, m.Reads env d → d.descriptor.action.Transfers d.operands m.cpu →
      ∃ target, d.LeadsTo m.cpu target ∧ step env m = .done (m.advancePc.mapCpu fun p =>
        ((if d.descriptor.action = .bl then p.linkReturn linkRegister else p).jump
          target).settle) := by
  intro env
  refine ⟨fun m n h hjumps k hk => ?_, fun m d => exists_target⟩
  have haligned := aligned_afterSteps h hjumps k hk
  refine ⟨haligned, fun e he => ?_⟩
  by_cases hmaps : (afterSteps env k m).memory.Maps 4 (afterSteps env k m).cpu.pc
  · obtain ⟨w, hw⟩ := Memory.load_of_maps haligned.pc hmaps
    rw [hw] at he
    cases he
  · rw [Memory.load_of_not_maps haligned.pc hmaps] at he
    cases he
    rfl

theorem decode?_branchBack :
    instructionSet.decode? 0x07E1FFFF = some ⟨Catalog.control[7], [31, 0xFFFF], 0x07E1FFFF⟩ := by
  let e : Encoding := ⟨0xFC1F0000, 0x04010000, [⟨'n', [25, 24, 23, 22, 21]⟩,
    ⟨'i', (List.range 16).reverse⟩]⟩
  have hcompile : Catalog.control[7].template.compile = .ok e := rfl
  exact decode?_of_compile (by simp [catalog]) hcompile (by decide) fun _ => by decide

/-- A branch to itself, taken behind its delay slot, comes back after two steps. -/
theorem control_aligned_branchBack :
    let env : Environment := ⟨instructionSet.decode?, .empty⟩
    let m : Machine :=
      ⟨Processor.initial ⟨true⟩, ⟨⟨#[0xFF, 0xFF, 0xE1, 0x07, 0, 0, 0, 0]⟩, 0⟩, ""⟩
    let d : Decoded := ⟨Catalog.control[7], [31, 0xFFFF], 0x07E1FFFF⟩
    m.cpu.Aligned ∧ (∀ k < 2, (afterSteps env k m).JumpsAligned env) ∧ m.Reads env d ∧
      d.descriptor.action.Transfers d.operands m.cpu ∧ d.displacement = -1 ∧
      (afterSteps env 1 m).cpu.delay = .triggered 0 ∧ (afterSteps env 2 m).cpu.Aligned := by
  obtain ⟨hkept, htargets⟩ := control_aligned .empty
  obtain ⟨e, -, hnop, hidle⟩ := decode?_zero
  have hword := decode?_branchBack
  -- all that matters of the decoder is what it reads in the two words
  generalize instructionSet.decode? = decode at hkept htargets hidle hword ⊢
  intro env m d
  have haligned : m.cpu.Aligned := ⟨rfl, nofun⟩
  have hfetch : m.memory.load 4 m.cpu.pc = .ok d.word := by decide
  have hreads : m.Reads env d := ⟨d.word, hfetch, hword⟩
  have htaken : d.descriptor.action.Transfers d.operands m.cpu := ⟨31, rfl, rfl⟩
  have hdisplacement : d.displacement = -1 := by decide +kernel
  obtain ⟨target, hleads, hstep⟩ := htargets m d hreads htaken
  obtain rfl : target = 0 := by
    have hback : target = BitVec.ofInt 32 (0 + 4 + 4 * d.displacement) := hleads
    rw [hback, hdisplacement]
    rfl
  have hfirst : (afterSteps env 1 m).memory = m.memory ∧ (afterSteps env 1 m).cpu.pc = 4 ∧
      (afterSteps env 1 m).cpu.delay = .triggered 0 := by
    rw [afterSteps_succ, afterSteps_zero, hstep]
    exact ⟨rfl, rfl, rfl⟩
  have hjumps : ∀ k < 2, (afterSteps env k m).JumpsAligned env := by
    intro k hk
    match k with
    | 0 => exact Machine.jumpsAligned_of_reads hreads nofun nofun
    | 1 =>
      have hnext : (afterSteps env 1 m).Reads env (e.decode 0) := by
        refine ⟨0, ?_, hidle⟩
        rw [hfirst.1, hfirst.2.1]
        decide
      refine Machine.jumpsAligned_of_reads hnext ?_ ?_ <;>
        exact fun h => Action.noConfusion (hnop.symm.trans h)
  exact ⟨haligned, hjumps, hreads, htaken, hdisplacement, hfirst.2.2,
    (hkept m 2 haligned hjumps 2 (by omega)).1⟩

end LegMachine
