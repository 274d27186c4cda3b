import LegMachine.Proofs.Exec.DelayedBranching
import LegMachine.Proofs.Exec.ZeroRegister
import LegMachine.Proofs.Isa.Lossless
import Mathlib.Data.Finset.Dedup
import Mathlib.Data.Finset.Card

/-!
# Calls of services

A registry answers for each number with the service that was registered last under it, and counts
every number once (`reflects_ofList`). A call runs that service behind the advanced program counter
and ends as the service does, with all that it has done; the delay slot advances only if the service
succeeds (`step_of_call`). So a service that jumps and then fails leaves its target registered
(`Machine.LastJumpsTo.delay_eq`). It is triggered by the next step that is done without a jump, for
steps that trap leave the slot alone (`delay_of_done`, `delay_of_trapped`).
-/

namespace LegMachine

/-! ## Registrations -/

/-- The service that was registered last among those with a number. -/
def lastRegistered? (services : List Service) (number : Word) : Option Service :=
  (services.filter (·.number == number)).getLast?

namespace Registry

/-- What a registry holds after some registrations: one service for every number among them. -/
structure Reflects (r : Registry) (services : List Service) : Prop where
  find : ∀ number, r.find? number = lastRegistered? services number
  nodup : (r.services.map Service.number).Nodup
  numbers : ∀ number, number ∈ r.services.map Service.number ↔
    number ∈ services.map Service.number

theorem find?_register (r : Registry) (s : Service) (number : Word) :
    (r.register s).find? number = if s.number = number then some s else r.find? number := by
  unfold register find?
  rw [List.find?_cons]
  split
  · next h => rw [if_pos (beq_iff_eq.1 h)]
  · next h =>
    have hne : s.number ≠ number := by simpa using h
    rw [if_neg hne, List.find?_filter]
    congr 1
    funext a
    by_cases ha : a.number = number
    · simp [ha, Ne.symm hne]
    · simp [ha]

theorem numbers_register (r : Registry) (s : Service) :
    (r.register s).services.map Service.number =
      s.number :: (r.services.map Service.number).filter (· != s.number) := by
  rw [List.filter_map]
  rfl

theorem reflects_empty : empty.Reflects [] :=
  ⟨fun _ => rfl, List.nodup_nil, fun _ => Iff.rfl⟩

theorem Reflects.register {r : Registry} {services : List Service} (h : r.Reflects services)
    (s : Service) : (r.register s).Reflects (services ++ [s]) where
  find number := by
    rw [find?_register, h.find, lastRegistered?, lastRegistered?, List.filter_append]
    by_cases hs : s.number = number <;> simp [hs]
  nodup := by
    rw [numbers_register]
    exact List.nodup_cons.2 ⟨by simp, h.nodup.filter _⟩
  numbers number := by
    rw [numbers_register, List.mem_cons, List.mem_filter, h.numbers, List.map_append,
      List.mem_append]
    by_cases hs : number = s.number <;> simp [hs]

theorem reflects_ofList (services : List Service) : (ofList services).Reflects services := by
  induction services using List.reverseRecOn with
  | nil => exact reflects_empty
  | append_singleton services s ih =>
    rw [ofList, List.foldl_append]
    exact ih.register s

theorem Reflects.size_eq {r : Registry} {services : List Service} (h : r.Reflects services) :
    r.size = (services.map Service.number).toFinset.card := by
  have hsame : (services.map Service.number).toFinset = (r.services.map Service.number).toFinset :=
    Finset.ext fun number => by
      rw [List.mem_toFinset, List.mem_toFinset, h.numbers]
  rw [hsame, List.toFinset_card_of_nodup h.nodup, List.length_map, size]

end Registry

/-! ## The step of a call -/

theorem Instruction.ofOperands_svc (ops : List Word) : ofOperands .svc ops = .ok .service := rfl

/-- A call ends as its service does: with what the service has done, and behind the settled delay
slot if that succeeds. -/
theorem step_of_call {env : Environment} {m : Machine} {d : Decoded} (hreads : m.Reads env d)
    (hsvc : d.descriptor.action = .svc) :
    step env m =
      match env.services.dispatch (m.cpu.x serviceRegister) m.advancePc with
      | .done after => .done (after.mapCpu Processor.settle)
      | .trapped cause after => d.trap m.cpu.pc cause after
      | .fault f after => .fault f after := by
  obtain ⟨w, hfetch, hdecode⟩ := hreads
  have hrun : execute env.services d.descriptor.action d.operands m.advancePc =
      env.services.dispatch (m.cpu.x serviceRegister) m.advancePc := by
    rw [execute, hsvc, Instruction.ofOperands_svc]
    rfl
  rw [step_eq hfetch hdecode, executeAndSettle, hrun]
  cases env.services.dispatch (m.cpu.x serviceRegister) m.advancePc <;> rfl

/-! ## Jumps of services that fail -/

/-- On the way from one machine to another there is a jump to `target`, and behind it the delay slot
stays as it is. The configuration stays all the way. -/
inductive Machine.LastJumpsTo (target : Word) : Machine → Machine → Prop where
  | jump (m : Machine) : LastJumpsTo target m (m.mapCpu (·.jump target))
  | before {m next after : Machine} : next.cpu.config = m.cpu.config →
      LastJumpsTo target next after → LastJumpsTo target m after
  | behind {m next after : Machine} : LastJumpsTo target m next →
      after.cpu.delay = next.cpu.delay → after.cpu.config = next.cpu.config →
      LastJumpsTo target m after

namespace Machine

variable {m after : Machine} {target : Word}

theorem LastJumpsTo.delay_eq (h : m.LastJumpsTo target after)
    (hmode : m.cpu.config.delayedBranching = true) : after.cpu.delay = .registered target := by
  induction h with
  | jump m =>
    show (m.cpu.jump target).delay = _
    rw [Processor.jump, if_pos hmode]
    rfl
  | before hconfig _ ih => exact ih (by rwa [hconfig])
  | behind _ hslot _ ih => rw [hslot, ih hmode]

theorem ReachesByJumps.config_eq (h : m.ReachesByJumps after) :
    after.cpu.config = m.cpu.config := by
  induction h with
  | keep _ _ hconfig => exact hconfig
  | jump m target =>
    show (m.cpu.jump target).config = _
    unfold Processor.jump
    split <;> rfl
  | trans _ _ ih₁ ih₂ => rw [ih₂, ih₁]

end Machine

/-- Of the effects of a script only a jump writes the delay slot. -/
theorem Effect.delay_run (m : Machine) (e : Effect) (he : ∀ target, e ≠ .jump target) :
    (e.run m).machine.cpu.delay = m.cpu.delay := by
  cases e with
  | jump target => exact absurd rfl (he target)
  | setX r v => exact Processor.delay_setX r v m.cpu
  | addX r v => exact Processor.delay_setX r _ m.cpu
  | storeWord _ _ | storeByte _ _ =>
    unfold run Machine.store
    dsimp only
    split <;> rfl
  | loadWord a d =>
    unfold run Machine.load
    dsimp only
    split
    · rfl
    · exact Processor.delay_setX ..
  | halt | overflow | fail _ | printInteger _ | printCharacter _ => rfl

theorem Effect.delay_runAll (m : Machine) (effects : List Effect)
    (heffects : ∀ target, .jump target ∉ effects) :
    (Effect.runAll m effects).machine.cpu.delay = m.cpu.delay := by
  induction effects generalizing m with
  | nil => rfl
  | cons e rest ih =>
    have hfirst := e.delay_run m fun target he => heffects target (by simp [he])
    unfold runAll
    cases hrun : e.run m with
    | done after =>
      rw [hrun] at hfirst
      refine (ih after fun target ht => heffects target (List.mem_cons_of_mem e ht)).trans hfirst
    | trapped _ _ | fault _ _ =>
      rw [hrun] at hfirst
      exact hfirst

theorem Effect.runAll_append (m : Machine) (first second : List Effect) :
    Effect.runAll m (first ++ second) =
      (Effect.runAll m first).andThen (Effect.runAll · second) := by
  induction first generalizing m with
  | nil => rfl
  | cons e rest ih =>
    rw [List.cons_append, runAll, runAll]
    cases e.run m with
    | done after => exact ih after
    | trapped _ _ | fault _ _ => rfl

/-- A script jumps last to the target of the last jump in it, if it comes so far. -/
theorem Effect.lastJumpsTo_runAll {m before : Machine} {target : Word} {first rest : List Effect}
    (hfirst : Effect.runAll m first = .done before) (hrest : ∀ target, .jump target ∉ rest) :
    m.LastJumpsTo target (Effect.runAll m (first ++ .jump target :: rest)).machine := by
  have hcome := (Effect.reachesByJumps_runAll m first).config_eq
  have hgo := (Effect.reachesByJumps_runAll (before.mapCpu (·.jump target)) rest).config_eq
  rw [hfirst] at hcome
  rw [runAll_append, hfirst]
  exact .before hcome (.behind (.jump before) (Effect.delay_runAll _ rest hrest) hgo)

/-! ## Steps without a jump -/

/-- The next step does not jump: its instruction is no transfer that takes place, and a service that
it calls leaves the delay slot as it is. -/
structure Machine.StepsWithoutJump (env : Environment) (m : Machine) : Prop where
  untaken : ∀ d, m.Reads env d → ¬ d.descriptor.action.Transfers d.operands m.cpu
  service : ∀ d, m.Reads env d → d.descriptor.action = .svc →
    ∀ s, env.services.find? (m.cpu.x serviceRegister) = some s →
      (s.run m.advancePc).machine.cpu.delay = m.cpu.delay

section

variable {env : Environment} {m : Machine}

theorem Machine.StepsWithoutJump.delay_run (h : m.StepsWithoutJump env) {d : Decoded}
    (hreads : m.Reads env d) {i : Instruction}
    (hi : Instruction.ofOperands d.descriptor.action d.operands = .ok i) :
    (i.run env.services m.advancePc).machine.cpu.delay = m.cpu.delay := by
  cases Instruction.control_of_operands hi with
  | service hsvc =>
    show (env.services.dispatch (m.cpu.x serviceRegister) m.advancePc).machine.cpu.delay = _
    unfold Registry.dispatch
    cases hfind : env.services.find? (m.cpu.x serviceRegister) with
    | none => rfl
    | some s => exact h.service d hreads hsvc s hfind
  | straight hstraight =>
    exact (Instruction.run_keeps_control hstraight env.services m.advancePc).2.1
  | @transfer test target link _ hholds =>
    have hnot : ¬ test.holds m.advancePc.cpu = true := by
      rw [show test.holds m.advancePc.cpu = test.holds m.cpu from Test.holds_withControl ..]
      exact fun h' => h.untaken d hreads ((hholds m.cpu).1 h')
    show (m.advancePc.cpu.transfer test target link).delay = _
    rw [Processor.transfer_of_not_holds hnot]
    rfl

/-- A step that traps without a jump leaves the delay slot as it is. -/
theorem delay_of_trapped (h : m.StepsWithoutJump env) {trap : Trap} {after : Machine}
    (hstep : step env m = .trapped trap after) : after.cpu.delay = m.cpu.delay := by
  rcases reads_or_trapped env m with ⟨d, hreads⟩ | ⟨trap', htrapped, -⟩
  · obtain ⟨w, hfetch, hdecode⟩ := id hreads
    obtain ⟨i, cause, hi, hrun, -⟩ := (step_eq_trapped hfetch hdecode).1 hstep
    have hslot := h.delay_run hreads hi
    rw [hrun] at hslot
    exact hslot
  · cases hstep.symm.trans htrapped
    rfl

/-- A step that is done without a jump lets the delay slot advance. -/
theorem delay_of_done (h : m.StepsWithoutJump env) {after : Machine}
    (hstep : step env m = .done after) : after.cpu.delay = m.cpu.delay.advance.1 := by
  obtain ⟨d, hreads⟩ := exists_reads_of_done hstep
  obtain ⟨w, hfetch, hdecode⟩ := id hreads
  obtain ⟨i, executed, hi, hrun, rfl⟩ := (step_eq_done hfetch hdecode).1 hstep
  have hslot : executed.cpu.delay = m.cpu.delay := by
    have hrest := h.delay_run hreads hi
    rwa [hrun] at hrest
  show executed.cpu.settle.delay = _
  rw [Processor.settle_eq, ← hslot]
  rfl

/-- Steps that trap without a jump leave the delay slot as it is. -/
theorem delay_afterSteps {n : Nat}
    (hquiet : ∀ j < n, (afterSteps env j m).StepsWithoutJump env)
    (htraps : ∀ j < n, ∃ trap, step env (afterSteps env j m) =
      .trapped trap (afterSteps env (j + 1) m)) :
    (afterSteps env n m).cpu.delay = m.cpu.delay := by
  induction n with
  | zero => rfl
  | succ n ih =>
    obtain ⟨trap, htrap⟩ := htraps n (Nat.lt_succ_self n)
    rw [delay_of_trapped (hquiet n (Nat.lt_succ_self n)) htrap]
    exact ih (fun j hj => hquiet j (Nat.lt_succ_of_lt hj))
      fun j hj => htraps j (Nat.lt_succ_of_lt hj)

end

/-! ## Calls -/

/-- A call runs the service that was registered last under the number, behind the advanced program
counter, and ends as it does. A target that the service registers before it fails is triggered by
the next step that is done, if no step up to there jumps. -/
theorem step_lastRegistered (decode : Word → Option Decoded) (services : List Service) :
    let env : Environment := ⟨decode, .ofList services⟩
    (∀ number, env.services.find? number = lastRegistered? services number) ∧
    env.services.size = (services.map Service.number).toFinset.card ∧
    ∀ m d, m.Reads env d → d.descriptor.action = .svc →
      (d.descriptor.isReadable = true → ∀ cause after,
        d.trap m.cpu.pc cause after = .trapped ⟨m.cpu.pc, d.text m.cpu.pc, cause⟩ after) ∧
      match lastRegistered? services (m.cpu.x serviceRegister) with
      | none =>
        step env m =
          d.trap m.cpu.pc (.invalidService (m.cpu.x serviceRegister)) m.advancePc
      | some s =>
        (step env m =
          match s.run m.advancePc with
          | .done after => .done (after.mapCpu Processor.settle)
          | .trapped cause after => d.trap m.cpu.pc cause after
          | .fault f after => .fault f after) ∧
        ∀ cause after target, m.cpu.config.delayedBranching = true →
          s.run m.advancePc = .trapped cause after → m.advancePc.LastJumpsTo target after →
          after.cpu.delay = .registered target ∧
          ∀ n next, (∀ j ≤ n, (afterSteps env j after).StepsWithoutJump env) →
            (∀ j < n, ∃ trap, step env (afterSteps env j after) =
              .trapped trap (afterSteps env (j + 1) after)) →
            step env (afterSteps env n after) = .done next →
            next.cpu.delay = .triggered target := by
  intro env
  have hreflects := Registry.reflects_ofList services
  refine ⟨hreflects.find, hreflects.size_eq, fun m d hreads hsvc =>
    ⟨fun hreadable => Decoded.trap_of_isReadable hreadable m.cpu.pc, ?_⟩⟩
  have hstep := step_of_call hreads hsvc
  rw [Registry.dispatch, hreflects.find] at hstep
  cases hlast : lastRegistered? services (m.cpu.x serviceRegister) with
  | none =>
    rw [hlast] at hstep
    exact hstep
  | some s =>
    rw [hlast] at hstep
    refine ⟨hstep, fun cause after target hmode hfails hjumps => ?_⟩
    have hslot : after.cpu.delay = .registered target := hjumps.delay_eq hmode
    refine ⟨hslot, fun n next hquiet htraps hdone => ?_⟩
    rw [delay_of_done (hquiet n (Nat.le_refl n)) hdone,
      delay_afterSteps (fun j hj => hquiet j (Nat.le_of_lt hj)) htraps, hslot]
    rfl

/-- Of two services with the number -5 the later one runs: it sets a register, jumps and fails. What
it has done stays, and the idle instruction behind the call triggers its target. -/
theorem step_lastRegistered_leap :
    let leap := Service.scripted (-5) "leap" [.setX 1 7, .jump 0x40, .fail "refused"]
    let services := [Service.scripted (-5) "stop" [.halt], leap, Service.scripted 3 "idle" []]
    let env : Environment := ⟨instructionSet.decode?, .ofList services⟩
    let m : Machine :=
      ⟨(Processor.initial ⟨true⟩).setX serviceRegister (-5),
        ⟨⟨#[0, 0, 0, 0x58, 0, 0, 0, 0]⟩, 0⟩, ""⟩
    let d : Decoded := ⟨Catalog.control[26], [0], 0x58000000⟩
    let after := (m.advancePc.mapCpu (·.setX 1 7)).mapCpu (·.jump 0x40)
    let cause : TrapCause := .invalidOperand (.refused "refused")
    m.Reads env d ∧ d.descriptor.action = .svc ∧
      lastRegistered? services (m.cpu.x serviceRegister) = some leap ∧
      m.cpu.config.delayedBranching = true ∧ leap.run m.advancePc = .trapped cause after ∧
      m.advancePc.LastJumpsTo 0x40 after ∧
      step env m = .trapped ⟨0, d.text 0, cause⟩ after ∧ after.cpu.x 1 = 7 ∧ after.cpu.pc = 4 ∧
      after.cpu.delay = .registered 0x40 ∧ after.StepsWithoutJump env ∧
      ∃ next, step env after = .done next ∧ next.cpu.delay = .triggered 0x40 := by
  intro leap services env m d after cause
  let idle : Decoded := ⟨Catalog.idle[0], [], 0⟩
  have hreads : m.Reads env d := by
    refine ⟨d.word, by decide, ?_⟩
    dsimp only [env, d]
    exact decode?_service
  have hidle : after.Reads env idle := by
    refine ⟨0, by decide, ?_⟩
    dsimp only [env, idle]
    exact decode?_zero_eq
  have hlast : lastRegistered? services (m.cpu.x serviceRegister) = some leap := by
    have hnumber : m.cpu.x serviceRegister = -5 := by decide
    rw [hnumber]
    rfl
  have hrun : leap.run m.advancePc = .trapped cause after := rfl
  have hjumps : m.advancePc.LastJumpsTo 0x40 after :=
    @Effect.lastJumpsTo_runAll m.advancePc _ 0x40 [.setX 1 7] [.fail "refused"] rfl (by simp)
  have hquiet : after.StepsWithoutJump env := by
    constructor
    · intro d' hreads'
      rw [hidle.unique hreads']
      exact id
    · intro d' hreads' hsvc
      rw [hidle.unique hreads'] at hsvc
      cases hsvc
  have hnext : step env after = .done (after.advancePc.mapCpu Processor.settle) :=
    step_of_run hidle rfl rfl
  obtain ⟨-, -, hcalls⟩ := step_lastRegistered instructionSet.decode? services
  obtain ⟨htraps, hcall⟩ := hcalls m d hreads rfl
  rw [hlast] at hcall
  obtain ⟨hstep, htriggers⟩ := hcall
  obtain ⟨hslot, htriggered⟩ := htriggers cause after 0x40 rfl hrun hjumps
  rw [hrun] at hstep
  have htrap : d.trap 0 cause after = .trapped ⟨0, d.text 0, cause⟩ after :=
    htraps (isReadable_of_decode? decode?_service) cause after
  refine ⟨hreads, rfl, hlast, rfl, hrun, hjumps, hstep.trans htrap, by decide, by decide, hslot,
    hquiet, _, hnext, ?_⟩
  refine htriggered 0 _ (fun j hj => ?_) (fun j hj => absurd hj (Nat.not_lt_zero j)) hnext
  rw [Nat.le_zero.1 hj]
  exact hquiet

end LegMachine
