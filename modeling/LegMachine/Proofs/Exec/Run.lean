import LegMachine.Proofs.Exec.Step
import Mathlib.Order.Bounds.Basic

/-!
# How a run ends

A run takes steps as long as each of them is done (`Takes`), and then ends in one of four ways
(`Stops`, `run_stops`). What is left of a run behind some of its steps is a run of its own
(`runFrom_of_takes`), so that a run up to one limit can be continued up to another
(`runFrom_of_limit`). Without faults the number of steps is the least one at which a run must stop
(`isLeast_mustStop`).
-/

namespace LegMachine

/-- The first `n` steps are taken: the machine is not halted before any of them, and each is done.
-/
def Takes (env : Environment) (n : Nat) (m : Machine) : Prop :=
  ∀ j < n, (afterSteps env j m).cpu.halted = false ∧
    step env (afterSteps env j m) = .done (afterSteps env (j + 1) m)

/-- The result of a run of at most `limit` steps that ends behind `k` of them. -/
inductive Stops (env : Environment) (limit : Nat) (m : Machine) (k : Nat) : Run → Prop
  | limit (hk : k = limit) : Stops env limit m k ⟨k, afterSteps env k m, .limit⟩
  | halted (hk : k < limit) (hhalted : (afterSteps env k m).cpu.halted = true) :
      Stops env limit m k ⟨k, afterSteps env k m, .halted⟩
  | trapped {trap : Trap} {after : Machine} (hk : k < limit)
      (hhalted : (afterSteps env k m).cpu.halted = false)
      (hstep : step env (afterSteps env k m) = .trapped trap after) :
      Stops env limit m k ⟨k, after, .trapped trap⟩
  | fault {cause : Fault} {after : Machine} (hk : k < limit)
      (hhalted : (afterSteps env k m).cpu.halted = false)
      (hstep : step env (afterSteps env k m) = .fault cause after) :
      Stops env limit m k ⟨k, after, .fault cause⟩

section

variable {env : Environment} {m : Machine} {n k limit : Nat}

theorem takes_zero : Takes env 0 m :=
  fun _ hj => absurd hj (Nat.not_lt_zero _)

theorem Takes.mono (h : Takes env n m) (hk : k ≤ n) : Takes env k m :=
  fun j hj => h j (Nat.lt_of_lt_of_le hj hk)

theorem Takes.succ {after : Machine} (h : Takes env n m)
    (hhalted : (afterSteps env n m).cpu.halted = false)
    (hstep : step env (afterSteps env n m) = .done after) : Takes env (n + 1) m := by
  intro j hj
  rcases Nat.lt_or_eq_of_le (Nat.le_of_lt_succ hj) with hj | rfl
  · exact h j hj
  · refine ⟨hhalted, ?_⟩
    rw [afterSteps_succ, hstep]
    rfl

/-- One more step, from the machine that is reached. -/
theorem Takes.extend {before after : Machine} (h : Takes env n m)
    (hbefore : afterSteps env n m = before) (hhalted : before.cpu.halted = false)
    (hstep : step env before = .done after) :
    Takes env (n + 1) m ∧ afterSteps env (n + 1) m = after := by
  subst hbefore
  refine ⟨h.succ hhalted hstep, ?_⟩
  rw [afterSteps_succ, hstep]
  rfl

/-- Behind steps that are taken a run goes on with what is left of its limit. -/
theorem runFrom_of_takes (h : Takes env n m) (hn : n ≤ limit) (before : Nat) :
    runFrom env before limit m = runFrom env (before + n) (limit - n) (afterSteps env n m) := by
  induction n with
  | zero => rfl
  | succ n ih =>
    obtain ⟨hhalted, hstep⟩ := h n (Nat.lt_succ_self n)
    have hleft : limit - n = limit - (n + 1) + 1 := by omega
    rw [ih (h.mono (Nat.le_succ n)) (Nat.le_of_succ_le hn), hleft, runFrom, hstep, hhalted]
    rfl

/-- A run that has taken some steps takes more of them or ends there. -/
theorem Takes.exists_stops (h : Takes env n m) (hn : n ≤ limit) :
    ∃ k, Takes env k m ∧ Stops env limit m k (runFrom env n (limit - n) (afterSteps env n m)) := by
  induction hleft : limit - n generalizing n with
  | zero => exact ⟨n, h, .limit (by omega)⟩
  | succ left ih =>
    rw [runFrom]
    split
    · next hhalted => exact ⟨n, h, .halted (by omega) hhalted⟩
    · next hhalted =>
      rw [Bool.not_eq_true] at hhalted
      cases hstep : step env (afterSteps env n m) with
      | done after =>
        have hafter : afterSteps env (n + 1) m = after := by
          rw [afterSteps_succ, hstep]
          rfl
        have hnext := ih (h.succ hhalted hstep) (by omega) (by omega)
        rw [hafter] at hnext
        exact hnext
      | trapped trap after => exact ⟨n, h, .trapped (by omega) hhalted hstep⟩
      | fault cause after => exact ⟨n, h, .fault (by omega) hhalted hstep⟩

theorem run_stops (env : Environment) (limit : Nat) (m : Machine) :
    ∃ k, Takes env k m ∧ Stops env limit m k (run env limit m) :=
  takes_zero.exists_stops (Nat.zero_le limit)

theorem Stops.steps_eq {r : Run} (h : Stops env limit m k r) : r.steps = k := by
  cases h <;> rfl

theorem Stops.le_limit {r : Run} (h : Stops env limit m k r) : k ≤ limit := by
  cases h <;> omega

/-- Any part of the steps of a run can be taken first. -/
theorem runFrom_of_le_steps (h : n ≤ (run env limit m).steps) :
    runFrom env n (limit - n) (afterSteps env n m) = run env limit m := by
  obtain ⟨k, htakes, hstops⟩ := run_stops env limit m
  rw [hstops.steps_eq] at h
  rw [run, runFrom_of_takes (htakes.mono h) (Nat.le_trans h hstops.le_limit), Nat.zero_add]

/-- A run that its limit ends can be continued. -/
theorem runFrom_of_limit (h : (run env limit m).ending = .limit) (more : Nat) :
    runFrom env limit more (run env limit m).machine = run env (limit + more) m := by
  obtain ⟨k, htakes, hstops⟩ := run_stops env limit m
  have hle : k ≤ limit + more := Nat.le_trans hstops.le_limit (Nat.le_add_right limit more)
  have hrun := runFrom_of_takes htakes hle 0
  generalize run env limit m = r at h hstops
  cases hstops with
  | limit hk =>
    subst hk
    rw [Nat.zero_add, Nat.add_sub_cancel_left] at hrun
    exact hrun.symm
  | halted | trapped | fault => cases h

/-! ## The number of steps -/

/-- A run of at most `limit` steps may not go on behind `k` of them: the limit is reached, the
machine is halted, or else the next step traps. -/
def MustStop (env : Environment) (limit : Nat) (m : Machine) (k : Nat) : Prop :=
  k = limit ∨ (afterSteps env k m).cpu.halted = true ∨
    (k < limit ∧ (afterSteps env k m).cpu.halted = false ∧
      ∃ trap after, step env (afterSteps env k m) = .trapped trap after)

theorem Takes.not_mustStop (h : Takes env n m) (hn : n ≤ limit) (hk : k < n) :
    ¬ MustStop env limit m k := by
  obtain ⟨hhalted, hstep⟩ := h k hk
  rintro (rfl | htrue | ⟨-, -, trap, after, htrapped⟩)
  · omega
  · rw [hhalted] at htrue
    cases htrue
  · rw [hstep] at htrapped
    cases htrapped

theorem Stops.mustStop {r : Run} (h : Stops env limit m k r)
    (hfault : ∀ cause after, step env (afterSteps env k m) ≠ .fault cause after) :
    MustStop env limit m k := by
  cases h with
  | limit hk => exact .inl hk
  | halted _ hhalted => exact .inr (.inl hhalted)
  | trapped hk hhalted hstep => exact .inr (.inr ⟨hk, hhalted, _, _, hstep⟩)
  | fault _ _ hstep => exact absurd hstep (hfault _ _)

/-- A run without faults takes as many steps as it may. -/
theorem isLeast_mustStop {r : Run} (htakes : Takes env k m) (hstops : Stops env limit m k r)
    (hfault : ∀ cause after, step env (afterSteps env k m) ≠ .fault cause after) :
    IsLeast {k | MustStop env limit m k} k := by
  refine ⟨hstops.mustStop hfault, fun j hj => Nat.le_of_not_lt fun hlt => ?_⟩
  exact htakes.not_mustStop hstops.le_limit hlt hj

end

end LegMachine
