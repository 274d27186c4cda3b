import LegMachine.Machine.DelaySlot
import Mathlib.Data.List.Induction

/-!
# Calls on a delay slot

What a delay slot holds and returns is told from the calls on it: from the last registration and the
number of advances behind it (`LastRegistered`). The first advance triggers the slot, and the second
one returns the target and empties it. One call keeps that relation (`Recalls.call`), and so does
every sequence of calls on a fresh slot (`recalls_after`). So a target is returned exactly if the
two calls before are its registration and an advance (`returns_eq_some_iff`), and a registration is
delivered two calls later or never (`delivers_iff`).
-/

namespace LegMachine.DelaySlot

inductive Call where
  | register (target : Word)
  | advance
  deriving DecidableEq, Repr

/-- The slot after a call, and the target that the call returns. -/
def call (slot : DelaySlot) : Call → DelaySlot × Option Word
  | .register target => (slot.register target, none)
  | .advance => slot.advance

def after (slot : DelaySlot) (calls : List Call) : DelaySlot :=
  calls.foldl (fun slot c => (slot.call c).1) slot

def returns : DelaySlot → List Call → List (Option Word)
  | _, [] => []
  | slot, c :: rest => (slot.call c).2 :: (slot.call c).1.returns rest

/-- The last registration among the calls is that of `target`, and `n` advances come behind it. -/
def LastRegistered (calls : List Call) (target : Word) (n : Nat) : Prop :=
  ∃ earlier later, calls = earlier ++ .register target :: later ∧
    (∀ t, .register t ∉ later) ∧ later.count .advance = n

/-- The call at place `i` returns what is registered at place `j`, whatever target that is. -/
def Delivers (calls : List Call) (j i : Nat) : Prop :=
  (∃ t, calls[j]? = some (.register t)) ∧
    ∀ target, (empty.returns (calls.set j (.register target)))[i]? = some (some target)

section

variable {slot : DelaySlot} {calls : List Call} {c : Call} {t u : Word} {n i j : Nat}

/-! ## The last registration -/

/-- Behind the last registration there are advances only. -/
theorem lastRegistered_iff :
    LastRegistered calls t n ↔
      ∃ earlier, calls = earlier ++ .register t :: .replicate n .advance := by
  constructor
  · rintro ⟨earlier, later, rfl, hnone, rfl⟩
    have hlater : ∀ c ∈ later, Call.advance = c := by
      intro c hc
      cases c with
      | register u => exact absurd hc (hnone u)
      | advance => rfl
    have hcount : later.count .advance = later.length := List.count_eq_length.2 hlater
    have hreplicate : later = .replicate (later.count .advance) .advance :=
      List.eq_replicate_iff.2 ⟨hcount.symm, fun c hc => (hlater c hc).symm⟩
    exact ⟨earlier, by rw [← hreplicate]⟩
  · rintro ⟨earlier, rfl⟩
    refine ⟨earlier, _, rfl, fun u hu => ?_, List.count_replicate_self⟩
    cases List.eq_of_mem_replicate hu

theorem not_lastRegistered_nil : ¬ LastRegistered [] t n := by
  rintro ⟨earlier, later, hcalls, -⟩
  simp at hcalls

/-- The last call is the last registration, or an advance more behind it. -/
theorem lastRegistered_concat :
    LastRegistered (calls ++ [c]) t n ↔ c = .register t ∧ n = 0 ∨
      c = .advance ∧ ∃ k, n = k + 1 ∧ LastRegistered calls t k := by
  simp only [lastRegistered_iff]
  constructor
  · rintro ⟨earlier, hcalls⟩
    cases n with
    | zero =>
      obtain ⟨-, hlast⟩ := List.append_inj' hcalls rfl
      cases hlast
      exact .inl ⟨rfl, rfl⟩
    | succ n =>
      rw [List.replicate_succ', ← List.cons_append, ← List.append_assoc] at hcalls
      obtain ⟨hbefore, hlast⟩ := List.append_inj' hcalls rfl
      cases hlast
      exact .inr ⟨rfl, n, rfl, earlier, hbefore⟩
  · rintro (⟨rfl, rfl⟩ | ⟨rfl, k, rfl, earlier, rfl⟩)
    · exact ⟨calls, rfl⟩
    · refine ⟨earlier, ?_⟩
      rw [List.replicate_succ', List.append_assoc, List.cons_append]

/-! ## What the slot holds -/

/-- The slot holds what the calls have left in it. -/
structure Recalls (slot : DelaySlot) (calls : List Call) : Prop where
  registered (t : Word) : slot = .registered t ↔ LastRegistered calls t 0
  triggered (t : Word) : slot = .triggered t ↔ LastRegistered calls t 1

theorem recalls_nil : empty.Recalls [] where
  registered _ := iff_of_false nofun not_lastRegistered_nil
  triggered _ := iff_of_false nofun not_lastRegistered_nil

theorem advance_fst_ne_registered : slot.advance.1 ≠ .registered t := by
  cases slot <;> exact nofun

theorem advance_fst_eq_triggered_iff : slot.advance.1 = .triggered t ↔ slot = .registered t := by
  cases slot <;> simp [advance]

theorem advance_snd_eq_some_iff : slot.advance.2 = some t ↔ slot = .triggered t := by
  cases slot <;> simp [advance]

theorem pending?_eq_some_iff :
    slot.pending? = some t ↔ slot = .registered t ∨ slot = .triggered t := by
  cases slot <;> simp [pending?]

/-- A registration starts anew, whatever the slot held. -/
theorem recalls_register (slot : DelaySlot) (calls : List Call) (u : Word) :
    (slot.register u).Recalls (calls ++ [.register u]) where
  registered t := by
    rw [lastRegistered_concat]
    simp [register]
  triggered t := by
    rw [lastRegistered_concat]
    simp [register]

/-- An advance counts one further. -/
theorem Recalls.advance (h : slot.Recalls calls) :
    slot.advance.1.Recalls (calls ++ [.advance]) where
  registered t := by
    rw [lastRegistered_concat]
    simp [advance_fst_ne_registered]
  triggered t := by
    rw [lastRegistered_concat, advance_fst_eq_triggered_iff, h.registered]
    simp

theorem Recalls.call (h : slot.Recalls calls) (c : Call) :
    (slot.call c).1.Recalls (calls ++ [c]) := by
  cases c with
  | register u => exact recalls_register slot calls u
  | advance => exact h.advance

theorem after_concat : slot.after (calls ++ [c]) = ((slot.after calls).call c).1 := by
  rw [after, List.foldl_append]
  rfl

theorem recalls_after (calls : List Call) : (empty.after calls).Recalls calls := by
  induction calls using List.reverseRecOn with
  | nil => exact recalls_nil
  | append_singleton calls c ih =>
    rw [after_concat]
    exact ih.call c

/-! ## What the calls return -/

theorem getElem?_returns :
    (slot.returns calls)[i]? = calls[i]?.map fun c => ((slot.after (calls.take i)).call c).2 := by
  induction calls generalizing slot i with
  | nil => rfl
  | cons c rest ih =>
    cases i with
    | zero => rfl
    | succ i => exact ih

/-- An advance returns the target of the last registration if it is the second one behind that. -/
theorem returns_iff_lastRegistered (h : calls[i]? = some .advance) :
    (empty.returns calls)[i]? = some (some t) ↔ LastRegistered (calls.take i) t 1 := by
  rw [getElem?_returns, h, Option.map_some, Option.some_inj]
  exact advance_snd_eq_some_iff.trans ((recalls_after _).triggered t)

theorem eq_advance_of_returns (h : (empty.returns calls)[i]? = some (some t)) :
    calls[i]? = some .advance := by
  rw [getElem?_returns, Option.map_eq_some_iff] at h
  obtain ⟨c, hc, hreturn⟩ := h
  cases c with
  | register u => cases hreturn
  | advance => exact hc

theorem returns_eq_some_iff :
    (empty.returns calls)[i]? = some (some t) ↔ ∃ j, i = j + 2 ∧
      calls[j]? = some (.register t) ∧ calls[j + 1]? = some .advance ∧
      calls[i]? = some .advance := by
  constructor
  · intro h
    have hadvance := eq_advance_of_returns h
    rw [returns_iff_lastRegistered hadvance, lastRegistered_iff] at h
    obtain ⟨earlier, htake⟩ := h
    have hi : i = earlier.length + 2 := by
      have hlength := congrArg List.length htake
      have hlt := (List.getElem?_eq_some_iff.1 hadvance).1
      simp only [List.length_take, List.length_append, List.length_cons, List.length_replicate]
        at hlength
      omega
    have hbefore (k : Nat) (hk : k < 2) : calls[earlier.length + k]? =
        [Call.register t, .advance][k]? := by
      rw [← List.getElem?_take_of_lt (show earlier.length + k < i by omega), htake,
        List.getElem?_append_right (by omega), Nat.add_sub_cancel_left]
      rfl
    exact ⟨earlier.length, hi, hbefore 0 (by decide), hbefore 1 (by decide), hadvance⟩
  · rintro ⟨j, rfl, hregister, hfirst, hsecond⟩
    rw [returns_iff_lastRegistered hsecond, lastRegistered_iff]
    refine ⟨calls.take j, ?_⟩
    rw [List.take_add_one, List.take_add_one, hregister, hfirst]
    simp

/-- A registration is delivered by the second call behind it, if both of these are advances. -/
theorem delivers_iff :
    Delivers calls j i ↔ i = j + 2 ∧ (∃ t, calls[j]? = some (.register t)) ∧
      calls[j + 1]? = some .advance ∧ calls[i]? = some .advance := by
  constructor
  · rintro ⟨hregistered, hreturns⟩
    have hplace : ∃ k, i = k + 2 := by
      obtain ⟨k, hk, -⟩ := returns_eq_some_iff.1 (hreturns 0)
      exact ⟨k, hk⟩
    obtain ⟨k, rfl⟩ := hplace
    have hset (target : Word) : (calls.set j (.register target))[k]? = some (.register target) ∧
        (calls.set j (.register target))[k + 1]? = some .advance ∧
        (calls.set j (.register target))[k + 2]? = some .advance := by
      obtain ⟨k', hk, h⟩ := returns_eq_some_iff.1 (hreturns target)
      obtain rfl : k = k' := by omega
      exact h
    have hj : j = k := by
      by_contra hne
      have h0 := (hset 0).1
      have h1 := (hset 1).1
      rw [List.getElem?_set_ne hne] at h0 h1
      rw [h0] at h1
      cases h1
    subst hj
    obtain ⟨-, hfirst, hsecond⟩ := hset 0
    rw [List.getElem?_set_ne (by omega)] at hfirst hsecond
    exact ⟨rfl, hregistered, hfirst, hsecond⟩
  · rintro ⟨rfl, ⟨t, ht⟩, hfirst, hsecond⟩
    refine ⟨⟨t, ht⟩, fun target => returns_eq_some_iff.2 ⟨j, rfl, ?_, ?_, ?_⟩⟩
    · exact List.getElem?_set_self (List.getElem?_eq_some_iff.1 ht).1
    · rwa [List.getElem?_set_ne (by omega)]
    · rwa [List.getElem?_set_ne (by omega)]

end

/-- What a fresh delay slot makes of the calls on it. -/
structure DeliversInTurn (calls : List Call) : Prop where
  /-- The second advance behind the last registration returns its target. -/
  second (i : Nat) (target : Word) : calls[i]? = some .advance →
    ((empty.returns calls)[i]? = some (some target) ↔ LastRegistered (calls.take i) target 1)
  /-- Every other advance returns nothing. -/
  others (i : Nat) : calls[i]? = some .advance →
    (¬ ∃ target, LastRegistered (calls.take i) target 1) →
      (empty.returns calls)[i]? = some none
  /-- Whatever is returned comes from a registration. -/
  source (i : Nat) (target : Word) : (empty.returns calls)[i]? = some (some target) →
    ∃ j, calls[j]? = some (.register target) ∧ Delivers calls j i
  /-- A registration is delivered at most once. -/
  once (j i k : Nat) : Delivers calls j i → Delivers calls j k → i = k
  /-- Before it is delivered, an advance comes in between. -/
  delayed (j i : Nat) : Delivers calls j i → ∃ k, j < k ∧ k < i ∧ calls[k]? = some .advance
  /-- What is delivered has not been replaced. -/
  current (j i k : Nat) : Delivers calls j i → j < k → k < i →
    ∀ target, calls[k]? ≠ some (.register target)
  /-- The target of the last registration waits until the second advance. -/
  pending (target : Word) : (empty.after calls).pending? = some target ↔
    ∃ n < 2, LastRegistered calls target n

/-- A fresh slot delivers each registration by the second advance behind it, once, unless another
registration comes before. -/
theorem deliversInTurn (calls : List Call) : DeliversInTurn calls where
  second i target h := returns_iff_lastRegistered h
  others i h hnone := by
    have hreturn : ∃ r, (empty.returns calls)[i]? = some r := by
      rw [getElem?_returns, h]
      exact ⟨_, rfl⟩
    obtain ⟨r, hr⟩ := hreturn
    cases r with
    | none => exact hr
    | some target =>
      exact absurd ⟨target, (returns_iff_lastRegistered h).1 hr⟩ hnone
  source i target h := by
    obtain ⟨j, hi, hregister, hcalls⟩ := returns_eq_some_iff.1 h
    exact ⟨j, hregister, delivers_iff.2 ⟨hi, ⟨target, hregister⟩, hcalls⟩⟩
  once j i k hi hk := (delivers_iff.1 hi).1.trans (delivers_iff.1 hk).1.symm
  delayed j i h := by
    obtain ⟨rfl, -, hfirst, -⟩ := delivers_iff.1 h
    exact ⟨j + 1, by omega, by omega, hfirst⟩
  current j i k h hjk hki target := by
    obtain ⟨rfl, -, hfirst, -⟩ := delivers_iff.1 h
    obtain rfl : k = j + 1 := by omega
    rw [hfirst]
    exact nofun
  pending target := by
    have hslot := recalls_after calls
    rw [pending?_eq_some_iff, hslot.registered, hslot.triggered]
    constructor
    · rintro (h | h)
      · exact ⟨0, by decide, h⟩
      · exact ⟨1, by decide, h⟩
    · rintro ⟨n, hn, h⟩
      obtain rfl | rfl : n = 0 ∨ n = 1 := by omega
      · exact .inl h
      · exact .inr h

/-- A target that is replaced before the second advance is never returned. -/
example : empty.returns [.register 0x40, .advance, .register 0x80, .advance, .advance, .advance] =
    [none, none, none, none, some 0x80, none] := by decide

end LegMachine.DelaySlot
