import LegMachine.Proofs.Disasm.WordText
import LegMachine.Proofs.Exec.Operands
import LegMachine.Proofs.Exec.Step
import LegMachine.Proofs.Machine.Memory
import LegMachine.Proofs.Machine.Processor

/-!
# Jumps and the addresses that are printed for them

The text of a jump shows the address of its target in the region of the jump itself
(`extract_of_target`). The step continues in the region of the next word (`step_of_target`). These
are the same address unless the jump is the last word of a region (`step_target_iff`).
-/

namespace LegMachine

def Descriptor.endsInTarget (d : Descriptor) : Bool :=
  "target".toList.isSuffixOf d.sample.toList

/-- A condition that the action depends on holds. -/
def Action.Taken (flags : Flags) (action : Action) : Prop :=
  ∀ c, action = .bCond c → c.holds flags = true

theorem catalog_target : ∀ d ∈ catalog, d.endsInTarget = true →
    d.pieces = [.target] ∧ d.action.operandKinds = [.target] := by
  decide +kernel

/-! ## What is printed -/

theorem widths_of_legible_target {format : Format} {widths : List Nat}
    (h : Piece.legible format widths [.target] = true) : ∃ n ≤ 26, widths = [n] := by
  match widths with
  | [] => cases h
  | [n] =>
    simp only [Piece.legible, Piece.showsAll, Piece.isOperand, if_true, Bool.and_eq_true,
      decide_eq_true_eq] at h
    exact ⟨n, h.1.1, rfl⟩
  | _ :: _ :: _ => simp [Piece.legible] at h

/-- An instruction whose sample ends in a target has nothing but a field of at most 26 bits. -/
theorem extract_of_target {e : Entry} (he : e ∈ catalogEntries)
    (htarget : e.descriptor.endsInTarget = true) (w : Word) :
    ∃ v, e.encoding.extract w = [v] ∧ v.toNat < 2 ^ 26 ∧ ∀ pc,
      (e.decode w).chars pc =
        e.descriptor.mnemonic ++ ' ' :: Text.hexWord (regionTarget pc v) := by
  have hd := (mem_catalogEntries.1 he).1
  obtain ⟨hpieces, -⟩ := catalog_target _ hd htarget
  have hlegible := catalog_legible _ hd
  rw [hpieces] at hlegible
  obtain ⟨n, hn, hwidths⟩ := widths_of_legible_target hlegible
  have hfits := fits_extract he w
  rw [hwidths] at hfits
  unfold Piece.Fits at hfits
  cases hops : e.encoding.extract w with
  | nil =>
    rw [hops] at hfits
    cases hfits
  | cons v rest =>
    rw [hops, List.forall₂_cons, List.forall₂_nil_left_iff] at hfits
    obtain ⟨hv, rfl⟩ := hfits
    refine ⟨v, rfl, Nat.lt_of_lt_of_le hv (Nat.pow_le_pow_right (by decide) hn), fun pc => ?_⟩
    have hne : e.descriptor.pieces ≠ [] := by
      rw [hpieces]
      exact List.cons_ne_nil _ _
    rw [chars_decode he hne, hops, hwidths, hpieces]
    simp [Piece.renderAll, Piece.isOperand, Piece.render]

/-! ## Where the step continues -/

/-- A jump that is taken continues at its target and leaves the delay slot alone. -/
theorem Processor.transfer_of_holds {test : Test} {target : Target} {link : Bool} {p : Processor}
    (hnow : p.config.delayedBranching = false) (h : test.holds p = true) :
    (p.transfer test target link).pc = target.address p ∧
      (p.transfer test target link).delay = p.delay := by
  unfold transfer
  rw [if_pos h]
  cases link with
  | false =>
    dsimp only
    rw [if_neg Bool.false_ne_true, jump_of_immediate hnow]
    exact ⟨rfl, rfl⟩
  | true =>
    have hlinked : (p.linkReturn linkRegister).config.delayedBranching = false := by
      rw [linkReturn, config_setX, hnow]
    dsimp only
    rw [if_pos rfl, jump_of_immediate hlinked]
    exact ⟨rfl, delay_setX _ _ _⟩

/-- An action with a target is a transfer, on the condition that it depends on. -/
theorem execute_of_target {action : Action} (h : action.operandKinds = [.target]) :
    ∃ test link, (∀ p : Processor, action.Taken p.flags → test.holds p = true) ∧
      ∀ (services : Registry) (v : Word) (m : Machine),
        execute services action [v] m =
          .done (m.mapCpu (·.transfer test (.region v) link)) := by
  cases action with
  | b => exact ⟨.always, false, fun _ _ => rfl, fun _ _ _ => rfl⟩
  | bl => exact ⟨.always, true, fun _ _ => rfl, fun _ _ _ => rfl⟩
  | bCond c => exact ⟨.flags c, false, fun p htaken => htaken c rfl, fun _ _ _ => rfl⟩
  | _ => simp [Action.operandKinds] at h

variable {m : Machine} {w : Word} {d : Decoded}

/-- A jump that is taken at once ends in the region of the next word. -/
theorem step_of_target (services : Registry) {v : Word}
    (hfetch : m.memory.load 4 m.cpu.pc = .ok w) (hdecode : instructionSet.decode? w = some d)
    (hkinds : d.descriptor.action.operandKinds = [.target]) (hops : d.operands = [v])
    (hnow : m.cpu.config.delayedBranching = false) (hempty : m.cpu.delay = .empty)
    (htaken : d.descriptor.action.Taken m.cpu.flags) :
    ∃ after, step ⟨instructionSet.decode?, services⟩ m = .done after ∧
      after.cpu.pc = regionTarget (m.cpu.pc + instructionLength) v := by
  obtain ⟨test, link, hholds, hexec⟩ := execute_of_target hkinds
  let jumped : Processor := m.advancePc.cpu.transfer test (.region v) link
  have hjumped : jumped.pc = Target.address m.advancePc.cpu (.region v) ∧
      jumped.delay = m.advancePc.cpu.delay :=
    Processor.transfer_of_holds hnow (hholds _ htaken)
  have hstep : step ⟨instructionSet.decode?, services⟩ m =
      .done { m.advancePc with cpu := jumped.settle } := by
    rw [step_eq hfetch hdecode, executeAndSettle, hops, hexec]
    rfl
  refine ⟨_, hstep, ?_⟩
  show jumped.settle.pc = _
  rw [Processor.settle_of_empty (hjumped.2.trans hempty), hjumped.1]
  rfl

/-- Where a taken jump goes is what is printed for it, unless it is the last word of a region. -/
theorem step_target_iff (services : Registry)
    (hfetch : m.memory.load 4 m.cpu.pc = .ok w) (hdecode : instructionSet.decode? w = some d)
    (htarget : d.descriptor.endsInTarget = true)
    (hnow : m.cpu.config.delayedBranching = false) (hempty : m.cpu.delay = .empty)
    (htaken : d.descriptor.action.Taken m.cpu.flags) :
    ∃ shown after,
      d.text m.cpu.pc = String.ofList (d.descriptor.mnemonic ++ ' ' :: Text.hexWord shown) ∧
      step ⟨instructionSet.decode?, services⟩ m = .done after ∧
      (after.cpu.pc = shown ↔ m.cpu.pc.toNat % 2 ^ 28 ≠ 2 ^ 28 - 4) := by
  obtain ⟨e, he, -, rfl⟩ := exists_of_decode? hdecode
  obtain ⟨v, hops, hv, hchars⟩ := extract_of_target he htarget w
  obtain ⟨-, hkinds⟩ := catalog_target _ (mem_catalogEntries.1 he).1 htarget
  obtain ⟨after, hstep, hpc⟩ :=
    step_of_target services hfetch hdecode hkinds hops hnow hempty htaken
  refine ⟨_, after, congrArg String.ofList (hchars m.cpu.pc), hstep, ?_⟩
  rw [hpc]
  exact regionTarget_next_iff (Memory.load_eq_ok.1 hfetch).1 hv

theorem decode?_jump :
    instructionSet.decode? 0x08000010 = some ⟨Catalog.control[0], [16], 0x08000010⟩ := by
  let e : Encoding := ⟨0xFC000000, 0x08000000, [⟨'i', (List.range 26).reverse⟩]⟩
  have hcompile : Catalog.control[0].template.compile = .ok e := rfl
  exact decode?_of_compile (by simp [catalog]) hcompile (by decide) fun _ => by decide

/-- The jump at the bottom of the address space goes where its text says. -/
theorem step_target_at_zero :
    let m : Machine := ⟨.initial ⟨false⟩, ⟨⟨#[0x10, 0, 0, 8]⟩, 0⟩, ""⟩
    let d : Decoded := ⟨Catalog.control[0], [16], 0x08000010⟩
    m.memory.load 4 m.cpu.pc = .ok d.word ∧ instructionSet.decode? d.word = some d ∧
      d.descriptor.endsInTarget = true ∧ m.cpu.config.delayedBranching = false ∧
      m.cpu.delay = .empty ∧ d.descriptor.action.Taken m.cpu.flags ∧
      ∃ shown after,
        d.text m.cpu.pc = String.ofList (d.descriptor.mnemonic ++ ' ' :: Text.hexWord shown) ∧
        step ⟨instructionSet.decode?, .empty⟩ m = .done after ∧ after.cpu.pc = shown := by
  intro m d
  have hload : m.memory.load 4 m.cpu.pc = .ok d.word := by decide
  have htarget : d.descriptor.endsInTarget = true := by decide +kernel
  have htaken : d.descriptor.action.Taken m.cpu.flags := fun c hc => by cases hc
  obtain ⟨shown, after, htext, hstep, hpc⟩ :=
    step_target_iff (m := m) .empty hload decode?_jump htarget rfl rfl htaken
  exact ⟨hload, decode?_jump, htarget, rfl, rfl, htaken, shown, after, htext, hstep,
    hpc.2 (by decide)⟩

/-- The jump in the last word of the lowest region goes to the next region, and its text says
otherwise. -/
theorem step_target_at_region_end :
    let m : Machine :=
      ⟨(Processor.initial ⟨false⟩).setPc 0x0FFFFFFC, ⟨⟨#[0x10, 0, 0, 8]⟩, 0x0FFFFFFC⟩, ""⟩
    let d : Decoded := ⟨Catalog.control[0], [16], 0x08000010⟩
    m.memory.load 4 m.cpu.pc = .ok d.word ∧ instructionSet.decode? d.word = some d ∧
      d.descriptor.endsInTarget = true ∧ m.cpu.config.delayedBranching = false ∧
      m.cpu.delay = .empty ∧ d.descriptor.action.Taken m.cpu.flags ∧
      d.text m.cpu.pc = "B 0x00000040" ∧
      ∃ after, step ⟨instructionSet.decode?, .empty⟩ m = .done after ∧
        after.cpu.pc = 0x10000040 := by
  intro m d
  have hload : m.memory.load 4 m.cpu.pc = .ok d.word := by decide
  have htarget : d.descriptor.endsInTarget = true := by decide +kernel
  have htaken : d.descriptor.action.Taken m.cpu.flags := fun c hc => by cases hc
  have htext : d.text m.cpu.pc = "B 0x00000040" := by decide +kernel
  obtain ⟨after, hstep, hpc⟩ :=
    step_of_target (m := m) .empty hload decode?_jump rfl rfl rfl rfl htaken
  have hregion : regionTarget (m.cpu.pc + instructionLength) 16 = 0x10000040 := by decide
  exact ⟨hload, decode?_jump, htarget, rfl, rfl, htaken, htext, after, hstep, hpc.trans hregion⟩

end LegMachine
