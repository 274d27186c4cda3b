import LegMachine.Proofs.Disasm.WordText
import LegMachine.Proofs.Exec.Accesses
import LegMachine.Proofs.Exec.Alignment
import LegMachine.Proofs.Exec.Sums

/-!
# What is shown of an instruction is what it uses

The text of an instruction is made from the fields of its word, with the widths that its template
gives them; its step extends the operands by widths that the action gives. The address that is
written for a label is the one that the branch goes to, a number is the distance in words or the
offset in bytes that the step takes, and a loaded address is written as it is
(`usesWhatItShows_of_reads`).
-/

namespace LegMachine

def Text.register (bank : Char) (r : Register) : List Char :=
  bank :: decimal r.val

/-- The text at an address is the mnemonic with these operands. -/
def Decoded.Writes (d : Decoded) (pc : Word) (operands : List Char) : Prop :=
  d.text pc = String.ofList (d.descriptor.mnemonic ++ ' ' :: operands)

/-- The sample shows a register, and another one that is the base of a signed offset. -/
def Descriptor.showsOffset (d : Descriptor) : Bool :=
  "[X2,-100]".toList.isSuffixOf d.sample.toList

/-- The action of an instruction is one of these, and its text is made of these pieces, with
operands of these widths. -/
structure Descriptor.Shows (actions : List Action) (format : Format) (widths : List Nat)
    (pieces : List Piece) (d : Descriptor) : Prop where
  action : d.action ∈ actions
  format : d.format = format
  widths : d.fieldWidths = widths
  pieces : d.pieces = pieces

instance (actions : List Action) (format : Format) (widths : List Nat) (pieces : List Piece)
    (d : Descriptor) : Decidable (d.Shows actions format widths pieces) :=
  decidable_of_iff
    (d.action ∈ actions ∧ d.format = format ∧ d.fieldWidths = widths ∧ d.pieces = pieces)
    ⟨fun ⟨ha, hf, hw, hp⟩ => ⟨ha, hf, hw, hp⟩, fun ⟨ha, hf, hw, hp⟩ => ⟨ha, hf, hw, hp⟩⟩

/-! ## Texts -/

section

open Piece

/-- What the samples show that have a label, a signed number or an address among their operands. -/
theorem catalog_shows : ∀ d ∈ catalog,
    (d.sample ∈ ["CBZ X1,label", "CBNZ X1,label"] →
      d.Shows [.cbz, .cbnz] .iBranch [5, 16] [.register 'X' ['1'], verbatim ',', label]) ∧
    (d.sample ∈ ["B -100", "B.AL -100"] →
      d.Shows [.bRel] .r [26] [signedNumber "100".toList]) ∧
    (d.sample ∈ ["CBZ X1,-100", "CBNZ X1,-100"] →
      d.Shows [.cbzRel, .cbnzRel] .iBranch [5, 16]
        [.register 'X' ['1'], verbatim ',', signedNumber "100".toList]) ∧
    (d.showsOffset = true → ∃ r ∈ [('X', ['1']), ('S', ['1']), ('D', ['2'])],
      d.Shows Action.offsetAccesses .i [5, 5, 16] [.register r.1 r.2, verbatim ',', verbatim '[',
        .register 'X' ['2'], verbatim ',', signedNumber "100".toList, verbatim ']']) ∧
    (d.sample = "LDA X1,label" →
      d.Shows [.lda] .i [5, 21] [.register 'X' ['1'], verbatim ',', label]) := by
  decide +kernel

theorem renderAll_register {format : Format} {pc : Word} {bank : Char} {digits : List Char}
    {v : Word} (hv : v.toNat < 2 ^ 5) (values : List Word) (widths : List Nat) (ps : List Piece) :
    renderAll format pc ((v :: values).zip (5 :: widths)) (.register bank digits :: ps) =
      Text.register bank ⟨v.toNat, hv⟩ ++ renderAll format pc (values.zip widths) ps := by
  have hvalue : v.toInt = v.toNat := BitVec.toInt_eq_toNat_of_lt (by omega)
  rw [renderAll_operand rfl, render, hvalue]
  rfl

section

variable {d : Decoded} {w : Word} {actions : List Action} {format : Format} {width : Nat}
  {widths : List Nat} {digits : List Char} {ps : List Piece}
  (hdecode : instructionSet.decode? w = some d)
include hdecode

/-- Behind the mnemonic stand the pieces with the operands, which fit into their fields. -/
theorem writes_pieces (hshows : d.descriptor.Shows actions format widths ps) (hps : ps ≠ []) :
    Fits widths d.operands ∧
      ∀ pc, d.Writes pc (renderAll format pc (d.operands.zip widths) ps) := by
  obtain ⟨e, he, -, rfl⟩ := exists_of_decode? hdecode
  obtain ⟨-, rfl, rfl, rfl⟩ := hshows
  exact ⟨fits_extract he w, fun pc => congrArg String.ofList (chars_decode he hps pc w)⟩

/-- The text of a single operand. -/
theorem writes_operand {p : Piece} (hp : p.isOperand = true)
    (hshows : d.descriptor.Shows actions format [width] [p]) :
    ∃ v, d.displacement = (v.setWidth width).toInt ∧
      ∀ pc, d.Writes pc (p.render format pc v width) := by
  obtain ⟨hfits, hwrites⟩ := writes_pieces hdecode hshows (List.cons_ne_nil _ _)
  unfold Decoded.displacement
  rw [hshows.widths]
  generalize d.operands = ops at hfits hwrites ⊢
  obtain _ | ⟨-, ⟨⟩⟩ := hfits
  refine ⟨_, rfl, fun pc => ?_⟩
  have htext := hwrites pc
  rwa [renderAll_operand hp, List.zip_nil_left, renderAll, List.append_nil] at htext

/-- The text of a register and an operand. -/
theorem writes_register_operand {p : Piece} (hp : p.isOperand = true)
    (hshows : d.descriptor.Shows actions format [5, width]
      [.register 'X' digits, verbatim ',', p]) :
    ∃ n v, Operand.register d.operands 0 = .ok n ∧ Operand.word d.operands 1 = .ok v ∧
      d.displacement = (v.setWidth width).toInt ∧ ∀ pc, d.Writes pc
        (Text.register 'X' n ++ ',' :: p.render format pc v width) := by
  obtain ⟨hfits, hwrites⟩ := writes_pieces hdecode hshows (List.cons_ne_nil _ _)
  unfold Decoded.displacement
  rw [hshows.widths]
  generalize d.operands = ops at hfits hwrites ⊢
  obtain _ | ⟨hn, _ | ⟨-, ⟨⟩⟩⟩ := hfits
  refine ⟨_, _, Operand.register_of_lt rfl hn, rfl, rfl, fun pc => ?_⟩
  have htext := hwrites pc
  rwa [renderAll_register hn, renderAll_verbatim rfl, renderAll_operand hp, List.zip_nil_left,
    renderAll, List.append_nil] at htext

/-- The text of a register and a base register with a signed offset. -/
theorem writes_offset {bank : Char} {digits' digits'' : List Char}
    (hshows : d.descriptor.Shows actions format [5, 5, width] [.register bank digits, verbatim ',',
      verbatim '[', .register 'X' digits', verbatim ',', signedNumber digits'', verbatim ']']) :
    ∃ r n v, Operand.register d.operands 0 = .ok r ∧ Operand.register d.operands 1 = .ok n ∧
      Operand.word d.operands 2 = .ok v ∧ ∀ pc, d.Writes pc
        (Text.register bank r ++ ',' :: '[' :: Text.register 'X' n ++ ',' ::
          Text.decimal (signExtendLow width v).toInt ++ [']']) := by
  obtain ⟨hfits, hwrites⟩ := writes_pieces hdecode hshows (List.cons_ne_nil _ _)
  generalize d.operands = ops at hfits hwrites
  obtain _ | ⟨hr, _ | ⟨hn, _ | ⟨-, ⟨⟩⟩⟩⟩ := hfits
  refine ⟨_, _, _, Operand.register_of_lt rfl hr, Operand.register_of_lt rfl hn, rfl, fun pc => ?_⟩
  have htext := hwrites pc
  rw [renderAll_register hr, renderAll_verbatim rfl, renderAll_verbatim rfl, renderAll_register hn,
    renderAll_verbatim rfl, renderAll_operand rfl, renderAll_verbatim rfl] at htext
  simpa [renderAll, lexeme, render] using htext

end

end

/-! ## Steps -/

/-- The step is done and goes on at the address. -/
def Machine.StepsTo (env : Environment) (target : Word) (m : Machine) : Prop :=
  ∃ after, step env m = .done after ∧ after.cpu.pc = target

/-- What the text of an instruction shows is what its step uses: the address of a label, a distance
in words, an offset in bytes, or an address that is loaded. -/
structure Decoded.UsesWhatItShows (env : Environment) (m : Machine) (d : Decoded) : Prop where
  label : d.descriptor.sample ∈ ["CBZ X1,label", "CBNZ X1,label"] →
    ∃ n target, Operand.register d.operands 0 = .ok n ∧
      d.Writes m.cpu.pc (Text.register 'X' n ++ ',' :: Text.hexWord target) ∧
      (d.descriptor.action.Transfers d.operands m.cpu → m.StepsTo env target)
  distance : d.descriptor.sample ∈ ["B -100", "B.AL -100"] →
    ∃ k, d.Writes m.cpu.pc (Text.decimal k) ∧
      m.StepsTo env (m.cpu.pc + BitVec.ofInt 32 (4 * k))
  comparedDistance : d.descriptor.sample ∈ ["CBZ X1,-100", "CBNZ X1,-100"] →
    ∃ n k, Operand.register d.operands 0 = .ok n ∧
      d.Writes m.cpu.pc (Text.register 'X' n ++ ',' :: Text.decimal k) ∧
      (d.descriptor.action.Transfers d.operands m.cpu →
        m.StepsTo env (m.cpu.pc + BitVec.ofInt 32 (4 * k)))
  offset : d.descriptor.showsOffset = true →
    ∃ bank r n k, d.Writes m.cpu.pc (Text.register bank r ++ ',' :: '[' :: Text.register 'X' n ++
        ',' :: Text.decimal k ++ [']']) ∧
      ∀ after, step env m = .done after →
        m.advancePc.Accesses r (m.cpu.x n + BitVec.ofInt 32 k) d.descriptor.action after
  address : d.descriptor.sample = "LDA X1,label" →
    ∃ r v, d.Writes m.cpu.pc (Text.register 'X' r ++ ',' :: Text.hexShort v) ∧
      step env m = .done (m.advancePc.mapCpu (·.setX r v))

section

variable {services : Registry} {m : Machine} {d : Decoded}
  (hreads : m.Reads ⟨instructionSet.decode?, services⟩ d)
  (hempty : m.cpu.delay = .empty) (hnow : m.cpu.config.delayedBranching = false)

include hreads hempty

/-- An address that is loaded is the operand as it is. -/
theorem step_setAddress {r : Register} {v : Word} (haction : d.descriptor.action = .lda)
    (hr : Operand.register d.operands 0 = .ok r) (hv : Operand.word d.operands 1 = .ok v) :
    step ⟨instructionSet.decode?, services⟩ m = .done (m.advancePc.mapCpu (·.setX r v)) := by
  have hi : Instruction.ofOperands d.descriptor.action d.operands = .ok (.setAddress r v) := by
    rw [haction]
    exact Operand.oneImmediate_eq_ok.2 ⟨r, hr, v, hv, rfl⟩
  have hslot : (m.advancePc.mapCpu (·.setX r v)).cpu.delay = .empty :=
    (Processor.delay_setX r v m.advancePc.cpu).trans hempty
  rw [step_of_run hreads hi rfl, Machine.settle_of_empty hslot]

include hnow

/-- A transfer that takes place at once is followed by the instruction at its target. -/
theorem exists_leadsTo (htaken : d.descriptor.action.Transfers d.operands m.cpu) :
    ∃ target, d.LeadsTo m.cpu target ∧ m.StepsTo ⟨instructionSet.decode?, services⟩ target := by
  obtain ⟨target, hleads, hstep⟩ := exists_target hreads htaken
  refine ⟨target, hleads, _, hstep, ?_⟩
  have hnext : m.advancePc.cpu.config.delayedBranching = false := hnow
  have hslot : m.advancePc.cpu.delay = .empty := hempty
  show ((if d.descriptor.action = .bl then m.advancePc.cpu.linkReturn linkRegister
    else m.advancePc.cpu).jump target).settle.pc = target
  -- a call writes its return address first, which does not touch the delay slot
  split
  · have hlinked : (m.advancePc.cpu.linkReturn linkRegister).config.delayedBranching = false := by
      rw [Processor.linkReturn, Processor.config_setX, hnext]
    exact Processor.pc_settle_jump hlinked ((Processor.delay_setX _ _ _).trans hslot) target
  · exact Processor.pc_settle_jump hnext hslot target

end

/-! ## Targets -/

namespace Decoded.LeadsTo

variable {d : Decoded} {p : Processor} {target v : Word}

theorem eq_label (h : d.LeadsTo p target) (haction : d.descriptor.action ∈ [.cbz, .cbnz])
    (hv : d.displacement = (v.setWidth 16).toInt) :
    target = p.pc + instructionLength + signExtendLow 16 v <<< 2 := by
  unfold LeadsTo at h
  rw [hv, ← branchTarget_displacement] at h
  simp only [List.mem_cons, List.not_mem_nil, or_false] at haction
  rcases haction with haction | haction
  all_goals
    rw [haction] at h
    exact h

theorem eq_distance (h : d.LeadsTo p target)
    (haction : d.descriptor.action ∈ [.bRel, .cbzRel, .cbnzRel]) :
    target = p.pc + BitVec.ofInt 32 (4 * d.displacement) := by
  have hsum : p.pc + BitVec.ofInt 32 (4 * d.displacement) =
      BitVec.ofInt 32 (p.pc.toNat + 4 * d.displacement) := by
    rw [BitVec.ofInt_add, BitVec.ofInt_natCast, BitVec.ofNat_toNat, BitVec.setWidth_eq]
  unfold LeadsTo at h
  rw [← hsum] at h
  simp only [List.mem_cons, List.not_mem_nil, or_false] at haction
  rcases haction with haction | haction | haction
  all_goals
    rw [haction] at h
    exact h

end Decoded.LeadsTo

/-- Whatever the program counter and the word, what is shown of the operand of a relative branch, a
load, a store or an address is what the step uses, if it is taken at once. -/
theorem usesWhatItShows_of_reads {services : Registry} {m : Machine} {d : Decoded}
    (hreads : m.Reads ⟨instructionSet.decode?, services⟩ d)
    (hnow : m.cpu.config.delayedBranching = false) (hempty : m.cpu.delay = .empty) :
    d.UsesWhatItShows ⟨instructionSet.decode?, services⟩ m := by
  obtain ⟨w, -, hdecode⟩ := id hreads
  dsimp only at hdecode
  have hcatalog := descriptor_mem_of_decode? hdecode
  obtain ⟨hlabels, hdistances, hcompared, hoffsets, haddresses⟩ := catalog_shows _ hcatalog
  constructor
  case label =>
    intro hsample
    have hshows := hlabels hsample
    obtain ⟨n, v, hn, -, hv, hwrites⟩ := writes_register_operand hdecode rfl hshows
    refine ⟨n, _, hn, hwrites m.cpu.pc, fun htaken => ?_⟩
    obtain ⟨target, hleads, hstep⟩ := exists_leadsTo hreads hempty hnow htaken
    rwa [hleads.eq_label hshows.action hv] at hstep
  case distance =>
    intro hsample
    have hshows := hdistances hsample
    obtain ⟨v, hv, hwrites⟩ := writes_operand hdecode rfl hshows
    have htext := hwrites m.cpu.pc
    rw [Piece.render, toInt_signExtendLow (by decide), ← hv] at htext
    have haction := List.mem_singleton.1 hshows.action
    have htaken : d.descriptor.action.Transfers d.operands m.cpu := by
      rw [haction]
      trivial
    obtain ⟨target, hleads, hstep⟩ := exists_leadsTo hreads hempty hnow htaken
    rw [hleads.eq_distance (by simp [haction])] at hstep
    exact ⟨d.displacement, htext, hstep⟩
  case comparedDistance =>
    intro hsample
    have hshows := hcompared hsample
    obtain ⟨n, v, hn, -, hv, hwrites⟩ := writes_register_operand hdecode rfl hshows
    have htext := hwrites m.cpu.pc
    rw [Piece.render, toInt_signExtendLow (by decide), ← hv] at htext
    refine ⟨n, d.displacement, hn, htext, fun htaken => ?_⟩
    obtain ⟨target, hleads, hstep⟩ := exists_leadsTo hreads hempty hnow htaken
    rwa [hleads.eq_distance (List.mem_cons_of_mem _ hshows.action)] at hstep
  case offset =>
    intro hoffset
    obtain ⟨⟨bank, digits⟩, -, hshows⟩ := hoffsets hoffset
    obtain ⟨r, n, v, hr, hn, hv, hwrites⟩ := writes_offset hdecode hshows
    refine ⟨bank, r, n, _, hwrites m.cpu.pc, fun after hstep => ?_⟩
    rw [BitVec.ofInt_toInt]
    exact accesses_of_step hreads hempty hshows.action hr hn hv hstep
  case address =>
    intro hsample
    have hshows := haddresses hsample
    obtain ⟨r, v, hr, hv, -, hwrites⟩ := writes_register_operand hdecode rfl hshows
    have haction := List.mem_singleton.1 hshows.action
    exact ⟨r, v, hwrites m.cpu.pc, step_setAddress hreads hempty haction hr hv⟩

/-- Behind the last word of the address space stands zero, and a branch from there back to that word
is shown and taken so. -/
theorem usesWhatItShows_acrossZero :
    let env : Environment := ⟨instructionSet.decode?, .empty⟩
    let m : Machine :=
      ⟨(Processor.initial ⟨false⟩).setPc 0xFFFFFFFC, ⟨⟨#[0xFF, 0xFF, 0xE1, 7]⟩, 0xFFFFFFFC⟩, ""⟩
    let d : Decoded := ⟨Catalog.control[7], [31, 0xFFFF], 0x07E1FFFF⟩
    m.Reads env d ∧ m.cpu.config.delayedBranching = false ∧ m.cpu.delay = .empty ∧
      d.text m.cpu.pc = "CBZ X31,0xfffffffc" ∧ m.StepsTo env 0xFFFFFFFC := by
  have huses := fun m d => @usesWhatItShows_of_reads .empty m d
  have hword := decode?_branchBack
  generalize instructionSet.decode? = decode at huses hword ⊢
  intro env m d
  have hfetch : m.memory.load 4 m.cpu.pc = .ok d.word := by decide
  have hreads : m.Reads env d := ⟨d.word, hfetch, hword⟩
  have hsample : d.descriptor.sample ∈ ["CBZ X1,label", "CBNZ X1,label"] := .head _
  have htext : d.text m.cpu.pc = "CBZ X31,0xfffffffc" := by decide +kernel
  have hshown : d.Writes m.cpu.pc (Text.register 'X' 31 ++ ',' :: Text.hexWord 0xFFFFFFFC) := by
    unfold Decoded.Writes
    decide +kernel
  obtain ⟨n, target, hn, hwrites, hsteps⟩ := (huses m d hreads rfl rfl).label hsample
  cases hn
  have hrow := List.append_cancel_left (String.ofList_injective (hwrites.symm.trans hshown))
  have haddress := List.append_cancel_left (List.cons.inj hrow).2
  obtain rfl := Text.hexWord_injective (List.cons.inj haddress).2
  exact ⟨hreads, rfl, rfl, htext, hsteps ⟨31, rfl, rfl⟩⟩

end LegMachine
