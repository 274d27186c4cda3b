import LegMachine.Proofs.Disasm.WordText
import LegMachine.Proofs.Text.Trim

/-!
# Operands in the place of tokens

`Piece.Splits` says from left to right what the pieces of a text are: an operand token where one
stands, and a character where none does. The scan finds these pieces and no others
(`Piece.splits_iff`), so it makes sense to speak of the token with some number. The text of an
instruction is its mnemonic and what follows it in the sample, with an operand in the place of every
token that has one, and all else as it stands (`text_substitutes`).
-/

namespace LegMachine

namespace Piece

/-! ## Tokens -/

/-- Some digits that do not go on in the text behind them. -/
structure IsRun (digits after : List Char) : Prop where
  ne_nil : digits ≠ []
  isDigit : ∀ c ∈ digits, c.isDigit = true
  maximal : ∀ c ∈ after.head?, c.isDigit = false

/-- The piece is an operand token in front of a text: a bank letter with digits, digits, digits
behind a minus sign, or one of the two words. -/
def IsToken (after : List Char) : Piece → Prop
  | verbatim _ => False
  | register bank digits => (bank = 'X' ∨ bank = 'S' ∨ bank = 'D') ∧ IsRun digits after
  | number digits | signedNumber digits => IsRun digits after
  | target | label => True

/-- The piece is an operand token behind one text and in front of another: what is before it does
not end with a letter or digit. -/
structure Stands (before : List Char) (p : Piece) (after : List Char) : Prop where
  boundary : ∀ c ∈ before.getLast?, c.isAlphanum = false
  token : p.IsToken after

/-- The pieces of a text that follows another one. Where an operand token stands it is a piece, and
the search goes on behind it; where none stands the character is a piece. -/
inductive Splits : List Char → List Char → List Piece → Prop
  | nil {before : List Char} : Splits before [] []
  | token {before after text : List Char} {p : Piece} {ps : List Piece} : p.Stands before after →
      text = p.lexeme ++ after → Splits (before ++ p.lexeme) after ps → Splits before text (p :: ps)
  | verbatim {before after : List Char} {c : Char} {ps : List Piece} :
      (∀ (q : Piece) (rest : List Char), q.Stands before rest → c :: after ≠ q.lexeme ++ rest) →
      Splits (before ++ [c]) after ps → Splits before (c :: after) (.verbatim c :: ps)

variable {before digits after text : List Char} {p : Piece} {ps : List Piece}

theorem takeWhile_of_isRun (h : IsRun digits after) :
    (digits ++ after).takeWhile Char.isDigit = digits := by
  have hafter : after.takeWhile Char.isDigit = [] := by
    cases after with
    | nil => rfl
    | cons c after =>
      have hc : c.isDigit = false := h.maximal c rfl
      rw [List.takeWhile_cons, hc]
      rfl
  rw [List.takeWhile_append_of_pos h.isDigit, hafter, List.append_nil]

theorem isRun_takeWhile (h : text.takeWhile Char.isDigit ≠ []) :
    IsRun (text.takeWhile Char.isDigit) (text.dropWhile Char.isDigit) where
  ne_nil := h
  isDigit _ hc := List.mem_takeWhile_imp hc
  maximal _ hc := Text.eq_false_of_mem_head?_dropWhile hc

theorem IsToken.exists_lexeme (h : p.IsToken after) : ∃ c rest, p.lexeme = c :: rest := by
  cases p with
  | verbatim c => exact h.elim
  | number digits => exact List.exists_cons_of_ne_nil h.ne_nil
  | register | signedNumber | target | label => exact ⟨_, _, rfl⟩

/-- What a token begins with tells which token it is. -/
theorem token?_append (h : p.IsToken after) : token? (p.lexeme ++ after) = some p := by
  cases p with
  | verbatim c => exact h.elim
  | register bank digits =>
    obtain ⟨hbank, hrun⟩ := h
    have hletter : (bank == 'X' || bank == 'S' || bank == 'D') = true := by
      rcases hbank with rfl | rfl | rfl <;> rfl
    simp [token?, lexeme, takeWhile_of_isRun hrun, hletter, hrun.ne_nil]
  | number digits =>
    have hrun := takeWhile_of_isRun h
    obtain ⟨c, rest, rfl⟩ := List.exists_cons_of_ne_nil h.ne_nil
    have hc : c.isDigit = true := h.isDigit c List.mem_cons_self
    have hletter : ∀ bank : Char, bank.isDigit = false → (c == bank) = false := by
      intro bank hbank
      rw [beq_eq_false_iff_ne]
      rintro rfl
      exact Bool.noConfusion (hc.symm.trans hbank)
    rw [List.cons_append, List.takeWhile_cons, hc] at hrun
    simp [token?, lexeme, hletter 'X' (by decide), hletter 'S' (by decide),
      hletter 'D' (by decide), hc, (List.cons.inj hrun).2]
  | signedNumber digits =>
    have hminus : ('-').isDigit = false := by decide
    simp [token?, lexeme, takeWhile_of_isRun h, hminus, h.ne_nil]
  | target =>
    have ht : ('t').isDigit = false := by decide
    simp [token?, lexeme, ht]
  | label =>
    have hl : ('l').isDigit = false := by decide
    simp [token?, lexeme, hl]

theorem exists_of_token? (h : token? text = some p) :
    ∃ after, text = p.lexeme ++ after ∧ p.IsToken after := by
  cases text with
  | nil => cases h
  | cons c rest =>
    have hrest : rest = rest.takeWhile Char.isDigit ++ rest.dropWhile Char.isDigit :=
      List.takeWhile_append_dropWhile.symm
    have hrun : (!(rest.takeWhile Char.isDigit).isEmpty) = true →
        IsRun (rest.takeWhile Char.isDigit) (rest.dropWhile Char.isDigit) :=
      fun h => isRun_takeWhile (by simpa using h)
    unfold token? at h
    dsimp only at h
    split at h
    · next hregister =>
      cases h
      obtain ⟨hbank, hdigits⟩ := Bool.and_eq_true_iff.1 hregister
      exact ⟨_, congrArg (c :: ·) hrest, by simpa [or_assoc] using hbank, hrun hdigits⟩
    split at h
    · next hdigit =>
      cases h
      have hfront : (c :: rest).takeWhile Char.isDigit = c :: rest.takeWhile Char.isDigit :=
        List.takeWhile_cons_of_pos hdigit
      have hback : (c :: rest).dropWhile Char.isDigit = rest.dropWhile Char.isDigit :=
        List.dropWhile_cons_of_pos hdigit
      have hne : (c :: rest).takeWhile Char.isDigit ≠ [] := by
        rw [hfront]
        exact List.cons_ne_nil _ _
      have hall := isRun_takeWhile hne
      rw [hfront, hback] at hall
      exact ⟨_, congrArg (c :: ·) hrest, hall⟩
    split at h
    · next hsigned =>
      cases h
      obtain ⟨hminus, hdigits⟩ := Bool.and_eq_true_iff.1 hsigned
      obtain rfl := eq_of_beq hminus
      exact ⟨_, congrArg ('-' :: ·) hrest, hrun hdigits⟩
    split at h
    · next hprefix =>
      cases h
      obtain ⟨after, hafter⟩ := List.isPrefixOf_iff_prefix.1 hprefix
      exact ⟨after, hafter.symm, trivial⟩
    split at h
    · next hprefix =>
      cases h
      obtain ⟨after, hafter⟩ := List.isPrefixOf_iff_prefix.1 hprefix
      exact ⟨after, hafter.symm, trivial⟩
    · cases h

/-! ## The scan -/

/-- Whether a token may begin behind a text. -/
def boundary (before : List Char) : Bool :=
  before.getLast?.all (!·.isAlphanum)

@[simp] theorem boundary_concat (before : List Char) (c : Char) :
    boundary (before ++ [c]) = !c.isAlphanum := by
  simp [boundary]

theorem stands_iff : p.Stands before after ↔ boundary before = true ∧ p.IsToken after := by
  rw [boundary, Option.all_eq_true]
  exact ⟨fun h => ⟨fun c hc => by simp [h.boundary c hc], h.token⟩,
    fun h => ⟨fun c hc => by simpa using h.1 c hc, h.2⟩⟩

theorem scan_append (before skipped after : List Char) :
    scan skipped.length (boundary before) (skipped ++ after) =
      scan 0 (boundary (before ++ skipped)) after := by
  induction skipped generalizing before with
  | nil => rw [List.append_nil, List.length_nil, List.nil_append]
  | cons c skipped ih =>
    rw [List.length_cons, List.cons_append, scan, ← boundary_concat before, ih, List.append_assoc,
      List.singleton_append]

theorem scan_token (h : p.Stands before after) :
    scan 0 (boundary before) (p.lexeme ++ after) =
      p :: scan 0 (boundary (before ++ p.lexeme)) after := by
  obtain ⟨hboundary, htoken⟩ := stands_iff.1 h
  obtain ⟨c, rest, hlexeme⟩ := htoken.exists_lexeme
  have hfound := token?_append htoken
  rw [hlexeme, List.cons_append] at hfound
  -- what is skipped is the lexeme but for its first character
  have hskip : scan rest.length (!c.isAlphanum) (rest ++ after) =
      scan 0 (boundary (before ++ p.lexeme)) after := by
    rw [← boundary_concat before, scan_append, hlexeme, List.append_assoc, List.singleton_append]
  rw [hlexeme, List.cons_append, scan, if_pos hboundary, hfound]
  dsimp only
  rw [hlexeme, List.length_cons, Nat.add_sub_cancel, hskip, hlexeme]

theorem scan_verbatim {c : Char}
    (h : ∀ (q : Piece) (rest : List Char), q.Stands before rest → c :: after ≠ q.lexeme ++ rest) :
    scan 0 (boundary before) (c :: after) =
      verbatim c :: scan 0 (boundary (before ++ [c])) after := by
  have hnone : (if boundary before then token? (c :: after) else none) = none := by
    rw [Option.eq_none_iff_forall_ne_some]
    intro q hq
    split at hq
    · next hboundary =>
      obtain ⟨rest, htext, htoken⟩ := exists_of_token? hq
      exact h q rest (stands_iff.2 ⟨hboundary, htoken⟩) htext
    · cases hq
  rw [scan, hnone, boundary_concat]

theorem splits_scan (before text : List Char) :
    Splits before text (scan 0 (boundary before) text) := by
  induction hn : text.length using Nat.strong_induction_on generalizing before text with
  | _ n ih =>
  subst hn
  cases text with
  | nil => exact .nil
  | cons c after =>
    by_cases h : ∃ (q : Piece) (rest : List Char),
        q.Stands before rest ∧ c :: after = q.lexeme ++ rest
    · obtain ⟨q, rest, hstands, htext⟩ := h
      have hshorter : rest.length < (c :: after).length := by
        obtain ⟨d, tail, hlexeme⟩ := hstands.token.exists_lexeme
        rw [htext, hlexeme, List.length_append, List.length_cons]
        omega
      rw [htext, scan_token hstands]
      exact .token hstands rfl (ih _ hshorter _ _ rfl)
    · have hnone : ∀ (q : Piece) (rest : List Char), q.Stands before rest →
          c :: after ≠ q.lexeme ++ rest := fun q rest hstands htext => h ⟨q, rest, hstands, htext⟩
      rw [scan_verbatim hnone]
      exact .verbatim hnone (ih _ (Nat.lt_succ_self _) _ _ rfl)

/-- The scan finds the pieces of a text, and no other pieces split it. -/
theorem splits_iff : Splits before text ps ↔ ps = scan 0 (boundary before) text := by
  constructor
  · intro h
    induction h with
    | nil => rfl
    | token hstands htext _ ih => rw [htext, scan_token hstands, ih]
    | verbatim hnone _ ih => rw [scan_verbatim hnone, ih]
  · rintro rfl
    exact splits_scan before text

/-- Every character of a text is in one of its pieces, in order. -/
theorem Splits.flatMap_lexeme (h : Splits before text ps) : ps.flatMap lexeme = text := by
  induction h with
  | nil => rfl
  | token _ htext _ ih => rw [List.flatMap_cons, ih, htext]
  | verbatim _ _ ih => rw [List.flatMap_cons, ih, lexeme, List.singleton_append]

/-! ## Operands by number -/

/-- The text of some pieces, with `shown k p` in the place of an operand token `p` that has the
number `k`. The first one has the number given. -/
def substitute (shown : Nat → Piece → List Char) (k : Nat) : List Piece → List Char
  | [] => []
  | p :: ps =>
    if p.isOperand then shown k p ++ substitute shown (k + 1) ps
    else p.lexeme ++ substitute shown k ps

theorem substitute_of_lexeme {shown : Nat → Piece → List Char} (h : ∀ k p, shown k p = p.lexeme)
    (k : Nat) (ps : List Piece) : substitute shown k ps = ps.flatMap lexeme := by
  induction ps generalizing k with
  | nil => rfl
  | cons p ps ih => rw [substitute, h, ih, ih, ite_self, List.flatMap_cons]

/-- What stands in the place of the operand token with the number `k`: the operand of that number,
or the token itself if there are not so many. -/
def shown (format : Format) (pc : Word) (operands : List (Word × Nat)) (k : Nat) (p : Piece) :
    List Char :=
  match operands[k]? with
  | some (v, width) => p.render format pc v width
  | none => p.lexeme

theorem renderAll_drop (format : Format) (pc : Word) (operands : List (Word × Nat)) (k : Nat)
    (ps : List Piece) :
    renderAll format pc (operands.drop k) ps = substitute (shown format pc operands) k ps := by
  induction ps generalizing k with
  | nil =>
    cases operands.drop k <;> rfl
  | cons p ps ih =>
    cases hp : p.isOperand with
    | false => simp [renderAll_verbatim hp, substitute, hp, ih]
    | true =>
      by_cases hk : k < operands.length
      · rw [List.drop_eq_getElem_cons hk]
        simp [renderAll, substitute, shown, hp, hk, ih]
      · have hnil : operands.drop k = [] := List.drop_eq_nil_of_le (by omega)
        have hnil' : operands.drop (k + 1) = [] := List.drop_eq_nil_of_le (by omega)
        have hnone : operands[k]? = none := List.getElem?_eq_none (by omega)
        rw [substitute, if_pos hp, ← ih, shown, hnone, hnil, hnil', renderAll]

end Piece

/-! ## The parts of a sample -/

/-- A sample is a mnemonic without blanks and behind some blanks the rest, which is not there
without them. -/
structure Descriptor.Parts (d : Descriptor) (blanks rest : List Char) : Prop where
  sample_eq : d.sample.toList = d.mnemonic ++ (blanks ++ rest)
  not_isBlank_mnemonic : ∀ c ∈ d.mnemonic, Text.isBlank c = false
  isBlank_between : ∀ c ∈ blanks, Text.isBlank c = true
  not_isBlank_front : ∀ c ∈ rest.head?, Text.isBlank c = false
  rest_eq_nil : blanks = [] → rest = []

namespace Descriptor

variable {d : Descriptor}

theorem mnemonic_eq_takeWhile (h : ∀ c ∈ d.sample.toList.head?, Text.isBlank c = false) :
    d.mnemonic = d.sample.toList.takeWhile (!Text.isBlank ·) := by
  unfold mnemonic
  cases htext : d.sample.toList with
  | nil => rfl
  | cons c rest =>
    have hc : Text.isBlank c = false := h c (by rw [htext]; rfl)
    have htrim : Text.trimStart (c :: rest) = c :: rest :=
      List.dropWhile_cons_of_neg (by simp [hc])
    rw [Text.firstWord?, htrim]
    rfl

theorem parts_operandText (h : ∀ c ∈ d.sample.toList.head?, Text.isBlank c = false) :
    ∃ blanks, d.Parts blanks d.operandText := by
  have hword := mnemonic_eq_takeWhile h
  obtain ⟨behind, hbehind⟩ :
      ∃ behind, behind = d.sample.toList.dropWhile (!Text.isBlank ·) := ⟨_, rfl⟩
  have hsample : d.sample.toList = d.mnemonic ++ behind := by
    rw [hword, hbehind, List.takeWhile_append_dropWhile]
  have hcut := Text.dropBytes?_eq_some.2 ⟨d.mnemonic, hsample.symm, rfl⟩
  have hrest : d.operandText = behind.dropWhile Text.isBlank := by
    rw [operandText, operandText?, hcut]
    rfl
  refine ⟨behind.takeWhile Text.isBlank, ?_, ?_, ?_, ?_, ?_⟩
  · rw [hrest, List.takeWhile_append_dropWhile, hsample]
  · intro c hc
    rw [hword] at hc
    simpa using List.mem_takeWhile_imp hc
  · exact fun c hc => List.mem_takeWhile_imp hc
  · intro c hc
    rw [hrest] at hc
    exact Text.eq_false_of_mem_head?_dropWhile hc
  · intro hnil
    cases hcases : behind with
    | nil => rw [hrest, hcases, List.dropWhile_nil]
    | cons c tail =>
      have hstop : c ∈ (d.sample.toList.dropWhile (!Text.isBlank ·)).head? := by
        rw [← hbehind, hcases]
        rfl
      have hc : Text.isBlank c = true := by simpa using Text.eq_false_of_mem_head?_dropWhile hstop
      rw [hcases, List.takeWhile_cons_of_pos hc] at hnil
      cases hnil

end Descriptor

/-! ## The text of an instruction -/

/-- What stands in the place of the operand token with the number `k`, if the operands are read from
a word. -/
def Entry.shown (e : Entry) (pc w : Word) : Nat → Piece → List Char :=
  Piece.shown e.descriptor.format pc
    (e.encoding.fields.map fun f => (gather f.positions w, f.width))

variable {e : Entry}

theorem sizedOperands_decode (he : e.descriptor.template.compile = .ok e.encoding) (w : Word) :
    (e.decode w).sizedOperands =
      e.encoding.fields.map fun f => (gather f.positions w, f.width) := by
  have hwidths : e.descriptor.fieldWidths = e.encoding.fields.map Field.width := by
    rw [Descriptor.fieldWidths, he]
  have hlen : (e.decode w).operands.length = (e.decode w).descriptor.fieldWidths.length := by
    change (e.encoding.extract w).length = e.descriptor.fieldWidths.length
    rw [hwidths, Encoding.extract, List.length_map, List.length_map]
  rw [Decoded.sizedOperands_eq hlen]
  change (e.encoding.extract w).zip e.descriptor.fieldWidths = _
  rw [hwidths, Encoding.extract, List.zip_map']

theorem renderAll_decode (he : e.descriptor.template.compile = .ok e.encoding) (pc w : Word)
    (ps : List Piece) :
    Piece.renderAll e.descriptor.format pc (e.decode w).sizedOperands ps =
      Piece.substitute (e.shown pc w) 0 ps := by
  rw [sizedOperands_decode he]
  exact Piece.renderAll_drop _ _ _ 0 ps

/-- The text of an instruction is the mnemonic, and behind one blank the rest of the sample if there
is one, with the operands in the place of the tokens of their numbers. There is one way to split the
rest, and nothing of it is lost. Without fields it stays as it is. The text is printed if the sample
is ASCII. -/
theorem text_substitutes (hfront : ∀ c ∈ e.descriptor.sample.toList.head?, Text.isBlank c = false)
    (he : e.descriptor.template.compile = .ok e.encoding) (pc w : Word) :
    ((∀ c ∈ e.descriptor.sample.toList, c.toNat < 128) →
      (e.decode w).print pc = .ok ((e.decode w).text pc)) ∧
    ∃ blanks rest ps, e.descriptor.Parts blanks rest ∧
      (∀ qs, Piece.Splits [] rest qs ↔ qs = ps) ∧ ps.flatMap Piece.lexeme = rest ∧
      (e.decode w).text pc = String.ofList (if rest = [] then e.descriptor.mnemonic
        else e.descriptor.mnemonic ++ ' ' :: Piece.substitute (e.shown pc w) 0 ps) ∧
      (e.encoding.fields = [] → Piece.substitute (e.shown pc w) 0 ps = rest) := by
  obtain ⟨blanks, hparts⟩ := Descriptor.parts_operandText hfront
  have hsplits : Piece.Splits [] e.descriptor.operandText e.descriptor.pieces :=
    Piece.splits_scan [] e.descriptor.operandText
  refine ⟨fun hascii => Decoded.print_of_isReadable (Descriptor.isReadable_of_ascii hascii) pc,
    blanks, e.descriptor.operandText, e.descriptor.pieces, hparts, fun qs => Piece.splits_iff,
    hsplits.flatMap_lexeme, ?_, fun hnone => ?_⟩
  · have hif : (e.decode w).chars pc =
        if e.descriptor.operandText.isEmpty then e.descriptor.mnemonic
        else e.descriptor.mnemonic ++ ' ' :: Piece.renderAll e.descriptor.format pc
          (e.decode w).sizedOperands e.descriptor.pieces := rfl
    rw [Decoded.text, hif, renderAll_decode he]
    simp only [List.isEmpty_iff]
  · have hsame : ∀ k p, e.shown pc w k p = p.lexeme := by
      intro k p
      rw [Entry.shown, Piece.shown, hnone, List.map_nil, List.getElem?_nil]
    rw [Piece.substitute_of_lexeme hsame, hsplits.flatMap_lexeme]

/-- Five tokens for two fields. Behind a letter or digit no token begins, so the last minus sign and
the last digit of a word stay. -/
theorem text_substitutes_unevenSample :
    let e : Entry :=
      { descriptor :=
          { sample := "OP\tX12,-5-3 target1 X9", description := "", format := .r, action := .nop
            template := List.replicate 4 '0' ++ List.replicate 12 'a' ++ List.replicate 16 'b' }
        encoding :=
          { mask := 0xF0000000, fixed := 0
            fields := [⟨'a', (List.range' 16 12).reverse⟩, ⟨'b', (List.range' 0 16).reverse⟩] } }
    (∀ c ∈ e.descriptor.sample.toList.head?, Text.isBlank c = false) ∧
      e.descriptor.template.compile = .ok e.encoding ∧
      (∃ blanks rest ps, e.descriptor.Parts blanks rest ∧
        (∀ qs, Piece.Splits [] rest qs ↔ qs = ps) ∧ ps.flatMap Piece.lexeme = rest ∧
        (e.decode 0x00A1FFFE).text 0 = String.ofList (if rest = [] then e.descriptor.mnemonic
          else e.descriptor.mnemonic ++ ' ' :: Piece.substitute (e.shown 0 0x00A1FFFE) 0 ps) ∧
        (e.encoding.fields = [] → Piece.substitute (e.shown 0 0x00A1FFFE) 0 ps = rest)) ∧
      (∀ c ∈ e.descriptor.sample.toList, c.toNat < 128) ∧
      (e.decode 0x00A1FFFE).print 0 = .ok "OP X161,-2-3 target1 X9" := by
  intro e
  have hhead : e.descriptor.sample.toList.head? = some 'O' := by decide +kernel
  have hfront : ∀ c ∈ e.descriptor.sample.toList.head?, Text.isBlank c = false := by
    rw [hhead]
    intro c hc
    obtain rfl := Option.some.inj hc
    decide
  have he : e.descriptor.template.compile = .ok e.encoding := by decide +kernel
  have hascii : ∀ c ∈ e.descriptor.sample.toList, c.toNat < 128 := by
    simp [e]
  have htext : (e.decode 0x00A1FFFE).text 0 = "OP X161,-2-3 target1 X9" := by decide +kernel
  obtain ⟨hprint, hsubstitutes⟩ := text_substitutes hfront he 0 0x00A1FFFE
  exact ⟨hfront, he, hsubstitutes, hascii, htext ▸ hprint hascii⟩

end LegMachine
