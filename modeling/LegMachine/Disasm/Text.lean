import LegMachine.Disasm.Sample
import LegMachine.Isa.Table
import LegMachine.Machine.Trap

/-!
# Text of an instruction

A decoded word is written as its descriptor's sample with the operands in the place of the tokens,
in order. A register keeps its bank letter. A number is written as it is, or with its sign where the
sample shows one. A target is written as an address of the region, a label as the address of the
branch, or as a plain number outside of comparisons. A token without an operand stays as it is.

`Decoded.text` is this text. `Decoded.print` has it of a sample that can be read, and a fault of any
other one.
-/

namespace LegMachine

/-- The text of an operand that stands for a piece. The address is that of the instruction. -/
def Piece.render (format : Format) (pc operand : Word) (width : Nat) : Piece → List Char
  | verbatim c => [c]
  | register bank _ => bank :: Text.decimal operand.toInt
  | number _ => Text.decimal operand.toInt
  | signedNumber _ => Text.decimal (signExtendLow width operand).toInt
  | target => Text.hexWord (regionTarget pc operand)
  | label =>
    if format = .iBranch then
      Text.hexWord (pc + instructionLength + signExtendLow 16 operand <<< 2)
    else Text.hexShort operand

/-- The text of some pieces with their operands, each of which has the width of its field. -/
def Piece.renderAll (format : Format) (pc : Word) : List (Word × Nat) → List Piece → List Char
  | _, [] => []
  | [], piece :: rest => piece.lexeme ++ renderAll format pc [] rest
  | (v, width) :: operands, piece :: rest =>
    if piece.isOperand then
      piece.render format pc v width ++ renderAll format pc operands rest
    else piece.lexeme ++ renderAll format pc ((v, width) :: operands) rest

namespace Decoded

def sizedOperands (d : Decoded) : List (Word × Nat) :=
  d.operands.zipIdx.map fun (v, k) => (v, d.descriptor.fieldWidths.getD k 32)

/-- The text of the instruction at an address, where its sample can be read. -/
def chars (d : Decoded) (pc : Word) : List Char :=
  let mnemonic := d.descriptor.mnemonic
  if d.descriptor.operandText.isEmpty then mnemonic
  else mnemonic ++ ' ' ::
    Piece.renderAll d.descriptor.format pc d.sizedOperands d.descriptor.pieces

def text (d : Decoded) (pc : Word) : String :=
  String.ofList (d.chars pc)

/-- Print the instruction at an address. -/
def print (d : Decoded) (pc : Word) : Except Fault String :=
  if d.descriptor.isReadable then .ok (d.text pc) else .error .dividedCharacter

end Decoded

/-- The text of a word that is no instruction. -/
def unknownWord (w : Word) : String :=
  String.ofList (".word ".toList ++ Text.hexWord w)

/-- The text of a word as a decoder reads it, where the sample can be read. -/
def wordText (decode : Word → Option Decoded) (pc w : Word) : String :=
  match decode w with
  | some d => d.text pc
  | none => unknownWord w

/-- Whether a word can be printed as a decoder reads it. -/
def hasText (decode : Word → Option Decoded) (w : Word) : Bool :=
  (decode w).all (·.descriptor.isReadable)

def printWord (decode : Word → Option Decoded) (pc w : Word) : Except Fault String :=
  match decode w with
  | some d => d.print pc
  | none => .ok (unknownWord w)

theorem Decoded.print_of_isReadable {d : Decoded} (h : d.descriptor.isReadable = true) (pc : Word) :
    d.print pc = .ok (d.text pc) :=
  if_pos h

theorem hasText_of_ascii {decode : Word → Option Decoded}
    (h : ∀ w d, decode w = some d → ∀ c ∈ d.descriptor.sample.toList, c.toNat < 128) (w : Word) :
    hasText decode w = true := by
  rw [hasText, Option.all_eq_true]
  exact fun d hd => Descriptor.isReadable_of_ascii (h w d hd)

theorem printWord_eq (decode : Word → Option Decoded) (pc w : Word) :
    printWord decode pc w =
      if hasText decode w then .ok (wordText decode pc w) else .error .dividedCharacter := by
  unfold printWord hasText wordText
  cases decode w <;> rfl

theorem printWord_eq_ok {decode : Word → Option Decoded} {pc w : Word} {text : String} :
    printWord decode pc w = .ok text ↔ hasText decode w = true ∧ wordText decode pc w = text := by
  rw [printWord_eq]
  cases hasText decode w <;> simp

end LegMachine
