import LegMachine.Disasm.Image
import LegMachine.Disasm.Text

/-!
# Listings

A listing has a line for every word of a range, up to the first word that is not wholly mapped. It
is written as text, with or without the bytes of each word, or as JSON; a table of opcodes has a
line for each of its rows, and an image one for each of its segments.
-/

namespace LegMachine

structure Line where
  address : Word
  word : Word
  text : String
  deriving DecidableEq, Repr

namespace Line

def toJson (l : Line) : Json :=
  .ofMembers
    [("addr", .ofInt l.address.toNat), ("word", .ofInt l.word.toNat), ("text", .ofText l.text)]

/-- The bytes of the word in the order in which they lie in memory. -/
def bytesText (l : Line) : List Char :=
  (LittleEndian.split 4 l.word.toNat).flatMap fun b => Text.hexByte b ++ [' ']

def render (showBytes : Bool) (l : Line) : List Char :=
  Text.hexWord l.address ++ ':' :: ' ' ::
    ((if showBytes then l.bytesText ++ [' ', ' '] else []) ++ l.text.toList ++ ['\n'])

end Line

namespace Listing

/-- The lines from an address on, up to the address `stop`, which is not listed. The next address is
counted in 32 bits; it is never counted past the top, where no word is mapped. Every word is taken
to have a text. -/
def lines (decode : Word → Option Decoded) (image : Image) (pc stop : Word) : List Line :=
  if pc < stop then
    match h : image.word? pc with
    | none => []
    | some w => ⟨pc, w, wordText decode pc w⟩ :: lines decode image (pc + 4) stop
  else []
termination_by 0x100000000 - pc.toNat
decreasing_by
  have hnext := Image.toNat_next_of_word? h
  omega

/-- List the lines from an address on, up to the address `stop`. Nothing is listed if a word of them
cannot be printed. -/
def disassemble (decode : Word → Option Decoded) (image : Image) (pc stop : Word) :
    Except Fault (List Line) :=
  if pc < stop then
    match h : image.word? pc with
    | none => .ok []
    | some w => do
      let text ← printWord decode pc w
      return ⟨pc, w, text⟩ :: (← disassemble decode image (pc + 4) stop)
  else .ok []
termination_by 0x100000000 - pc.toNat
decreasing_by
  have hnext := Image.toNat_next_of_word? h
  omega

def render (showBytes : Bool) (lines : List Line) : String :=
  String.ofList (lines.flatMap (Line.render showBytes))

def renderJson (lines : List Line) : String :=
  String.ofList ((Json.array (lines.map Line.toJson)).writeIndented 0)

def renderRow (r : OpcodeRow) : List Char :=
  (Nat.toDigits 10 r.specificity).leftpad 2 ' ' ++ "  mask ".toList ++ Text.hexWord r.mask ++
    "  match ".toList ++ Text.hexWord r.fixed ++ "  ".toList ++ r.sample.toList ++ ['\n']

def renderRows (rows : List OpcodeRow) : String :=
  String.ofList (rows.flatMap renderRow)

def segmentRow (name start stop permissions : List Char) : List Char :=
  name.rightpad 10 ' ' ++ ' ' :: start.rightpad 10 ' ' ++ ' ' :: stop.rightpad 10 ' ' ++
    ' ' :: permissions.rightpad 6 ' ' ++ ['\n']

def renderSegments (image : Image) : String :=
  String.ofList (segmentRow "name".toList "start".toList "end".toList "perms".toList ++
    image.segments.flatMap fun s =>
      segmentRow s.name.toList (Text.hexWord s.base) (Text.hexWord s.endAddress)
        s.permissions.toList)

end Listing

end LegMachine
