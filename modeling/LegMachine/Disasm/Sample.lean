import LegMachine.Isa.Descriptor

/-!
# Samples

The part of a sample behind the mnemonic is a row of operand tokens and of characters that stand for
themselves. A token begins at the front or behind a character that is neither letter nor digit. It
is a register, that is a bank letter with digits, a number, a number behind a minus sign, or one of
the words `target` and `label`. Written one after the other, the lexemes of the pieces are the text.
-/

namespace LegMachine

inductive Piece where
  | verbatim (c : Char)
  | register (bank : Char) (digits : List Char)
  | number (digits : List Char)
  | signedNumber (digits : List Char)
  | target
  | label
  deriving DecidableEq, Repr

namespace Piece

def lexeme : Piece → List Char
  | verbatim c => [c]
  | register bank digits => bank :: digits
  | number digits => digits
  | signedNumber digits => '-' :: digits
  | target => ['t', 'a', 'r', 'g', 'e', 't']
  | label => ['l', 'a', 'b', 'e', 'l']

def isOperand : Piece → Bool
  | verbatim _ => false
  | _ => true

/-- The operand token at the front of a text. -/
def token? (text : List Char) : Option Piece :=
  match text with
  | [] => none
  | c :: rest =>
    let digits := rest.takeWhile Char.isDigit
    if (c == 'X' || c == 'S' || c == 'D') && !digits.isEmpty then some (register c digits)
    else if c.isDigit then some (number (c :: digits))
    else if c == '-' && !digits.isEmpty then some (signedNumber digits)
    else if target.lexeme.isPrefixOf text then some target
    else if label.lexeme.isPrefixOf text then some label
    else none

/-- The pieces of a text. `skip` characters belong to the piece before them; `boundary` tells
whether a token may begin. -/
def scan (skip : Nat) (boundary : Bool) : List Char → List Piece
  | [] => []
  | c :: rest =>
    match skip with
    | skip + 1 => scan skip (!c.isAlphanum) rest
    | 0 =>
      match if boundary then token? (c :: rest) else none with
      | some piece => piece :: scan (piece.lexeme.length - 1) (!c.isAlphanum) rest
      | none => verbatim c :: scan 0 (!c.isAlphanum) rest

end Piece

namespace Descriptor

/-- What follows the mnemonic in the sample, without leading blanks. As many bytes are taken off the
sample as the mnemonic has; behind leading blanks they may end inside a character. -/
def operandText? (d : Descriptor) : Option (List Char) :=
  (Text.dropBytes? (Text.byteLength d.mnemonic) d.sample.toList).map Text.trimStart

/-- What follows the mnemonic, or nothing if the sample cannot be cut there. -/
def operandText (d : Descriptor) : List Char :=
  d.operandText?.getD []

/-- Whether the sample can be read to its end. It is cut there behind every byte that is neither
letter nor digit, to look for a word, and thus inside every character of several bytes. -/
def isReadable (d : Descriptor) : Bool :=
  d.operandText?.any fun text => text.all (·.toNat < 128)

def pieces (d : Descriptor) : List Piece :=
  Piece.scan 0 true d.operandText

theorem mnemonic_sublist (d : Descriptor) : d.mnemonic.Sublist d.sample.toList := by
  unfold mnemonic Text.firstWord?
  split
  · exact List.Sublist.refl _
  · next c rest h =>
    rw [← h]
    exact (List.takeWhile_sublist _).trans (List.dropWhile_sublist _)

/-- A sample in ASCII can be read. -/
theorem isReadable_of_ascii {d : Descriptor} (h : ∀ c ∈ d.sample.toList, c.toNat < 128) :
    d.isReadable = true := by
  have hmnemonic : Text.byteLength d.mnemonic = d.mnemonic.length :=
    Text.byteLength_of_ascii fun c hc => h c (d.mnemonic_sublist.subset hc)
  have hfront : Text.byteLength (d.sample.toList.take d.mnemonic.length) = d.mnemonic.length := by
    rw [Text.byteLength_of_ascii fun c hc => h c (List.mem_of_mem_take hc), List.length_take,
      Nat.min_eq_left d.mnemonic_sublist.length_le]
  have hcut : d.operandText? = some (Text.trimStart (d.sample.toList.drop d.mnemonic.length)) := by
    rw [operandText?, hmnemonic, Text.dropBytes?_eq_some.2 ⟨_, List.take_append_drop .., hfront⟩]
    rfl
  rw [isReadable, hcut, Option.any_some, List.all_eq_true]
  intro c hc
  exact decide_eq_true (h c (List.mem_of_mem_drop ((List.dropWhile_sublist _).subset hc)))

end Descriptor

end LegMachine
