import LegMachine.Machine.Flags

/-!
# Actions

What an instruction does, apart from where its operands stand in the word. Several instructions may
share an action: the two spellings of a wide move, or a conditional branch and its synonym.
-/

namespace LegMachine

inductive Action where
  | nop
  | add | adds | sub | subs | addi | addis | subi | subis
  | mul | smulh | umulh | sdiv | udiv
  | and | ands | andi | andis | orr | orri | eor | eori | lsl | lsr
  | b | bRel | bl | br | cbnz | cbz | cbnzRel | cbzRel
  | bCond (condition : Condition)
  | svc
  | ldxr | stxr | ldur | stur | lda | movz | movk | ldurb | ldurh | sturb | sturh
  | fadds | fsubs | fmuls | fdivs | faddd | fsubd | fmuld | fdivd
  | ldurs | ldurd | sturs | sturd | fcmps | fcmpd
  deriving DecidableEq, Repr

namespace Action

/-- The actions that are named by a word alone. -/
def plain : List Action :=
  [nop, add, adds, sub, subs, addi, addis, subi, subis, mul, smulh, umulh, sdiv, udiv, and,
   ands, andi, andis, orr, orri, eor, eori, lsl, lsr, b, bRel, bl, br, cbnz, cbz, cbnzRel,
   cbzRel, svc, ldxr, stxr, ldur, stur, lda, movz, movk, ldurb, ldurh, sturb, sturh, fadds,
   fsubs, fmuls, fdivs, faddd, fsubd, fmuld, fdivd, ldurs, ldurd, sturs, sturd, fcmps, fcmpd]

/-- The word that names an action; a conditional branch has its condition beside it. -/
def name : Action → String
  | nop => "Nop" | add => "Add" | adds => "Adds" | sub => "Sub" | subs => "Subs" | addi => "Addi"
  | addis => "Addis" | subi => "Subi" | subis => "Subis" | mul => "Mul" | smulh => "Smulh"
  | umulh => "Umulh" | sdiv => "Sdiv" | udiv => "Udiv" | and => "And" | ands => "Ands"
  | andi => "Andi" | andis => "Andis" | orr => "Orr" | orri => "Orri" | eor => "Eor"
  | eori => "Eori" | lsl => "Lsl" | lsr => "Lsr" | b => "B" | bRel => "BRel" | bl => "Bl"
  | br => "Br" | cbnz => "Cbnz" | cbz => "Cbz" | cbnzRel => "CbnzRel" | cbzRel => "CbzRel"
  | bCond _ => "BCond" | svc => "Svc" | ldxr => "Ldxr" | stxr => "Stxr" | ldur => "Ldur"
  | stur => "Stur" | lda => "Lda" | movz => "Movz" | movk => "Movk" | ldurb => "Ldurb"
  | ldurh => "Ldurh" | sturb => "Sturb" | sturh => "Sturh" | fadds => "Fadds" | fsubs => "Fsubs"
  | fmuls => "Fmuls" | fdivs => "Fdivs" | faddd => "Faddd" | fsubd => "Fsubd" | fmuld => "Fmuld"
  | fdivd => "Fdivd" | ldurs => "Ldurs" | ldurd => "Ldurd" | sturs => "Sturs" | sturd => "Sturd"
  | fcmps => "Fcmps" | fcmpd => "Fcmpd"

def message : Action → String
  | bCond c => "BCond(" ++ c.name ++ ")"
  | a => a.name

def ofName? (name : String) : Option Action :=
  plain.find? (·.name == name)

def isFloat : Action → Bool
  | fadds | fsubs | fmuls | fdivs | faddd | fsubd | fmuld | fdivd
  | ldurs | ldurd | sturs | sturd | fcmps | fcmpd => true
  | _ => false

end Action

end LegMachine
