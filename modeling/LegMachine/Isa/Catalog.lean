import LegMachine.Isa.Table

/-!
# The instruction catalog

Every instruction of the machine. Field letters are `d` for a destination or transferred register,
`n` for a first source or base register, `m` for a second source, `s` for a shift amount or status
register, `t` for a stored register, `i` for an immediate, an offset or a target, and `l` for the
halfword of a wide move. A template lists its fields in the order in which the sample shows the
operands.
-/

namespace LegMachine

/-- The low `width` bits of `value` as fixed bits. -/
def bits (width value : Nat) : Template :=
  (List.range width).map fun k => if value.testBit (width - 1 - k) then '1' else '0'

def field (letter : Char) (width : Nat) : Template :=
  List.replicate width letter

/-- Two sources and a destination. -/
def threeRegisters (code function : Nat) : Template :=
  bits 6 code ++ field 'd' 5 ++ field 'n' 5 ++ field 'm' 5 ++ bits 11 function

def registerImmediate (code : Nat) : Template :=
  bits 6 code ++ field 'd' 5 ++ field 'n' 5 ++ field 'i' 16

def shiftAmount (function : Nat) : Template :=
  bits 6 0 ++ field 'd' 5 ++ field 'n' 5 ++ bits 5 0 ++ field 's' 5 ++ bits 6 function

/-- A target of 26 bits. -/
def jumpField (code : Nat) : Template :=
  bits 6 code ++ field 'i' 26

/-- A target of 21 bits behind a condition. -/
def conditionalField (code : Nat) : Template :=
  bits 11 code ++ field 'i' 21

/-- A register that is compared with zero, and a displacement. -/
def compareField (code function : Nat) : Template :=
  bits 6 code ++ field 'n' 5 ++ bits 5 function ++ field 'i' 16

/-- A destination, 16 bits and the halfword that takes them. -/
def wideMove (code : Nat) : Template :=
  bits 6 code ++ field 'd' 5 ++ field 'i' 16 ++ field 'l' 5

def floatRegisters (code function : Nat) : Template :=
  bits 11 code ++ field 'd' 5 ++ field 'n' 5 ++ field 'm' 5 ++ bits 6 function

namespace Catalog

def idle : List Descriptor :=
  [⟨"nop",
    "Null operation : machine code is all zeroes",
    .r, bits 32 0, .nop⟩]

def arithmetic : List Descriptor :=
  [⟨"ADD X1,X2,X3",
    "Addition with overflow : set X1 to (X2 plus X3)",
    .r, threeRegisters 0b000000 0b00000100000, .add⟩,
   ⟨"ADDS X1,X2,X3",
    "Add and set flags : set X1 to (X2 plus X3), and set the processor flags",
    .r, threeRegisters 0b000000 0b00000100001, .adds⟩,
   ⟨"SUB X1,X2,X3",
    "Subtraction with overflow : set X1 to (X2 minus X3)",
    .r, threeRegisters 0b000000 0b00000100010, .sub⟩,
   ⟨"SUBS X1,X2,X3",
    "Subtract and set flags : set X1 to (X2 minus X3), and set the processor flags",
    .r, threeRegisters 0b000000 0b00000100011, .subs⟩,
   ⟨"ADDI X1,X2,100",
    "Addition immediate with overflow : set X1 to (X2 plus sign-extended 16-bit immediate)",
    .i, registerImmediate 0b001000, .addi⟩,
   ⟨"ADDIS X1,X2,100",
    "Add an immediate and set flags : set X1 to (X2 plus sign-extended 16-bit immediate), " ++
      "and set the processor flags",
    .i, registerImmediate 0b001001, .addis⟩,
   ⟨"SUBI X1,X2,100",
    "Subtraction immediate with overflow : set X1 to (X2 minus sign-extended 16-bit immediate)",
    .i, registerImmediate 0b001010, .subi⟩,
   ⟨"SUBIS X1,X2,100",
    "Subtract an immediate and set flags : set X1 to (X2 minus sign-extended 16-bit " ++
      "immediate), and set the processor flags",
    .i, registerImmediate 0b001011, .subis⟩,
   ⟨"MUL X1,X2,X3",
    "Multiplication without overflow : set X1 to low-order 32 bits of the product of X2 and X3",
    .r, threeRegisters 0b011100 0b00000000010, .mul⟩,
   ⟨"SMULH X1,X2,X3",
    "Signed multiplication high : set X1 to high-order 32 bits of the product of X2 and X3",
    .r, threeRegisters 0b011100 0b00000000011, .smulh⟩,
   ⟨"UMULH X1,X2,X3",
    "Unsigned multiplication high : set X1 to high-order 32 bits of the product of unsigned " ++
      "X2 and X3",
    .r, threeRegisters 0b011100 0b00000000100, .umulh⟩,
   ⟨"SDIV X1,X2,X3",
    "Division : divide X2 by X3 then set X1 to the quotient (no effect when X3 is zero)",
    .r, threeRegisters 0b011100 0b00000011010, .sdiv⟩,
   ⟨"UDIV X1,X2,X3",
    "Division unsigned : divide unsigned X2 by X3 then set X1 to the quotient (no effect " ++
      "when X3 is zero)",
    .r, threeRegisters 0b011100 0b00000011011, .udiv⟩]

def logic : List Descriptor :=
  [⟨"AND X1,X2,X3",
    "Bitwise AND : set X1 to bitwise AND of X2 and X3",
    .r, threeRegisters 0b000000 0b00000100100, .and⟩,
   ⟨"ANDS X1,X2,X3",
    "Bitwise AND and set flags : set X1 to bitwise AND of X2 and X3, then set Negative and " ++
      "Zero without touching Carry or oVerflow",
    .r, threeRegisters 0b000000 0b00000100111, .ands⟩,
   ⟨"ANDI X1,X2,100",
    "Bitwise AND immediate : set X1 to bitwise AND of X2 and zero-extended 16-bit immediate",
    .i, registerImmediate 0b001100, .andi⟩,
   ⟨"ANDIS X1,X2,100",
    "Bitwise AND immediate and set flags : set X1 to bitwise AND of X2 and zero-extended " ++
      "16-bit immediate, then set Negative and Zero",
    .i, registerImmediate 0b010000, .andis⟩,
   ⟨"ORR X1,X2,X3",
    "Bitwise OR : set X1 to bitwise OR of X2 and X3",
    .r, threeRegisters 0b000000 0b00000100101, .orr⟩,
   ⟨"ORRI X1,X2,100",
    "Bitwise OR immediate : set X1 to bitwise OR of X2 and zero-extended 16-bit immediate",
    .i, registerImmediate 0b001101, .orri⟩,
   ⟨"EOR X1,X2,X3",
    "Bitwise XOR (exclusive OR) : set X1 to bitwise XOR of X2 and X3",
    .r, threeRegisters 0b000000 0b00000100110, .eor⟩,
   ⟨"EORI X1,X2,100",
    "Bitwise XOR immediate : set X1 to bitwise XOR of X2 and zero-extended 16-bit immediate",
    .i, registerImmediate 0b001110, .eori⟩,
   ⟨"LSL X1,X2,10",
    "Logical shift left : set X1 to X2 shifted left by the immediate",
    .r, shiftAmount 0b000000, .lsl⟩,
   ⟨"LSR X1,X2,10",
    "Logical shift right : set X1 to X2 shifted right by the immediate, zero-filling",
    .r, shiftAmount 0b000010, .lsr⟩]

def control : List Descriptor :=
  [⟨"B target",
    "Branch unconditionally : jump to statement at target address",
    .j, jumpField 0b000010, .b⟩,
   ⟨"B -100",
    "Branch unconditionally : jump a number of instructions forward equal to the immediate",
    .r, jumpField 0b000101, .bRel⟩,
   ⟨"B.AL target",
    "Branch always : jump to statement at target address",
    .j, conditionalField 0b01010001110, .bCond .al⟩,
   ⟨"B.AL -100",
    "Branch always : jump a number of instructions forward equal to the immediate",
    .r, jumpField 0b000111, .bRel⟩,
   ⟨"BL target",
    "Branch with link : set X30 to the return address then jump to statement at target address",
    .j, jumpField 0b000011, .bl⟩,
   ⟨"BR X1",
    "Branch register : jump to statement whose address is in X1",
    .r, bits 6 0b000000 ++ field 'n' 5 ++ bits 21 0b000000000000000001000, .br⟩,
   ⟨"CBNZ X1,label",
    "Compare and branch not zero : branch to label if X1 is not zero",
    .iBranch, compareField 0b000001 0b00000, .cbnz⟩,
   ⟨"CBZ X1,label",
    "Compare and branch zero : branch to label if X1 is zero",
    .iBranch, compareField 0b000001 0b00001, .cbz⟩,
   ⟨"CBNZ X1,-100",
    "Compare and branch not zero : if X1 is not zero, jump a number of instructions forward " ++
      "equal to the immediate",
    .iBranch, compareField 0b000100 0b00000, .cbnzRel⟩,
   ⟨"CBZ X1,-100",
    "Compare and branch zero : if X1 is zero, jump a number of instructions forward equal to " ++
      "the immediate",
    .iBranch, compareField 0b000100 0b00001, .cbzRel⟩,
   ⟨"B.EQ target",
    "Branch on equal : jump to target if Zero is set",
    .j, conditionalField 0b01010000000, .bCond .eq⟩,
   ⟨"B.NE target",
    "Branch on not equal : jump to target if Zero is clear",
    .j, conditionalField 0b01010000001, .bCond .ne⟩,
   ⟨"B.CS target",
    "Branch on carry set : jump to target if Carry is set",
    .j, conditionalField 0b01010000010, .bCond .cs⟩,
   ⟨"B.HS target",
    "Branch on unsigned higher or same : jump to target if Carry is set",
    .j, conditionalField 0b01010010010, .bCond .cs⟩,
   ⟨"B.CC target",
    "Branch on carry clear : jump to target if Carry is clear",
    .j, conditionalField 0b01010000011, .bCond .cc⟩,
   ⟨"B.LO target",
    "Branch on unsigned lower : jump to target if Carry is clear",
    .j, conditionalField 0b01010010011, .bCond .cc⟩,
   ⟨"B.MI target",
    "Branch on minus : jump to target if Negative is set",
    .j, conditionalField 0b01010000100, .bCond .mi⟩,
   ⟨"B.PL target",
    "Branch on plus : jump to target if Negative is clear",
    .j, conditionalField 0b01010000101, .bCond .pl⟩,
   ⟨"B.VS target",
    "Branch on overflow set : jump to target if oVerflow is set",
    .j, conditionalField 0b01010000110, .bCond .vs⟩,
   ⟨"B.VC target",
    "Branch on overflow clear : jump to target if oVerflow is clear",
    .j, conditionalField 0b01010000111, .bCond .vc⟩,
   ⟨"B.HI target",
    "Branch on unsigned higher : jump to target if Carry is set and Zero is clear",
    .j, conditionalField 0b01010001000, .bCond .hi⟩,
   ⟨"B.LS target",
    "Branch on unsigned lower or same : jump to target if Carry is clear or Zero is set",
    .j, conditionalField 0b01010001001, .bCond .ls⟩,
   ⟨"B.GE target",
    "Branch on signed greater or equal : jump to target if Negative equals oVerflow",
    .j, conditionalField 0b01010001010, .bCond .ge⟩,
   ⟨"B.LT target",
    "Branch on signed less than : jump to target if Negative differs from oVerflow",
    .j, conditionalField 0b01010001011, .bCond .lt⟩,
   ⟨"B.GT target",
    "Branch on signed greater than : jump to target if Zero is clear and Negative equals " ++
      "oVerflow",
    .j, conditionalField 0b01010001100, .bCond .gt⟩,
   ⟨"B.LE target",
    "Branch on signed less or equal : jump to target if Zero is set or Negative differs from " ++
      "oVerflow",
    .j, conditionalField 0b01010001101, .bCond .le⟩,
   ⟨"SVC 0",
    "Issue a system call : execute the system call specified by value in X8",
    .j, jumpField 0b010110, .svc⟩]

def memory : List Descriptor :=
  [⟨"LDXR X1,[X2,-100]",
    "Load exclusive register : behaves as LDUR since only one processor is simulated",
    .i, registerImmediate 0b110000, .ldxr⟩,
   ⟨"STXR X1,X3,[X2]",
    "Store exclusive register : store X1 at the address in X2, then set X3 to 0 for success",
    .i, bits 6 0b111000 ++ field 't' 5 ++ field 's' 5 ++ field 'n' 5 ++ bits 11 0, .stxr⟩,
   ⟨"LDUR X1,[X2,-100]",
    "Load word : set X1 to contents of effective memory word address",
    .i, registerImmediate 0b100011, .ldur⟩,
   ⟨"STUR X1,[X2,-100]",
    "Store word : store contents of X1 into effective memory word address",
    .i, registerImmediate 0b101011, .stur⟩,
   ⟨"LDA X1,label",
    "Load address : set X1 to the value of the label",
    .i, bits 6 0b011000 ++ field 'd' 5 ++ field 'i' 21, .lda⟩,
   ⟨"MOVZ X1,100,LSL 0",
    "Move wide with zero : set one halfword of X1 to the immediate and zero the rest; LSL " ++
      "selects the halfword, valid inputs 0-3",
    .i, wideMove 0b110010, .movz⟩,
   ⟨"MOVK X1,100,LSL 0",
    "Move wide with keep : set one halfword of X1 to the immediate and keep the rest; LSL " ++
      "selects the halfword, valid inputs 0-3",
    .i, wideMove 0b110011, .movk⟩,
   ⟨"MOVZ X1,100,0",
    "Move wide with zero : as MOVZ X1,100,LSL 0 with the halfword selector written bare",
    .i, wideMove 0b110110, .movz⟩,
   ⟨"MOVK X1,100,0",
    "Move wide with keep : as MOVK X1,100,LSL 0 with the halfword selector written bare",
    .i, wideMove 0b110111, .movk⟩,
   ⟨"LDURB X1,[X2,-100]",
    "Load byte unsigned : set X1 to zero-extended 8-bit value from effective memory byte address",
    .i, registerImmediate 0b100100, .ldurb⟩,
   ⟨"LDURH X1,[X2,-100]",
    "Load halfword unsigned : set X1 to zero-extended 16-bit value from effective memory " ++
      "halfword address",
    .i, registerImmediate 0b100101, .ldurh⟩,
   ⟨"STURB X1,[X2,-100]",
    "Store byte : store the low-order 8 bits of X1 into the effective memory byte address",
    .i, registerImmediate 0b101000, .sturb⟩,
   ⟨"STURH X1,[X2,-100]",
    "Store halfword : store the low-order 16 bits of X1 into the effective memory halfword " ++
      "address",
    .i, registerImmediate 0b101001, .sturh⟩]

def floatingPoint : List Descriptor :=
  [⟨"FADDS S0,S1,S3",
    "Floating point addition single precision : set S0 to S1 plus S3",
    .r, floatRegisters 0b01000110000 0b000000, .fadds⟩,
   ⟨"FSUBS S0,S1,S3",
    "Floating point subtraction single precision : set S0 to S1 minus S3",
    .r, floatRegisters 0b01000110000 0b000001, .fsubs⟩,
   ⟨"FMULS S0,S1,S3",
    "Floating point multiplication single precision : set S0 to S1 times S3",
    .r, floatRegisters 0b01000110000 0b000010, .fmuls⟩,
   ⟨"FDIVS S0,S1,S3",
    "Floating point division single precision : set S0 to S1 divided by S3",
    .r, floatRegisters 0b01000110000 0b000011, .fdivs⟩,
   ⟨"FADDD D0,D2,D4",
    "Floating point addition double precision : set D0 to D2 plus D4",
    .r, floatRegisters 0b01000110001 0b000000, .faddd⟩,
   ⟨"FSUBD D0,D2,D4",
    "Floating point subtraction double precision : set D0 to D2 minus D4",
    .r, floatRegisters 0b01000110001 0b000001, .fsubd⟩,
   ⟨"FMULD D0,D2,D4",
    "Floating point multiplication double precision : set D0 to D2 times D4",
    .r, floatRegisters 0b01000110001 0b000010, .fmuld⟩,
   ⟨"FDIVD D0,D2,D4",
    "Floating point division double precision : set D0 to D2 divided by D4",
    .r, floatRegisters 0b01000110001 0b000011, .fdivd⟩,
   ⟨"LDURS S1,[X2,-100]",
    "Load floating point single : set S1 to 32-bit value from effective memory word address",
    .i, registerImmediate 0b110001, .ldurs⟩,
   ⟨"LDURD D2,[X2,-100]",
    "Load floating point double : set D2 to 64-bit value from effective memory doubleword " ++
      "address",
    .i, registerImmediate 0b110101, .ldurd⟩,
   ⟨"STURS S1,[X2,-100]",
    "Store floating point single : store 32-bit value in S1 to effective memory word address",
    .i, registerImmediate 0b111001, .sturs⟩,
   ⟨"STURD D2,[X2,-100]",
    "Store floating point double : store 64-bit value in D2 to effective memory doubleword " ++
      "address",
    .i, registerImmediate 0b111101, .sturd⟩,
   ⟨"FCMPS S0,S1",
    "Floating point compare single : equal sets Z and V, less than sets N, greater than sets " ++
      "V, unordered sets C",
    .r, bits 11 0b01000110000 ++ field 'n' 5 ++ field 'm' 5 ++ bits 11 0b00000110010, .fcmps⟩,
   ⟨"FCMPD D0,D2",
    "Floating point compare double : equal sets Z and V, less than sets N, greater than sets " ++
      "V, unordered sets C",
    .r, bits 11 0b01000110001 ++ field 'n' 5 ++ field 'm' 5 ++ bits 11 0b00000110010, .fcmpd⟩]

end Catalog

/-- Every instruction of the machine. -/
def catalog : List Descriptor :=
  Catalog.idle ++ Catalog.arithmetic ++ Catalog.logic ++ Catalog.control ++ Catalog.memory ++
    Catalog.floatingPoint

/-- Every template of the catalog compiles, and no two entries have the same fixed bits. -/
theorem ofCatalog_catalog_isOk : (InstructionSet.ofCatalog catalog).toBool = true := by
  decide +kernel

def instructionSet : InstructionSet :=
  match h : InstructionSet.ofCatalog catalog with
  | .ok set => set
  | .error _ => absurd ofCatalog_catalog_isOk (by simp [h, Except.toBool])

end LegMachine
