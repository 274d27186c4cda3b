import LegMachine.Word
import LegMachine.Text.Quoted
import LegMachine.Text.Number

/-!
# Templates and encodings

A template describes a word by 32 characters, the first one for bit 31. The digits 0 and 1 are fixed
bits; any other character names an operand field, which holds the bits where it stands, however they
lie. An encoding is what a template compiles to: the mask of its fixed bits, their values, and its
fields in order of first appearance. Operands are gathered from the bits of a field and scattered
over them, the most significant bit first.
-/

namespace LegMachine

/-- A word described by its bits, bit 31 first. -/
abbrev Template := List Char

/-- Why an instruction cannot be added to a table. -/
inductive CatalogError where
  | templateLength (template : Template)
  | tooManyFields (template : Template)
  /-- Two instructions have the same fixed bits. -/
  | collision (existing added : String) (mask fixed : Word)
  deriving DecidableEq, Repr

/-- The most operands that an instruction may have. -/
def maxOperands : Nat := 4

def CatalogError.message : CatalogError → String
  | templateLength t =>
    "template " ++ String.ofList (Text.quote t) ++ " has " ++
      String.ofList (Text.decimal t.length) ++ " bits, expected 32"
  | tooManyFields t =>
    "template " ++ String.ofList (Text.quote t) ++ " names more than " ++
      String.ofList (Text.decimal maxOperands) ++ " operand fields"
  | collision existing added mask fixed =>
    String.ofList (Text.quote added.toList) ++ " collides with " ++
      String.ofList (Text.quote existing.toList) ++ " (mask " ++
      String.ofList (Text.hexWord mask) ++ ", match " ++ String.ofList (Text.hexWord fixed) ++ ")"

/-- The word that has exactly the bits at `positions`. -/
def wordOfBits (positions : List Nat) : Word :=
  positions.foldr (fun p w => BitVec.twoPow 32 p ||| w) 0

/-- The bits of `w` at `positions`, the first one the most significant. -/
def gather (positions : List Nat) (w : Word) : Word :=
  BitVec.ofNat 32 (positions.foldl (fun v p => 2 * v + (w.getLsbD p).toNat) 0)

/-- The word that has the low bits of `v` at `positions`, the first one the most significant. -/
def scatter (v : Word) : List Nat → Word
  | [] => 0
  | p :: rest => (if v.getLsbD rest.length then BitVec.twoPow 32 p else 0) ||| scatter v rest

/-- Bit `k` of a scattered value stands at the position `k` places before the last. -/
theorem getLsbD_scatter (v : Word) {positions : List Nat} (hn : positions.Nodup)
    (hlt : ∀ p ∈ positions, p < 32) (i : Nat) :
    (scatter v positions).getLsbD i =
      (decide (i ∈ positions) && v.getLsbD (positions.length - 1 - positions.idxOf i)) := by
  induction positions with
  | nil => simp [scatter]
  | cons p rest ih =>
    obtain ⟨hp, hn⟩ := List.nodup_cons.1 hn
    have hp32 : p < 32 := hlt p List.mem_cons_self
    rw [scatter, BitVec.getLsbD_or, ih hn fun q hq => hlt q (List.mem_cons_of_mem _ hq)]
    by_cases hip : i = p
    · subst hip
      cases hv : v.getLsbD rest.length <;> simp [hp, hv, hp32]
    · have hpi : (p == i) = false := by simpa using fun e => hip e.symm
      have hidx : rest.length - (rest.idxOf i + 1) = rest.length - 1 - rest.idxOf i := by omega
      have hbit : (if v.getLsbD rest.length then BitVec.twoPow 32 p else 0).getLsbD i = false := by
        have hpi : p ≠ i := fun e => hip e.symm
        cases v.getLsbD rest.length <;> simp [BitVec.getLsbD_twoPow, hpi]
      rw [hbit, List.idxOf_cons, hpi, List.length_cons]
      simp [hip, hidx]

theorem testBit_foldl_bits (w : Word) (positions : List Nat) (v i : Nat) :
    (positions.foldl (fun v p => 2 * v + (w.getLsbD p).toNat) v).testBit i =
      if i < positions.length then w.getLsbD (positions.getD (positions.length - 1 - i) 0)
      else v.testBit (i - positions.length) := by
  induction positions generalizing v with
  | nil => simp
  | cons p rest ih =>
    rw [List.foldl_cons, ih]
    obtain h | rfl | h := Nat.lt_trichotomy i rest.length
    · have hk : rest.length - i = (rest.length - 1 - i) + 1 := by omega
      simp [h, Nat.lt_succ_of_lt h, hk]
    · cases hb : w.getLsbD p <;> simp [hb]
    · have hk : i - rest.length = (i - (rest.length + 1)) + 1 := by omega
      rw [if_neg (by omega), List.length_cons, if_neg (by omega), hk, Nat.testBit_succ]
      congr 1
      cases w.getLsbD p
      · simp
      · simp
        omega

/-- Bit `k` of a gathered value comes from the position `k` places before the last. -/
theorem getLsbD_gather (w : Word) {positions : List Nat} (hlen : positions.length ≤ 32) (i : Nat) :
    (gather positions w).getLsbD i =
      (decide (i < positions.length) &&
        w.getLsbD (positions.getD (positions.length - 1 - i) 0)) := by
  rw [gather, BitVec.getLsbD_ofNat, testBit_foldl_bits]
  by_cases h : i < positions.length
  · simp [h]; intro; omega
  · simp [h]

/-- An operand field: the character that names it and the bits that it holds, highest first. -/
structure Field where
  letter : Char
  positions : List Nat
  deriving DecidableEq, Repr

namespace Field

def bits (f : Field) : Word := wordOfBits f.positions

def width (f : Field) : Nat := f.positions.length

end Field

structure Encoding where
  /-- The fixed bits. -/
  mask : Word
  /-- Their values. -/
  fixed : Word
  fields : List Field
  deriving DecidableEq, Repr

namespace Template

/-- The bits that a class of characters describes, highest first. -/
def positionsWhere (p : Char → Bool) (t : Template) : List Nat :=
  (t.zipIdx.filter (p ·.1)).map (31 - ·.2)

/-- The characters that name fields, in order of first appearance. -/
def letters (t : Template) : List Char :=
  (t.filter fun c => c != '0' && c != '1').eraseDups

def fields (t : Template) : List Field :=
  (letters t).map fun c => ⟨c, positionsWhere (· == c) t⟩

/-- Compile a template. Its length is checked before its fields are counted. -/
def compile (t : Template) : Except CatalogError Encoding :=
  if t.length ≠ 32 then .error (.templateLength t)
  else if maxOperands < (letters t).length then .error (.tooManyFields t)
  else .ok
    { mask := wordOfBits (positionsWhere (fun c => c == '0' || c == '1') t)
      fixed := wordOfBits (positionsWhere (· == '1') t)
      fields := fields t }

end Template

namespace Encoding

def accepts (e : Encoding) (w : Word) : Bool :=
  w &&& e.mask == e.fixed

def extract (e : Encoding) (w : Word) : List Word :=
  e.fields.map fun f => gather f.positions w

/-- The word with these operands. High bits that a field has no room for are dropped, a field
without an operand is zero, and operands without a field are ignored. -/
def encode (e : Encoding) (operands : List Word) : Word :=
  (e.fields.zip operands).foldl (fun w (f, v) => w ||| scatter v f.positions) e.fixed

end Encoding

end LegMachine
