import LegMachine.Isa.Descriptor

/-!
# Opcode tables

The entries of a table are grouped by mask. Groups are probed from the most specific mask, the one
with the most fixed bits, to the least; of two masks with equally many bits the smaller number is
first. Within a group the fixed bits of a word decide, and they lie in ascending order, so that a
table does not depend on the order in which its entries were added.
-/

namespace LegMachine

/-- A descriptor together with its compiled template. -/
structure Entry where
  descriptor : Descriptor
  encoding : Encoding
  deriving DecidableEq, Repr

/-- A word read as an instruction. -/
structure Decoded where
  descriptor : Descriptor
  operands : List Word
  word : Word
  deriving DecidableEq, Repr

def Entry.decode (e : Entry) (w : Word) : Decoded :=
  ⟨e.descriptor, e.encoding.extract w, w⟩

def bitCount (w : Word) : Nat :=
  (List.range 32).countP w.getLsbD

/-- Whether words are compared with the mask `a` before the mask `b`. -/
def probedBefore (a b : Word) : Bool :=
  bitCount b < bitCount a || (bitCount a == bitCount b && a < b)

/-- The entries that share a mask, by their fixed bits. -/
structure MaskGroup where
  mask : Word
  entries : List Entry
  deriving DecidableEq, Repr

namespace MaskGroup

def specificity (g : MaskGroup) : Nat := bitCount g.mask

def entryAt? (g : MaskGroup) (fixed : Word) : Option Entry :=
  g.entries.find? (·.encoding.fixed == fixed)

end MaskGroup

/-- Add an entry in front of the first one with greater fixed bits. -/
def insertEntry (e : Entry) : List Entry → List Entry
  | [] => [e]
  | x :: rest =>
    if e.encoding.fixed < x.encoding.fixed then e :: x :: rest else x :: insertEntry e rest

/-- Add an entry to the group of its mask, or a new group in its place. -/
def insertGrouped (e : Entry) : List MaskGroup → List MaskGroup
  | [] => [⟨e.encoding.mask, [e]⟩]
  | g :: rest =>
    if g.mask = e.encoding.mask then { g with entries := insertEntry e g.entries } :: rest
    else if probedBefore e.encoding.mask g.mask then ⟨e.encoding.mask, [e]⟩ :: g :: rest
    else g :: insertGrouped e rest

/-- The groups of a table, in the order in which they are probed. -/
structure OpcodeTable where
  groups : List MaskGroup
  deriving DecidableEq, Repr

/-- What a listing of a table shows of an entry. -/
structure OpcodeRow where
  mask : Word
  specificity : Nat
  fixed : Word
  sample : String
  deriving DecidableEq, Repr

namespace OpcodeTable

def empty : OpcodeTable := ⟨[]⟩

def entryAt? (t : OpcodeTable) (mask fixed : Word) : Option Entry :=
  (t.groups.find? (·.mask == mask)).bind (·.entryAt? fixed)

/-- Add a descriptor, unless its template does not compile or its fixed bits are taken. -/
def insert (t : OpcodeTable) (d : Descriptor) : Except CatalogError OpcodeTable :=
  match d.template.compile with
  | .error e => .error e
  | .ok encoding =>
    match t.entryAt? encoding.mask encoding.fixed with
    | some old =>
      .error (.collision old.descriptor.sample d.sample encoding.mask encoding.fixed)
    | none => .ok ⟨insertGrouped ⟨d, encoding⟩ t.groups⟩

/-- The table of a catalog, or the first error met. -/
def ofCatalog (catalog : List Descriptor) : Except CatalogError OpcodeTable :=
  catalog.foldlM insert empty

/-- Read a word by the first group that has an entry for its fixed bits. -/
def find? (t : OpcodeTable) (w : Word) : Option Decoded :=
  t.groups.findSome? fun g => (g.entryAt? (w &&& g.mask)).map (·.decode w)

/-- The entries in the order in which words are compared with them. -/
def rows (t : OpcodeTable) : List OpcodeRow :=
  t.groups.flatMap fun g => g.entries.map fun e =>
    ⟨g.mask, g.specificity, e.encoding.fixed, e.descriptor.sample⟩

end OpcodeTable

structure InstructionSet where
  catalog : List Descriptor
  table : OpcodeTable

namespace InstructionSet

def ofCatalog (catalog : List Descriptor) : Except CatalogError InstructionSet :=
  (OpcodeTable.ofCatalog catalog).map (⟨catalog, ·⟩)

def decode? (s : InstructionSet) (w : Word) : Option Decoded :=
  s.table.find? w

end InstructionSet

end LegMachine
