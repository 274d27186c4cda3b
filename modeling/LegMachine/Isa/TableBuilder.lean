import LegMachine.Isa.Table
import Mathlib.Data.List.AList

/-!
# Building a table step by step

A builder holds its entries in the order in which they were added, and for every mask an index of
the places where entries stand. An addition works in steps: the index of the mask is made if there
is none, the fixed bits are looked up in it, their place is noted, and the entry is put there. So it
may fail after it has begun. `IndexedTable` is a finished table in this form, and
`IndexedTable.table` is what an opcode table shows of it.
-/

namespace LegMachine

/-- The places of the entries with one mask, by their fixed bits. -/
structure MaskIndex where
  mask : Word
  places : AList fun _ : Word => Nat
  deriving DecidableEq

def MaskIndex.size (g : MaskIndex) : Nat :=
  g.places.entries.length

/-- The place for the fixed bits of a word. -/
def MaskIndex.probe? (g : MaskIndex) (w : Word) : Option Nat :=
  g.places.lookup (w &&& g.mask)

/-- The places in ascending order of the fixed bits. -/
def MaskIndex.sortedPlaces (g : MaskIndex) : List ((_ : Word) × Nat) :=
  g.places.entries.mergeSort fun p q => p.1 ≤ q.1

theorem MaskIndex.mem_sortedPlaces {g : MaskIndex} {p : (_ : Word) × Nat} :
    p ∈ g.sortedPlaces ↔ g.places.lookup p.1 = some p.2 := by
  rw [sortedPlaces, List.mem_mergeSort]
  exact AList.mem_lookup_iff.symm

/-- A table in which the indices lie in the order in which they are probed. -/
structure IndexedTable where
  entries : List Entry
  indices : List MaskIndex
  deriving DecidableEq

structure TableBuilder where
  entries : List Entry
  /-- An index for each mask, in no particular order. -/
  indices : AList fun _ : Word => MaskIndex
  deriving DecidableEq

namespace TableBuilder

def empty : TableBuilder := ⟨[], ∅⟩

/-- Make an index for a mask that has none. -/
def reserve (mask : Word) (b : TableBuilder) : TableBuilder :=
  if mask ∈ b.indices then b else { b with indices := b.indices.insert mask ⟨mask, ∅⟩ }

/-- Note the next place in an index of the mask, and put an entry there. -/
def push (index : MaskIndex) (e : Entry) (b : TableBuilder) : TableBuilder where
  entries := b.entries ++ [e]
  indices := b.indices.insert e.encoding.mask
    { index with places := index.places.insert e.encoding.fixed b.entries.length }

/-- Add a descriptor, unless its template does not compile or its fixed bits are taken. There is no
outcome if the mask has no index, or no entry stands at a place that was noted. -/
def insert (d : Descriptor) (b : TableBuilder) :
    Option (Except CatalogError Unit × TableBuilder) :=
  match d.template.compile with
  | .error e => some (.error e, b)
  | .ok encoding => do
    let b := b.reserve encoding.mask
    let index ← b.indices.lookup encoding.mask
    match index.places.lookup encoding.fixed with
    | some place =>
      let old ← b.entries[place]?
      some (.error (.collision old.descriptor.sample d.sample encoding.mask encoding.fixed), b)
    | none => some (.ok (), b.push index ⟨d, encoding⟩)

/-- Add one descriptor after another, whether or not the additions before it failed. -/
def insertAll : List Descriptor → TableBuilder →
    Option (List (Except CatalogError Unit) × TableBuilder)
  | [], b => some ([], b)
  | d :: rest, b => do
    let (result, b) ← b.insert d
    let (results, b) ← insertAll rest b
    some (result :: results, b)

/-- Add one descriptor after another until an addition fails. -/
def extend : List Descriptor → TableBuilder → Option (Except CatalogError Unit × TableBuilder)
  | [], b => some (.ok (), b)
  | d :: rest, b => do
    let (result, b) ← b.insert d
    match result with
    | .error e => some (.error e, b)
    | .ok () => extend rest b

/-- Put the indices into the order of probing. -/
def build (b : TableBuilder) : IndexedTable where
  entries := b.entries
  indices := (b.indices.entries.map (·.2)).mergeSort fun g g' => !probedBefore g'.mask g.mask

end TableBuilder

namespace IndexedTable

def ofCatalog (catalog : List Descriptor) : Option (Except CatalogError IndexedTable) := do
  let (result, b) ← TableBuilder.empty.extend catalog
  some (result.map fun () => b.build)

/-- Read a word by the first index that has a place for its fixed bits. There is no outcome if no
entry stands there. -/
def find? (t : IndexedTable) (w : Word) : Option (Option Decoded) :=
  match t.indices.findSome? (·.probe? w) with
  | none => some none
  | some place => t.entries[place]?.map fun e => some (e.decode w)

/-- The entries in the order in which words are compared with them. There is no outcome if no entry
stands at a place that was noted. -/
def rows (t : IndexedTable) : Option (List OpcodeRow) :=
  (t.indices.flatMap fun g => g.sortedPlaces.map (g.mask, ·)).mapM fun (mask, p) =>
    t.entries[p.2]?.map fun e => ⟨mask, bitCount mask, p.1, e.descriptor.sample⟩

/-- The entries with one mask, in ascending order of their fixed bits. -/
def entriesOf (t : IndexedTable) (g : MaskIndex) : List Entry :=
  g.sortedPlaces.filterMap fun p => t.entries[p.2]?

def table (t : IndexedTable) : OpcodeTable :=
  ⟨t.indices.map fun g => ⟨g.mask, t.entriesOf g⟩⟩

end IndexedTable

end LegMachine
