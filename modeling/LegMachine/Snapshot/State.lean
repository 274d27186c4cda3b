import LegMachine.Isa.Descriptor
import LegMachine.Json.Reader
import LegMachine.Json.Writer
import LegMachine.Machine.FlagText
import LegMachine.Machine.Trap

/-!
# Snapshots

The state of a processor and of a memory as JSON, and the small values that occur in them. A record
is written as an object with its fields in a fixed order; a value with several variants as the name
of the variant, together with what the variant holds. For each type `toJson` and `ofJson?` go there
and back, and `snapshot` and `restore?` do so through text.
-/

namespace LegMachine

namespace Json

/-- A word as an unsigned number. -/
def ofWord (w : Word) : Json := ofInt w.toNat

def toWord? (j : Json) : Option Word :=
  (j.toNat? 0xFFFFFFFF).map (BitVec.ofNat 32)

/-- A word as a signed number. -/
def ofSigned (w : Word) : Json := ofInt w.toInt

def toSigned? (j : Json) : Option Word :=
  (j.toInt? (-0x80000000) 0x7FFFFFFF).map (BitVec.ofInt 32)

/-- Exactly 32 items. -/
def toRegisters? (read : Json → Option Word) (j : Json) : Option (Vector Word 32) := do
  let items ← j.toArray?
  let words ← items.mapM read
  if h : words.length = 32 then some ⟨words.toArray, by simpa using h⟩ else none

end Json

namespace Condition

def toJson (c : Condition) : Json := .ofText c.name

def ofJson? (j : Json) : Option Condition := j.toName?.bind ofName?

end Condition

namespace Format

def toJson (f : Format) : Json := .ofText f.name

def ofJson? (j : Json) : Option Format := j.toName?.bind ofName?

end Format

namespace Access

def toJson (a : Access) : Json := .ofText a.name

def ofJson? (j : Json) : Option Access := j.toName?.bind ofName?

end Access

namespace Action

def toJson : Action → Json
  | bCond c => .ofMembers [("BCond", c.toJson)]
  | a => .ofText a.name

def ofJson? (j : Json) : Option Action :=
  match j.variant? with
  | some (name, some payload) =>
    if name = "BCond".toList then (Condition.ofJson? payload).map bCond
    else j.toName?.bind ofName?
  | _ => j.toName?.bind ofName?

end Action

namespace Flags

def toJson (f : Flags) : Json := .string (some f.toText)

def ofJson? (j : Json) : Option Flags := j.toText?.bind ofText?

end Flags

namespace DelaySlot

def toJson : DelaySlot → Json
  | empty => .ofText "Empty"
  | registered t => .ofMembers [("Registered", .ofWord t)]
  | triggered t => .ofMembers [("Triggered", .ofWord t)]

def ofJson? (j : Json) : Option DelaySlot :=
  match j.variant? with
  | some (name, payload) =>
    if name = "Empty".toList then j.toName?.map fun _ => empty
    else if name = "Registered".toList then (payload.bind Json.toWord?).map registered
    else if name = "Triggered".toList then (payload.bind Json.toWord?).map triggered
    else none
  | none => none

end DelaySlot

namespace Config

def toJson (c : Config) : Json :=
  .ofMembers [("delayed_branching", .bool c.delayedBranching)]

def ofJson? (j : Json) : Option Config := do
  match ← j.fields? ["delayed_branching"] with
  | [some delayed] => return ⟨← delayed.toBool?⟩
  | _ => none

end Config

namespace Processor

def toJson (p : Processor) : Json :=
  .ofMembers
    [("pc", .ofWord p.pc), ("flags", p.flags.toJson),
     ("gpr", .array (p.integers.toList.map .ofSigned)),
     ("fpr", .array (p.floats.toList.map .ofWord)), ("delay", p.delay.toJson),
     ("halted", .bool p.halted), ("cfg", p.config.toJson)]

def ofJson? (j : Json) : Option Processor := do
  match ← j.fields? ["pc", "flags", "gpr", "fpr", "delay", "halted", "cfg"] with
  | [some pc, some flags, some integers, some floats, some delay, some halted, some config] =>
    return {
      pc := ← pc.toWord?
      flags := ← Flags.ofJson? flags
      integers := ← integers.toRegisters? Json.toSigned?
      floats := ← floats.toRegisters? Json.toWord?
      delay := ← DelaySlot.ofJson? delay
      halted := ← halted.toBool?
      config := ← Config.ofJson? config }
  | _ => none

end Processor

namespace Memory

def toJson (m : Memory) : Json :=
  .ofMembers
    [("mem", .array (m.bytes.data.toList.map fun b => .ofInt b.toNat)), ("base", .ofWord m.base)]

def ofJson? (j : Json) : Option Memory := do
  match ← j.fields? ["mem", "base"] with
  | [some bytes, some base] =>
    let items ← bytes.toArray?
    let bytes ← items.mapM (·.toNat? 255)
    return ⟨⟨(bytes.map UInt8.ofNat).toArray⟩, ← base.toWord?⟩
  | _ => none

end Memory

def Processor.snapshot (p : Processor) : String :=
  String.ofList p.toJson.write

def Processor.restore? (text : String) : Option Processor :=
  (Json.read text.toList).bind Processor.ofJson?

end LegMachine
