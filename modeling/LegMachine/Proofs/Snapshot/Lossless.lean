import LegMachine.Proofs.Exec.Run
import LegMachine.Proofs.Json.RoundTrip
import LegMachine.Proofs.Machine.FlagText
import LegMachine.Snapshot.State

/-!
# Snapshots are lossless

Every value that has a JSON form is read back from it, first as JSON and then, since JSON is read
back as it is written, as text (`Lossless`). A run can therefore be broken off, its processor
written down and restored, and resumed, without a difference (`resumedRun`).
-/

namespace LegMachine

namespace Json

/-! ## Numbers and registers -/

theorem toNat?_ofInt {n limit : Nat} (h : n ≤ limit) : (ofInt n).toNat? limit = some n := by
  have hrange : (0 : Int) ≤ n ∧ (n : Int) ≤ limit := by omega
  simp only [toNat?, toInt?, ofInt, if_pos hrange, Option.map_some, Int.toNat_natCast]

@[simp] theorem toWord?_ofWord (w : Word) : (ofWord w).toWord? = some w := by
  have hw : w.toNat ≤ 0xFFFFFFFF := Nat.le_sub_one_of_lt w.isLt
  simp only [toWord?, ofWord, toNat?_ofInt hw, Option.map_some, BitVec.ofNat_toNat,
    BitVec.setWidth_eq]

@[simp] theorem toSigned?_ofSigned (w : Word) : (ofSigned w).toSigned? = some w := by
  have hlo := BitVec.le_toInt w
  have hhi := BitVec.toInt_lt (x := w)
  have hrange : -0x80000000 ≤ w.toInt ∧ w.toInt ≤ 0x7FFFFFFF := by omega
  simp only [toSigned?, toInt?, ofSigned, ofInt, if_pos hrange, Option.map_some,
    BitVec.ofInt_toInt]

/-- Registers are read back if each of them is. -/
theorem toRegisters?_map {write : Word → Json} {read : Json → Option Word}
    (h : ∀ w, read (write w) = some w) (registers : Vector Word 32) :
    (array (registers.toList.map write)).toRegisters? read = some registers := by
  have hwords : (registers.toList.map write).mapM read = some (registers.toList.map id) :=
    mapM_map_eq_some fun w _ => h w
  rw [List.map_id] at hwords
  simp only [toRegisters?, toArray?, Option.bind_eq_bind, Option.bind_some, hwords,
    Vector.length_toList, dif_pos, Vector.toArray_toList]

/-! ## Records and variants -/

theorem filter_name {name : String} {value : Json} {members : List (String × Json)}
    (hnodup : (members.map (·.1)).Nodup) (h : (name, value) ∈ members) :
    members.filter (·.1 == name) = [(name, value)] := by
  induction members with
  | nil => cases h
  | cons first members ih =>
    rw [List.map_cons, List.nodup_cons] at hnodup
    obtain ⟨hfirst, hnodup⟩ := hnodup
    rcases List.mem_cons.1 h with rfl | hmem
    · have hrest : members.filter (·.1 == name) = [] := by
        rw [List.filter_eq_nil_iff]
        intro m hm hname
        exact hfirst (List.mem_map.2 ⟨m, hm, beq_iff_eq.1 hname⟩)
      rw [List.filter_cons, if_pos (beq_self_eq_true name), hrest]
    · have hne : ¬ (first.1 == name) = true := by
        intro hname
        exact hfirst (List.mem_map.2 ⟨_, hmem, (beq_iff_eq.1 hname).symm⟩)
      rw [List.filter_cons, if_neg hne, ih hnodup hmem]

/-- A member is found by its name. -/
theorem member?_ofMembers {name : String} {value : Json} {members : List (String × Json)}
    (hnodup : (members.map (·.1)).Nodup) (h : (name, value) ∈ members) :
    member? name (members.map fun (k, v) => (some k.toList, v)) = some (some value) := by
  have hkey : (fun m : String × Json => some m.1.toList == some name.toList) =
      fun m => m.1 == name := by
    funext m
    rw [Bool.eq_iff_iff]
    simp [String.toList_inj]
  have hfilter : (members.map fun (k, v) => (some k.toList, v)).filter
      (·.1 == some name.toList) = [(some name.toList, value)] := by
    rw [List.filter_map]
    show (members.filter fun m => some m.1.toList == some name.toList).map _ = _
    rw [hkey, filter_name hnodup h]
    rfl
  rw [member?, hfilter]

/-- The fields of a record that is written with all of them. -/
theorem fields?_ofMembers {members : List (String × Json)} {names : List String}
    (hnames : members.map (·.1) = names) (hnodup : names.Nodup) :
    (ofMembers members).fields? names = some (members.map fun m => some m.2) := by
  subst hnames
  have hall : (members.map fun (k, v) => (some k.toList, v)).all (·.1.isSome) = true := by
    simp
  simp only [ofMembers, fields?, hall, if_true]
  exact mapM_map_eq_some fun m hm => member?_ofMembers hnodup hm

@[simp] theorem toName?_ofText (name : String) : (ofText name).toName? = some name := by
  simp [toName?, variant?, ofText]

end Json

/-! ## Each type by itself -/

namespace Condition

theorem ofJson?_toJson (c : Condition) : ofJson? c.toJson = some c := by
  rw [ofJson?, toJson, Json.toName?_ofText, Option.bind_some, ofName?_name]

end Condition

namespace Action

theorem ofName?_name {a : Action} (h : ∀ c, a ≠ bCond c) : ofName? a.name = some a := by
  cases a with
  | bCond c => exact absurd rfl (h c)
  | _ => decide

theorem ofJson?_toJson (a : Action) : ofJson? a.toJson = some a := by
  by_cases h : ∃ c, a = bCond c
  · obtain ⟨c, rfl⟩ := h
    show (Condition.ofJson? c.toJson).map bCond = some (bCond c)
    rw [Condition.ofJson?_toJson, Option.map_some]
  · have hplain : ∀ c, a ≠ bCond c := fun c hc => h ⟨c, hc⟩
    rw [toJson.eq_2 a fun c hc => hplain c hc]
    show ((Json.ofText a.name).toName?).bind ofName? = some a
    rw [Json.toName?_ofText, Option.bind_some, ofName?_name hplain]

end Action

namespace Flags

theorem ofJson?_toJson (f : Flags) : ofJson? f.toJson = some f := by
  rw [ofJson?, toJson, Json.toText?, Option.bind_some, ofText?_toText]

end Flags

namespace DelaySlot

theorem ofJson?_toJson (d : DelaySlot) : ofJson? d.toJson = some d := by
  cases d with
  | empty => rfl
  | registered t =>
    show ((Json.ofWord t).toWord?).map registered = some (registered t)
    rw [Json.toWord?_ofWord, Option.map_some]
  | triggered t =>
    show ((Json.ofWord t).toWord?).map triggered = some (triggered t)
    rw [Json.toWord?_ofWord, Option.map_some]

end DelaySlot

namespace Config

theorem ofJson?_toJson (c : Config) : ofJson? c.toJson = some c := by
  have hfields : c.toJson.fields? ["delayed_branching"] = _ :=
    Json.fields?_ofMembers rfl (by decide)
  rw [ofJson?, hfields]
  rfl

end Config

namespace Processor

theorem ofJson?_toJson (p : Processor) : ofJson? p.toJson = some p := by
  have hfields : p.toJson.fields? ["pc", "flags", "gpr", "fpr", "delay", "halted", "cfg"] = _ :=
    Json.fields?_ofMembers rfl (by decide)
  rw [ofJson?, hfields]
  simp [Json.toRegisters?_map, Flags.ofJson?_toJson, DelaySlot.ofJson?_toJson,
    Config.ofJson?_toJson, Json.toBool?]

end Processor

namespace Memory

theorem ofJson?_toJson (m : Memory) : ofJson? m.toJson = some m := by
  have hfields : m.toJson.fields? ["mem", "base"] = _ := Json.fields?_ofMembers rfl (by decide)
  have hbytes : (m.bytes.data.toList.map fun b => Json.ofInt b.toNat).mapM (·.toNat? 255) =
      some (m.bytes.data.toList.map UInt8.toNat) :=
    mapM_map_eq_some fun b _ => Json.toNat?_ofInt (Nat.le_of_lt_succ b.toNat_lt)
  have hbyte : UInt8.ofNat ∘ UInt8.toNat = id := funext fun _ => UInt8.ofNat_toNat
  rw [ofJson?, hfields]
  simp [Json.toArray?, hbytes, hbyte]

end Memory

/-! ## Texts -/

def serialise {α : Type} (toJson : α → Json) (v : α) : String :=
  String.ofList (toJson v).write

def parse? {α : Type} (ofJson? : Json → Option α) (text : String) : Option α :=
  (Json.read text.toList).bind ofJson?

/-- A text as it is written again, if it describes a value. -/
def normalise? {α : Type} (toJson : α → Json) (ofJson? : Json → Option α) (text : String) :
    Option String :=
  (parse? ofJson? text).map (serialise toJson)

/-- Values go into text and back without loss, and text that was written again stays as it is. -/
structure Lossless {α : Type} (toJson : α → Json) (ofJson? : Json → Option α) : Prop where
  parse?_serialise (v : α) : parse? ofJson? (serialise toJson v) = some v
  idempotent (text : String) :
    (normalise? toJson ofJson? text).bind (normalise? toJson ofJson?) =
      normalise? toJson ofJson? text

theorem lossless {α : Type} {toJson : α → Json} {ofJson? : Json → Option α}
    (h : ∀ v, ofJson? (toJson v) = some v) : Lossless toJson ofJson? := by
  have hparse : ∀ v, parse? ofJson? (serialise toJson v) = some v := by
    intro v
    rw [parse?, serialise, String.toList_ofList, Json.read_write, Option.bind_some, h]
  refine ⟨hparse, fun text => ?_⟩
  cases htext : parse? ofJson? text with
  | none => simp [normalise?, htext]
  | some v => simp [normalise?, htext, hparse]

/-! ## Resuming a run -/

theorem Processor.restore?_snapshot (p : Processor) : restore? p.snapshot = some p :=
  (lossless Processor.ofJson?_toJson).parse?_serialise p

/-- A run of at most `limit` steps that is broken off behind `n` of them, or behind its last one,
and resumed with the processor that the snapshot describes. -/
def resumedRun (env : Environment) (limit n : Nat) (m : Machine) : Option Run :=
  let taken := min n (run env limit m).steps
  let paused := afterSteps env taken m
  (Processor.restore? paused.cpu.snapshot).map fun cpu =>
    runFrom env taken (limit - taken) { paused with cpu }

theorem resumedRun_eq (env : Environment) (limit n : Nat) (m : Machine) :
    resumedRun env limit n m = some (run env limit m) := by
  rw [resumedRun, Processor.restore?_snapshot, Option.map_some]
  exact congrArg some (runFrom_of_le_steps (Nat.min_le_right n _))

/-- Snapshots are lossless: every value of each type is read back from its text, to write a text
again changes nothing twice, and no run can tell that it was broken off and resumed. -/
theorem snapshots_lossless :
    Lossless Processor.toJson Processor.ofJson? ∧ Lossless Memory.toJson Memory.ofJson? ∧
    Lossless DelaySlot.toJson DelaySlot.ofJson? ∧ Lossless Action.toJson Action.ofJson? ∧
    Lossless Condition.toJson Condition.ofJson? ∧ Lossless Flags.toJson Flags.ofJson? ∧
    Lossless Config.toJson Config.ofJson? ∧
    ∀ (env : Environment) (limit n : Nat) (m : Machine),
      resumedRun env limit n m = some (run env limit m) :=
  ⟨lossless Processor.ofJson?_toJson, lossless Memory.ofJson?_toJson,
    lossless DelaySlot.ofJson?_toJson, lossless Action.ofJson?_toJson,
    lossless Condition.ofJson?_toJson, lossless Flags.ofJson?_toJson,
    lossless Config.ofJson?_toJson, resumedRun_eq⟩

end LegMachine
