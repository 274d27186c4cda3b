/-!
# JSON values

A JSON value as a reader of snapshots and configurations needs it. Numbers matter only as integers,
and a string may denote no text, when an escape in it names half of a surrogate pair.
-/

namespace LegMachine

inductive Json where
  | null
  | bool (b : Bool)
  /-- A number; it has no integer value if it is written with a fraction or an exponent, or as a
  negative zero. -/
  | number (value : Option Int)
  /-- A string with the text that it denotes. -/
  | string (text : Option (List Char))
  | array (items : List Json)
  | object (members : List (Option (List Char) × Json))

namespace Json

def ofText (text : String) : Json := string (some text.toList)

def ofInt (v : Int) : Json := number (some v)

def ofMembers (members : List (String × Json)) : Json :=
  object (members.map fun (k, v) => (some k.toList, v))

/-- An integer within bounds, both of them included. -/
def toInt? (lo hi : Int) : Json → Option Int
  | number (some v) => if lo ≤ v ∧ v ≤ hi then some v else none
  | _ => none

def toNat? (limit : Nat) (j : Json) : Option Nat :=
  (j.toInt? 0 limit).map Int.toNat

def toBool? : Json → Option Bool
  | bool b => some b
  | _ => none

/-- The text of a string that denotes one. -/
def toText? : Json → Option (List Char)
  | string t => t
  | _ => none

def toArray? : Json → Option (List Json)
  | array items => some items
  | _ => none

/-- The value of the member that is named `name`, if there is one; there must not be two. -/
def member? (name : String) (members : List (Option (List Char) × Json)) : Option (Option Json) :=
  match members.filter (·.1 == some name.toList) with
  | [] => some none
  | [(_, v)] => some (some v)
  | _ => none

/-- The fields of a record, each with its value if it has one. A record is written as an object,
where members with other names count for nothing, or as an array of its fields in order. -/
def fields? (names : List String) : Json → Option (List (Option Json))
  | object members =>
    if members.all (·.1.isSome) then names.mapM (member? · members) else none
  | array items =>
    if items.length ≤ names.length then
      some (items.map some ++ List.replicate (names.length - items.length) none)
    else none
  | _ => none

/-- The name of a variant with its payload, if it has one. A variant is written as its name, or as
an object with its name and payload for its only member. -/
def variant? : Json → Option (List Char × Option Json)
  | string (some name) => some (name, none)
  | object [(some name, payload)] => some (name, some payload)
  | _ => none

/-- The name of a variant without a payload; an object has null in the place of one. -/
def toName? (j : Json) : Option String :=
  match j.variant? with
  | some (name, none) => some (String.ofList name)
  | some (name, some null) => some (String.ofList name)
  | _ => none

end Json

end LegMachine
