/-!
# Likeness of names

Two names are alike by the characters that they share at nearly the same places. Each character of
the first name is matched with the first free and equal character of the second one that lies within
the search range; matched characters that come in another order count against the likeness.
-/

namespace LegMachine.Command

/-- The first place at or behind `place` where `c` stands free, with the names' marks afterwards. -/
def matchFree (c : Char) (lo hi : Nat) : Nat → List (Char × Bool) → Option (List (Char × Bool))
  | _, [] => none
  | place, (d, taken) :: rest =>
    if lo ≤ place && place < hi && c == d && !taken then some ((d, true) :: rest)
    else (matchFree c lo hi (place + 1) rest).map ((d, taken) :: ·)

/-- The characters of the first name that find a match, and the marks on the second name. -/
def matchAll (range : Nat) : Nat → List Char → List (Char × Bool) → List Char × List (Char × Bool)
  | _, [], marks => ([], marks)
  | place, c :: rest, marks =>
    match matchFree c (place - range) (place + range + 1) 0 marks with
    | none => matchAll range (place + 1) rest marks
    | some marks =>
      let (found, marks) := matchAll range (place + 1) rest marks
      (c :: found, marks)

/-- Whether the likeness of two names is above seven tenths. The likeness is the mean of three
shares: of matched characters in each name, and of those in order among the matched ones. -/
def areAlike (a b : String) : Bool :=
  let first := a.toList
  let second := b.toList
  let m := first.length
  let n := second.length
  let (found, marks) := matchAll (max m n / 2 - 1) 0 first (second.map (·, false))
  let taken := (marks.filter (·.2)).map (·.1)
  let k := found.length
  let swapped := ((found.zip taken).filter fun (c, d) => c != d).length / 2
  k != 0 && 21 * (m * n * k) < 10 * (k * k * n + k * k * m + (k - swapped) * m * n)

end LegMachine.Command
