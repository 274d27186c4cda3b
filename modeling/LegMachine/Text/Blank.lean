/-!
# Blank characters

Words of a text are separated by blanks: the characters with the Unicode property White_Space.
-/

namespace LegMachine.Text

/-- Whether `c` has the property White_Space. -/
def isBlank (c : Char) : Bool :=
  let n := c.toNat
  (9 ≤ n && n ≤ 13) || n == 0x20 || n == 0x85 || n == 0xA0 || n == 0x1680 ||
    (0x2000 ≤ n && n ≤ 0x200A) || n == 0x2028 || n == 0x2029 || n == 0x202F || n == 0x205F ||
    n == 0x3000

def trimStart (text : List Char) : List Char :=
  text.dropWhile isBlank

def trim (text : List Char) : List Char :=
  ((trimStart text).reverse.dropWhile isBlank).reverse

def firstWord? (text : List Char) : Option (List Char) :=
  match trimStart text with
  | [] => none
  | c :: rest => some ((c :: rest).takeWhile (!isBlank ·))

/-- The number of bytes of a text in UTF-8. -/
def byteLength (text : List Char) : Nat :=
  text.foldr (fun c n => c.utf8Size + n) 0

/-- What is left of a text behind its first `n` bytes, unless they end inside a character. -/
def dropBytes? : Nat → List Char → Option (List Char)
  | 0, text => some text
  | _ + 1, [] => none
  | n + 1, c :: rest =>
    if c.utf8Size ≤ n + 1 then dropBytes? (n + 1 - c.utf8Size) rest else none

/-- The pieces of a text between the places where `separator` stands. -/
def splitAt (separator : Char) : List Char → List (List Char)
  | [] => [[]]
  | c :: rest =>
    if c = separator then [] :: splitAt separator rest
    else match splitAt separator rest with
      | [] => [[c]]
      | piece :: pieces => (c :: piece) :: pieces

@[simp] theorem splitAt_ne_nil (separator : Char) (text : List Char) :
    splitAt separator text ≠ [] := by
  cases text with
  | nil => simp [splitAt]
  | cons c rest =>
    simp only [splitAt]
    split
    · simp
    · split <;> simp

theorem byteLength_cons (c : Char) (text : List Char) :
    byteLength (c :: text) = c.utf8Size + byteLength text := rfl

theorem eq_nil_of_byteLength {text : List Char} (h : byteLength text = 0) : text = [] := by
  cases text with
  | nil => rfl
  | cons c rest =>
    have hpos := c.utf8Size_pos
    rw [byteLength_cons] at h
    omega

theorem byteLength_of_ascii {text : List Char} (h : ∀ c ∈ text, c.toNat < 128) :
    byteLength text = text.length := by
  induction text with
  | nil => rfl
  | cons c text ih =>
    have hc : c.utf8Size = 1 :=
      Char.utf8Size_eq_one_iff.2 (Nat.le_of_lt_succ (h c List.mem_cons_self))
    rw [byteLength_cons, hc, ih fun b hb => h b (List.mem_cons_of_mem c hb), List.length_cons,
      Nat.add_comm]

/-- A text is cut exactly behind the bytes of a row of its first characters. -/
theorem dropBytes?_eq_some {n : Nat} {text rest : List Char} :
    dropBytes? n text = some rest ↔ ∃ front, front ++ rest = text ∧ byteLength front = n := by
  induction text generalizing n with
  | nil =>
    constructor
    · intro h
      cases n with
      | zero => exact ⟨[], Option.some.inj h.symm, rfl⟩
      | succ n => cases h
    · rintro ⟨front, hfront, rfl⟩
      obtain ⟨rfl, rfl⟩ := List.append_eq_nil_iff.1 hfront
      rfl
  | cons c text ih =>
    have hpos := c.utf8Size_pos
    constructor
    · intro h
      cases n with
      | zero => exact ⟨[], (Option.some.inj h).symm, rfl⟩
      | succ n =>
        rw [dropBytes?] at h
        split at h
        · next hle =>
          obtain ⟨front, rfl, hfront⟩ := ih.1 h
          exact ⟨c :: front, rfl, by rw [byteLength_cons]; omega⟩
        · cases h
    · rintro ⟨front, hfront, rfl⟩
      cases front with
      | nil =>
        obtain rfl : rest = c :: text := hfront
        rfl
      | cons b front =>
        obtain ⟨rfl, rfl⟩ := List.cons.inj hfront
        obtain ⟨n, hn⟩ := Nat.exists_eq_add_one.2 (Nat.add_pos_left hpos (byteLength front))
        rw [byteLength_cons, hn, dropBytes?, if_pos (by omega)]
        exact ih.2 ⟨front, rfl, by omega⟩

end LegMachine.Text
