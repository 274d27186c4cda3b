import LegMachine.Json.Reader
import LegMachine.Json.Writer

/-!
# JSON is read back as it is written

Every value is read back from its compact form (`read_write`), those included that hold a number
without an integer value or a string without a text. Values stand one behind the other inside of
arrays and objects, so the work is in `readValue_write`, about a value in front of a text that does
not continue a number.
-/

namespace LegMachine.Json

/-! ## Strings -/

/-- A unit of a string that stands for a character by itself, whatever follows it. -/
def StringUnit.Denotes (u : StringUnit) (c : Char) : Prop :=
  u = .char c ∨ u = .code c.toNat ∧ c.toNat < 0x20

theorem textOfUnits?_cons {u : StringUnit} {c : Char} (h : u.Denotes c) (units : List StringUnit) :
    textOfUnits? (u :: units) = (textOfUnits? units).map (c :: ·) := by
  rcases h with rfl | ⟨rfl, hc⟩
  · rfl
  · have hfirst : isFirstHalf c.toNat = false := by
      simp only [isFirstHalf, Bool.and_eq_false_iff, decide_eq_false_iff_not]
      omega
    have hsecond : isSecondHalf c.toNat = false := by
      simp only [isSecondHalf, Bool.and_eq_false_iff, decide_eq_false_iff_not]
      omega
    match units with
    | [] | .char _ :: _ | .code _ :: _ => simp [textOfUnits?, hfirst, hsecond, Char.ofNat_toNat]

theorem leftpad_toDigits_control : ∀ n < 0x20,
    (Nat.toDigits 16 n).leftpad 4 '0' = ['0', '0', (n / 16).digitChar, (n % 16).digitChar] := by
  decide

theorem codeUnit?_control : ∀ n < 0x20,
    codeUnit? '0' '0' (n / 16).digitChar (n % 16).digitChar = some (.code n) := by
  decide

/-- A character is escaped by one letter, by its number, or not at all. -/
theorem escape_cases (c : Char) :
    (∃ e, escape c = ['\\', e] ∧ e ≠ 'u' ∧ escaped? e = some (.char c)) ∨
      (c.toNat < 0x20 ∧
        escape c = ['\\', 'u', '0', '0', (c.toNat / 16).digitChar, (c.toNat % 16).digitChar]) ∨
      (c ≠ '"' ∧ c ≠ '\\' ∧ ¬ c.toNat < 0x20 ∧ escape c = [c]) := by
  unfold escape
  split
  · next h => exact .inl ⟨'"', rfl, by decide, by rw [h]; rfl⟩
  next hquote =>
  split
  · next h => exact .inl ⟨'\\', rfl, by decide, by rw [h]; rfl⟩
  next hslash =>
  split
  · next h => exact .inl ⟨'b', rfl, by decide, by rw [h]; rfl⟩
  split
  · next h => exact .inl ⟨'f', rfl, by decide, by rw [h]; rfl⟩
  split
  · next h => exact .inl ⟨'n', rfl, by decide, by rw [h]; rfl⟩
  split
  · next h => exact .inl ⟨'r', rfl, by decide, by rw [h]; rfl⟩
  split
  · next h => exact .inl ⟨'t', rfl, by decide, by rw [h]; rfl⟩
  split
  · next h => exact .inr (.inl ⟨h, by rw [leftpad_toDigits_control _ h]; rfl⟩)
  · next h => exact .inr (.inr ⟨hquote, hslash, h, rfl⟩)

theorem readUnits_letter {e : Char} {u : StringUnit} (he : e ≠ 'u') (hu : escaped? e = some u)
    (rest : List Char) :
    readUnits ('\\' :: e :: rest) =
      (readUnits rest).map fun (units, rest) => (u :: units, rest) := by
  rw [readUnits.eq_4 _ _ fun a b c d tail h _ => he h, hu]
  cases readUnits rest <;> rfl

theorem readUnits_code {a b c d : Char} {u : StringUnit} (hu : codeUnit? a b c d = some u)
    (rest : List Char) :
    readUnits ('\\' :: 'u' :: a :: b :: c :: d :: rest) =
      (readUnits rest).map fun (units, rest) => (u :: units, rest) := by
  rw [readUnits, hu]
  cases readUnits rest <;> rfl

theorem readUnits_plain {c : Char} (hquote : c ≠ '"') (hslash : c ≠ '\\') (hc : ¬ c.toNat < 0x20)
    (rest : List Char) :
    readUnits (c :: rest) = (readUnits rest).map fun (units, rest) => (.char c :: units, rest) := by
  have hreads : (c.toNat < 0x20 || c == '\\') = false := by simp [hc, hslash]
  rw [readUnits.eq_5 _ _ (fun h => hquote h) (fun a b c d tail h _ => hslash h)
    fun e tail h _ => hslash h, hreads]
  cases readUnits rest <;> rfl

/-- However a character is escaped, the reader takes one unit for it. -/
theorem readUnits_escape (c : Char) : ∃ u : StringUnit, u.Denotes c ∧ ∀ rest,
    readUnits (escape c ++ rest) =
      (readUnits rest).map fun (units, rest) => (u :: units, rest) := by
  rcases escape_cases c with ⟨e, hescape, he, hchar⟩ | ⟨hc, hescape⟩ | ⟨hquote, hslash, hc, hescape⟩
  · refine ⟨.char c, .inl rfl, fun rest => ?_⟩
    rw [hescape]
    exact readUnits_letter he hchar rest
  · refine ⟨.code c.toNat, .inr ⟨rfl, hc⟩, fun rest => ?_⟩
    rw [hescape]
    exact readUnits_code (codeUnit?_control _ hc) rest
  · refine ⟨.char c, .inl rfl, fun rest => ?_⟩
    rw [hescape]
    exact readUnits_plain hquote hslash hc rest

theorem readUnits_flatMap (text rest : List Char) : ∃ units,
    readUnits (text.flatMap escape ++ '"' :: rest) = some (units, rest) ∧
      textOfUnits? units = some text := by
  induction text with
  | nil => exact ⟨[], rfl, rfl⟩
  | cons c text ih =>
    obtain ⟨u, hu, hescape⟩ := readUnits_escape c
    obtain ⟨units, hread, htext⟩ := ih
    refine ⟨u :: units, ?_, ?_⟩
    · rw [List.flatMap_cons, List.append_assoc, hescape, hread]
      rfl
    · rw [textOfUnits?_cons hu, htext]
      rfl

/-- A written string is its opening quote with what the reader takes behind it. -/
theorem readString_writeText (t : Option (List Char)) (rest : List Char) :
    ∃ body, writeText t ++ rest = '"' :: body ∧ readString body = some (t, rest) := by
  cases t with
  | none => exact ⟨['\\', 'u', 'd', '8', '0', '0', '"'] ++ rest, rfl, rfl⟩
  | some text =>
    obtain ⟨units, hread, htext⟩ := readUnits_flatMap text rest
    refine ⟨text.flatMap escape ++ '"' :: rest, by simp [writeText], ?_⟩
    simp only [readString, hread, Option.map_some, htext]

/-! ## Numbers -/

/-- A text that does not continue a number in front of it. -/
def Delimited (rest : List Char) : Prop :=
  ∀ c ∈ rest.head?, c.isDigit = false ∧ c ≠ '.' ∧ c ≠ 'e' ∧ c ≠ 'E'

theorem delimited_nil : Delimited [] := by
  simp [Delimited]

theorem delimited_cons {c : Char} {rest : List Char}
    (h : c.isDigit = false ∧ c ≠ '.' ∧ c ≠ 'e' ∧ c ≠ 'E') : Delimited (c :: rest) := by
  simpa [Delimited] using h

theorem ne_of_isDigit {c d : Char} (hc : c.isDigit = true) (hd : d.isDigit = false) : c ≠ d := by
  rintro rfl
  rw [hc] at hd
  cases hd

theorem isDigit_toDigits {n : Nat} : ∀ c ∈ Nat.toDigits 10 n, c.isDigit = true :=
  fun _ hc => Nat.isDigit_of_mem_toDigits (by decide) (by decide) hc

theorem exists_toDigits_eq (n : Nat) :
    ∃ c tail, Nat.toDigits 10 n = c :: tail ∧ c.isDigit = true := by
  obtain ⟨c, tail, hdigits⟩ := List.exists_cons_of_ne_nil (Nat.toDigits_ne_nil (b := 10) (n := n))
  exact ⟨c, tail, hdigits, isDigit_toDigits c (hdigits ▸ List.mem_cons_self)⟩

theorem readDigits_toDigits (n : Nat) {rest : List Char} (hrest : Delimited rest) :
    readDigits (Nat.toDigits 10 n ++ rest) = some (n, rest) := by
  have htake : rest.takeWhile Char.isDigit = [] := by
    cases rest with
    | nil => rfl
    | cons c tail => simp [(hrest c rfl).1]
  have hdrop : rest.dropWhile Char.isDigit = rest := by
    cases rest with
    | nil => rfl
    | cons c tail => simp [(hrest c rfl).1]
  have hvalue := Nat.ofDigitChars_ten_toDigits (n := n)
  rw [Nat.ofDigitChars_eq_foldl] at hvalue
  simp only [readDigits, List.takeWhile_append_of_pos isDigit_toDigits,
    List.dropWhile_append_of_pos isDigit_toDigits, htake, hdrop, List.append_nil, hvalue]
  simp

theorem digitChar_ne_zero : ∀ d < 10, d ≠ 0 → d.digitChar ≠ '0' := by
  decide

/-- The digits of a number other than zero do not begin with it. -/
theorem head?_toDigits {n : Nat} (hn : n ≠ 0) : (Nat.toDigits 10 n).head? ≠ some '0' := by
  induction n using Nat.strongRecOn with
  | ind n ih =>
    rw [Nat.toDigits_eq_if (by decide)]
    split
    · next h => simpa using digitChar_ne_zero n h hn
    · next h =>
      obtain ⟨c, tail, hdigits, -⟩ := exists_toDigits_eq (n / 10)
      have hhead := ih (n / 10) (by omega) (by omega)
      rw [hdigits] at hhead ⊢
      exact hhead

theorem readWhole_toDigits (n : Nat) {rest : List Char} (hrest : Delimited rest) :
    readWhole (Nat.toDigits 10 n ++ rest) = some (n, rest) := by
  by_cases hn : n = 0
  · subst hn
    rfl
  · obtain ⟨c, tail, hdigits, -⟩ := exists_toDigits_eq n
    have hc : c ≠ '0' := by
      rintro rfl
      exact head?_toDigits hn (by rw [hdigits]; rfl)
    have hread := readDigits_toDigits n hrest
    rw [hdigits] at hread ⊢
    rw [← hread]
    exact readWhole.eq_2 _ fun _ h => hc (List.cons.inj h).1

theorem readFraction_eq {rest : List Char} (hrest : Delimited rest) :
    readFraction rest = some (false, rest) :=
  readFraction.eq_2 _ fun _ h => (hrest '.' (by rw [h]; rfl)).2.1 rfl

theorem readExponent_eq {rest : List Char} (hrest : Delimited rest) :
    readExponent rest = some (false, rest) :=
  readExponent.eq_3 _ (fun _ h => (hrest 'e' (by rw [h]; rfl)).2.2.1 rfl)
    fun _ h => (hrest 'E' (by rw [h]; rfl)).2.2.2 rfl

/-- The digits of a number behind its sign; minus zero has no integer value. -/
theorem readUnsigned_toDigits (negative : Bool) (n : Nat) {rest : List Char}
    (hrest : Delimited rest) :
    readUnsigned negative (Nat.toDigits 10 n ++ rest) =
      some (number (if negative && n == 0 then none
        else some (if negative then -(n : Int) else n)), rest) := by
  simp only [readUnsigned, readWhole_toDigits n hrest, readFraction_eq hrest,
    readExponent_eq hrest, Option.bind_eq_bind, Option.bind_some, Bool.false_or]
  rfl

/-- What begins with a digit is read as a number. -/
theorem readScalar_toDigits (n : Nat) (rest : List Char) :
    readScalar (Nat.toDigits 10 n ++ rest) = readUnsigned false (Nat.toDigits 10 n ++ rest) := by
  obtain ⟨c, tail, hdigits, hc⟩ := exists_toDigits_eq n
  have hne : ∀ d more, d.isDigit = false → Nat.toDigits 10 n ++ rest ≠ d :: more := by
    intro d more hd h
    rw [hdigits] at h
    exact ne_of_isDigit hc hd (List.cons.inj h).1
  exact readScalar.eq_6 _ (fun _ => hne _ _ (by decide)) (fun _ => hne _ _ (by decide))
    (fun _ => hne _ _ (by decide)) (fun _ => hne _ _ (by decide)) fun _ => hne _ _ (by decide)

theorem readScalar_writeNumber (v : Option Int) {rest : List Char} (hrest : Delimited rest) :
    readScalar (writeNumber v ++ rest) = some (number v, rest) := by
  cases v with
  | none => exact readUnsigned_toDigits true 0 hrest
  | some v =>
    rw [writeNumber]
    split
    · next hneg =>
      have hne : (v.natAbs == 0) = false := by
        rw [beq_eq_false_iff_ne]
        omega
      have hv : -(v.natAbs : Int) = v := by omega
      show readUnsigned true (Nat.toDigits 10 v.natAbs ++ rest) = _
      simp only [readUnsigned_toDigits true _ hrest, hne, hv, Bool.and_false, if_true]
      rfl
    · next hneg =>
      have hv : (v.natAbs : Int) = v := by omega
      simp only [readScalar_toDigits, readUnsigned_toDigits false _ hrest, hv, Bool.false_and]
      rfl

/-! ## Values -/

/-- A character that neither is skipped nor ends an array or object. -/
abbrev Opens (c : Char) : Prop := isBlank c = false ∧ c ≠ ']' ∧ c ≠ '}'

/-- A character that a value without parts may begin with. -/
abbrev Plain (c : Char) : Prop := Opens c ∧ c ≠ '[' ∧ c ≠ '{'

theorem plain_of_isDigit {c : Char} (hc : c.isDigit = true) : Plain c := by
  have hblank : isBlank c = false := by
    simp only [isBlank, Bool.or_eq_false_iff, beq_eq_false_iff_ne]
    exact ⟨⟨⟨ne_of_isDigit hc (by decide), ne_of_isDigit hc (by decide)⟩,
      ne_of_isDigit hc (by decide)⟩, ne_of_isDigit hc (by decide)⟩
  exact ⟨⟨hblank, ne_of_isDigit hc (by decide), ne_of_isDigit hc (by decide)⟩,
    ne_of_isDigit hc (by decide), ne_of_isDigit hc (by decide)⟩

theorem exists_writeNumber_eq (v : Option Int) :
    ∃ c tail, writeNumber v = c :: tail ∧ Plain c := by
  cases v with
  | none => exact ⟨'-', ['0'], rfl, by decide⟩
  | some v =>
    obtain ⟨c, tail, hdigits, hc⟩ := exists_toDigits_eq v.natAbs
    rw [writeNumber]
    split
    · exact ⟨'-', _, rfl, by decide⟩
    · exact ⟨c, tail, hdigits, plain_of_isDigit hc⟩

theorem exists_write_eq (j : Json) : ∃ c tail, write j = c :: tail ∧ Opens c := by
  cases j with
  | null => exact ⟨'n', _, by rw [write], by decide⟩
  | bool b =>
    cases b with
    | false => exact ⟨'f', _, by rw [write], by decide⟩
    | true => exact ⟨'t', _, by rw [write], by decide⟩
  | number v =>
    obtain ⟨c, tail, hwrite, hc⟩ := exists_writeNumber_eq v
    exact ⟨c, tail, by rw [write, hwrite], hc.1⟩
  | string t =>
    obtain ⟨body, hwrite, -⟩ := readString_writeText t []
    exact ⟨'"', body, by rw [write, ← hwrite, List.append_nil], by decide⟩
  | array items =>
    cases items with
    | nil => exact ⟨'[', _, by rw [write], by decide⟩
    | cons item rest => exact ⟨'[', _, by rw [write]; rfl, by decide⟩
  | object members =>
    cases members with
    | nil => exact ⟨'{', _, by rw [write], by decide⟩
    | cons member rest => exact ⟨'{', _, by rw [write]; rfl, by decide⟩

theorem length_write_pos (j : Json) : 0 < (write j).length := by
  obtain ⟨c, tail, hwrite, -⟩ := exists_write_eq j
  rw [hwrite]
  exact Nat.succ_pos _

/-! ### What the readers do in front of each kind of text -/

theorem skipBlanks_cons {c : Char} (hc : isBlank c = false) (rest : List Char) :
    skipBlanks (c :: rest) = c :: rest := by
  rw [skipBlanks, List.dropWhile_cons_of_neg (by rw [hc]; decide)]

section

variable {bound : Nat} {c : Char} {tail more text rest : List Char}

theorem readValue_plain (hc : Plain c) :
    readValue (bound + 1) (c :: tail) = readScalar (c :: tail) := by
  simp only [readValue, skipBlanks_cons hc.1.1]
  split
  · next h => exact absurd (List.cons.inj h).1 hc.2.1
  · next h => exact absurd (List.cons.inj h).1 hc.2.2
  · rfl

theorem readValue_array {items : List Json} (hc : Opens c)
    (h : readItems bound (c :: tail) = some (items, rest)) :
    readValue (bound + 1) ('[' :: c :: tail) = some (array items, rest) := by
  simp only [readValue, skipBlanks_cons (c := '[') (by decide), skipBlanks_cons hc.1]
  split
  · next h => exact absurd (List.cons.inj h).1 hc.2.1
  · rw [h, Option.map_some]

theorem readValue_object {members : List (Option (List Char) × Json)} (hc : Opens c)
    (h : readMembers bound (c :: tail) = some (members, rest)) :
    readValue (bound + 1) ('{' :: c :: tail) = some (object members, rest) := by
  simp only [readValue, skipBlanks_cons (c := '{') (by decide), skipBlanks_cons hc.1]
  split
  · next h => exact absurd (List.cons.inj h).1 hc.2.2
  · rw [h, Option.map_some]

theorem readItems_last {item : Json} (h : readValue bound text = some (item, ']' :: rest)) :
    readItems (bound + 1) text = some ([item], rest) := by
  rw [readItems, h]
  rfl

theorem readItems_cons {item : Json} {items : List Json}
    (h : readValue bound text = some (item, ',' :: more))
    (hitems : readItems bound more = some (items, rest)) :
    readItems (bound + 1) text = some (item :: items, rest) := by
  rw [readItems, h]
  show (readItems bound more).bind _ = _
  rw [hitems]
  rfl

variable {body : List Char} {key : Option (List Char)} {value : Json}

theorem readMembers_last (hkey : readString body = some (key, ':' :: text))
    (h : readValue bound text = some (value, '}' :: rest)) :
    readMembers (bound + 1) ('"' :: body) = some ([(key, value)], rest) := by
  rw [readMembers]
  show (readString body).bind _ = _
  rw [hkey]
  show (readValue bound text).bind _ = _
  rw [h]
  rfl

theorem readMembers_cons {members : List (Option (List Char) × Json)}
    (hkey : readString body = some (key, ':' :: text))
    (h : readValue bound text = some (value, ',' :: more))
    (hmembers : readMembers bound more = some (members, rest)) :
    readMembers (bound + 1) ('"' :: body) = some ((key, value) :: members, rest) := by
  rw [readMembers]
  show (readString body).bind _ = _
  rw [hkey]
  show (readValue bound text).bind _ = _
  rw [h]
  show (readMembers bound more).bind _ = _
  rw [hmembers]
  rfl

end

/-! ### Values behind values -/

/-- A value is read as it is written, in front of any text that may follow it. -/
def Reads (j : Json) : Prop :=
  ∀ bound rest, Delimited rest → (write j).length ≤ bound →
    readValue bound (write j ++ rest) = some (j, rest)

theorem reads_of_plain {j : Json} {c : Char} {tail : List Char} (hwrite : write j = c :: tail)
    (hc : Plain c)
    (h : ∀ rest, Delimited rest → readScalar (write j ++ rest) = some (j, rest)) : Reads j := by
  intro bound rest hrest hbound
  obtain ⟨bound, rfl⟩ := Nat.exists_eq_add_of_lt (Nat.lt_of_lt_of_le (length_write_pos j) hbound)
  rw [Nat.zero_add, hwrite, List.cons_append, readValue_plain hc, ← List.cons_append, ← hwrite]
  exact h rest hrest

-- The bound loses one for each value, item and member, and each of them has at least one character;
-- an array or object is read at the bound that its brackets leave.
mutual

theorem readValue_write : ∀ j : Json, Reads j
  | null => reads_of_plain (by rw [write]) (by decide) fun _ _ => by rw [write]; rfl
  | bool true => reads_of_plain (by rw [write]) (by decide) fun _ _ => by rw [write]; rfl
  | bool false => reads_of_plain (by rw [write]) (by decide) fun _ _ => by rw [write]; rfl
  | number v => by
    obtain ⟨c, tail, hwrite, hc⟩ := exists_writeNumber_eq v
    refine reads_of_plain (by rw [write, hwrite]) hc fun rest hrest => ?_
    rw [write]
    exact readScalar_writeNumber v hrest
  | string t => by
    obtain ⟨body, hwrite, -⟩ := readString_writeText t []
    refine reads_of_plain (by rw [write, ← hwrite, List.append_nil]) (by decide)
      fun rest _ => ?_
    obtain ⟨body, hwrite, hread⟩ := readString_writeText t rest
    rw [write, hwrite, readScalar, hread, Option.map_some]
  | array [] => fun bound rest _ hbound => by
    rw [write] at hbound ⊢
    obtain ⟨bound, rfl⟩ := Nat.exists_eq_succ_of_ne_zero (Nat.ne_zero_of_lt hbound)
    rw [readValue]
    rfl
  | array (item :: items) => fun bound rest _ hbound => by
    obtain ⟨c, tail, hitem, hc⟩ := exists_write_eq item
    have hread := readItems_write items item (readValue_write item) (bound - 1) rest
    rw [write, List.length_append, List.length_cons] at hbound
    obtain ⟨bound, rfl⟩ : ∃ b, bound = b + 1 := ⟨bound - 1, by omega⟩
    rw [write, List.cons_append, List.cons_append, List.append_assoc]
    rw [hitem, List.cons_append] at hread ⊢
    exact readValue_array hc (hread (by rw [← hitem]; omega))
  | object [] => fun bound rest _ hbound => by
    rw [write] at hbound ⊢
    obtain ⟨bound, rfl⟩ := Nat.exists_eq_succ_of_ne_zero (Nat.ne_zero_of_lt hbound)
    rw [readValue]
    rfl
  | object ((key, value) :: members) => fun bound rest _ hbound => by
    have hread := readMembers_write members key value (readValue_write value) (bound - 1) rest
    obtain ⟨body, hkey, -⟩ :=
      readString_writeText key (':' :: (write value ++ (writeMembers members ++ rest)))
    rw [write] at hbound ⊢
    simp only [List.length_append, List.length_cons, List.cons_append, List.append_assoc]
      at hbound ⊢
    obtain ⟨bound, rfl⟩ : ∃ b, bound = b + 1 := ⟨bound - 1, by omega⟩
    rw [hkey] at hread ⊢
    exact readValue_object (by decide) (hread (by omega))

theorem readItems_write : ∀ (items : List Json) (item : Json), Reads item → ∀ bound rest,
    (write item).length + (writeItems items).length ≤ bound →
      readItems bound (write item ++ (writeItems items ++ rest)) = some (item :: items, rest)
  | [], item, hitem => fun bound rest hbound => by
    rw [writeItems, List.length_singleton] at hbound
    obtain ⟨bound, rfl⟩ : ∃ b, bound = b + 1 := ⟨bound - 1, by omega⟩
    rw [writeItems]
    exact readItems_last (hitem bound _ (delimited_cons (by decide)) (by omega))
  | next :: items, item, hitem => fun bound rest hbound => by
    have hnext := readItems_write items next (readValue_write next) (bound - 1) rest
    rw [writeItems, List.length_append, List.length_cons] at hbound
    obtain ⟨bound, rfl⟩ : ∃ b, bound = b + 1 := ⟨bound - 1, by omega⟩
    have hpos := length_write_pos item
    rw [writeItems, List.cons_append, List.cons_append, List.append_assoc]
    exact readItems_cons (hitem bound _ (delimited_cons (by decide)) (by omega))
      (hnext (by omega))

theorem readMembers_write : ∀ (members : List (Option (List Char) × Json))
    (key : Option (List Char)) (value : Json), Reads value → ∀ bound rest,
    (write value).length + (writeMembers members).length ≤ bound →
      readMembers bound (writeText key ++ ':' :: (write value ++ (writeMembers members ++ rest))) =
        some ((key, value) :: members, rest)
  | [], key, value, hvalue => fun bound rest hbound => by
    obtain ⟨body, hkey, hread⟩ :=
      readString_writeText key (':' :: (write value ++ (writeMembers [] ++ rest)))
    rw [writeMembers, List.length_singleton] at hbound
    obtain ⟨bound, rfl⟩ : ∃ b, bound = b + 1 := ⟨bound - 1, by omega⟩
    rw [hkey]
    rw [writeMembers] at hread
    exact readMembers_last hread (hvalue bound _ (delimited_cons (by decide)) (by omega))
  | (nextKey, next) :: members, key, value, hvalue => fun bound rest hbound => by
    have hnext := readMembers_write members nextKey next (readValue_write next) (bound - 1) rest
    obtain ⟨body, hkey, hread⟩ := readString_writeText key
      (':' :: (write value ++ (writeMembers ((nextKey, next) :: members) ++ rest)))
    rw [hkey]
    rw [writeMembers] at hbound hread
    simp only [List.length_append, List.length_cons, List.cons_append, List.append_assoc]
      at hbound hread
    obtain ⟨bound, rfl⟩ : ∃ b, bound = b + 1 := ⟨bound - 1, by omega⟩
    have hpos := length_write_pos value
    exact readMembers_cons hread (hvalue bound _ (delimited_cons (by decide)) (by omega))
      (hnext (by omega))

end

/-- Every value is read back from its compact form. -/
theorem read_write (j : Json) : read (write j) = some j := by
  have h := readValue_write j (2 * (write j).length + 2) [] delimited_nil (by omega)
  rw [List.append_nil] at h
  simp [read, h, skipBlanks]

end LegMachine.Json
