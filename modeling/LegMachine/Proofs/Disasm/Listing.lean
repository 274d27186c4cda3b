import LegMachine.Disasm.Listing
import LegMachine.Proofs.Isa.Decoding
import Mathlib.Order.Bounds.Basic

/-!
# The words that are listed

A listing goes on for as long as its addresses lie below the end of the range and their words are
mapped (`isLeast_length`). Its addresses follow one another without passing the top of the address
space, and each line shows the word that is mapped at its address (`getElem?_lines`). So a listing
that reaches an address can be divided there (`lines_eq_append`). It is printed if every word of it
has a text (`disassemble_eq`), as with the catalog (`disassemble_instructionSet`) and wherever the
samples are ASCII (`hasText_of_ascii`). Whatever the segments are, an address that a segment
contains is the address of one of its bytes (`Segment.toNat_sub_lt_of_contains`).
-/

namespace LegMachine

/-- An address that a segment contains has a byte there, also if the segment reaches past the top of
the address space. -/
theorem Segment.toNat_sub_lt_of_contains {s : Segment} {a : Word} (h : s.contains a = true) :
    (a - s.base).toNat < s.bytes.size := by
  unfold contains endAddress at h
  rw [Bool.and_eq_true, decide_eq_true_eq, decide_eq_true_eq] at h
  obtain ⟨hbase, hend⟩ := h
  have hle : s.base.toNat ≤ a.toNat := hbase
  have hlt : a.toNat < (s.base + BitVec.ofNat 32 s.bytes.size).toNat := hend
  have htop := a.isLt
  rw [BitVec.toNat_add, BitVec.toNat_ofNat] at hlt
  rw [BitVec.toNat_sub_of_le hbase]
  omega

namespace Listing

variable {decode : Word → Option Decoded} {image : Image} {pc stop w : Word}

/-! ## One pass -/

theorem lines_of_le (h : stop ≤ pc) : lines decode image pc stop = [] := by
  rw [lines, if_neg (BitVec.not_lt.2 h)]

theorem lines_of_unmapped (h : image.word? pc = none) : lines decode image pc stop = [] := by
  rw [lines]
  split
  · split
    · rfl
    · next w hw =>
      rw [h] at hw
      cases hw
  · rfl

theorem lines_of_mapped (hlt : pc < stop) (hw : image.word? pc = some w) :
    lines decode image pc stop =
      ⟨pc, w, wordText decode pc w⟩ :: lines decode image (pc + 4) stop := by
  rw [lines, if_pos hlt]
  split
  · next h =>
    rw [h] at hw
    cases hw
  · next v h =>
    obtain rfl : v = w := Option.some.inj (h.symm.trans hw)
    rfl

/-- What holds of an empty listing, and of a line in front of a listing, holds of every listing. -/
theorem lines_induction {P : Word → List Line → Prop}
    (ended : ∀ pc, stop ≤ pc ∨ image.word? pc = none → P pc [])
    (mapped : ∀ pc w, pc < stop → image.word? pc = some w →
      P (pc + 4) (lines decode image (pc + 4) stop) →
      P pc (⟨pc, w, wordText decode pc w⟩ :: lines decode image (pc + 4) stop))
    (pc : Word) : P pc (lines decode image pc stop) := by
  induction pc using lines.induct image stop with
  | case1 pc hlt hw =>
    rw [lines_of_unmapped hw]
    exact ended pc (.inr hw)
  | case2 pc hlt w hw ih =>
    rw [lines_of_mapped hlt hw]
    exact mapped pc w hlt hw ih
  | case3 pc hge =>
    rw [lines_of_le (BitVec.not_lt.1 hge)]
    exact ended pc (.inl (BitVec.not_lt.1 hge))

/-! ## The whole listing -/

/-- A listing from `start` ends at the latest behind `k` words: the next address is the end of the
range or lies behind it, or no word is mapped there. -/
def EndsBy (image : Image) (start stop : Word) (k : Nat) : Prop :=
  stop.toNat ≤ start.toNat + 4 * k ∨ image.word? (start + BitVec.ofNat 32 (4 * k)) = none

instance (start stop : Word) (k : Nat) : Decidable (EndsBy image start stop k) :=
  inferInstanceAs (Decidable (_ ∨ _))

theorem endsBy_zero : EndsBy image pc stop 0 ↔ stop ≤ pc ∨ image.word? pc = none := by
  unfold EndsBy
  rw [Nat.mul_zero, BitVec.add_zero, Nat.add_zero, BitVec.le_def]

theorem endsBy_succ (h : (pc + 4).toNat = pc.toNat + 4) (k : Nat) :
    EndsBy image pc stop (k + 1) ↔ EndsBy image (pc + 4) stop k := by
  have hnext : pc + BitVec.ofNat 32 (4 * (k + 1)) = pc + 4 + BitVec.ofNat 32 (4 * k) := by
    rw [show 4 * (k + 1) = 4 + 4 * k by omega, BitVec.ofNat_add, ← BitVec.add_assoc]
    rfl
  unfold EndsBy
  rw [hnext, h, show pc.toNat + 4 * (k + 1) = pc.toNat + 4 + 4 * k by omega]

/-- As many words are listed as there are before the listing has to end. -/
theorem isLeast_length (start : Word) :
    IsLeast {k | EndsBy image start stop k} (lines decode image start stop).length := by
  refine lines_induction (P := fun pc ls => IsLeast {k | EndsBy image pc stop k} ls.length)
    ?_ ?_ start
  · intro pc hended
    exact ⟨endsBy_zero.2 hended, fun k _ => Nat.zero_le k⟩
  · rintro pc w hlt hw ⟨hends, hleast⟩
    have hnext := Image.toNat_next_of_word? hw
    refine ⟨(endsBy_succ hnext _).2 hends, ?_⟩
    rintro (_ | k) hk
    · rcases endsBy_zero.1 hk with hle | hnone
      · exact absurd hlt (BitVec.not_lt.2 hle)
      · rw [hw] at hnone
        cases hnone
    · exact Nat.succ_le_succ (hleast ((endsBy_succ hnext k).1 hk))

theorem getElem?_lines (start : Word) (k : Nat) (l : Line)
    (h : (lines decode image start stop)[k]? = some l) :
    l.address.toNat = start.toNat + 4 * k ∧ image.word? l.address = some l.word ∧
      l.text = wordText decode l.address l.word := by
  refine lines_induction (P := fun pc ls => ∀ k, ls[k]? = some l →
    l.address.toNat = pc.toNat + 4 * k ∧ image.word? l.address = some l.word ∧
      l.text = wordText decode l.address l.word) ?_ ?_ start k h
  · intro pc _ k h
    cases h
  · rintro pc w - hw ih (_ | k) h
    · obtain rfl : ⟨pc, w, wordText decode pc w⟩ = l := Option.some.inj h
      exact ⟨rfl, hw, rfl⟩
    · obtain ⟨haddress, hword, htext⟩ := ih k h
      have hnext := Image.toNat_next_of_word? hw
      exact ⟨by omega, hword, htext⟩

/-- A listing that reaches an address is the listing up to there and the one from
there on. -/
theorem lines_eq_append (start : Word) (j : Nat)
    (hj : j ≤ (lines decode image start stop).length) (b : Word)
    (hb : b.toNat = start.toNat + 4 * j) :
    lines decode image start stop =
      lines decode image start b ++ lines decode image b stop := by
  refine lines_induction (P := fun pc ls => ∀ j ≤ ls.length, b.toNat = pc.toNat + 4 * j →
    ls = lines decode image pc b ++ lines decode image b stop) ?_ ?_ start j hj hb
  · intro pc hended j hj hb
    obtain rfl : j = 0 := Nat.le_zero.1 hj
    obtain rfl : b = pc := BitVec.eq_of_toNat_eq hb
    rw [lines_of_le (BitVec.le_refl b), List.nil_append]
    rcases hended with hle | hw
    · exact (lines_of_le hle).symm
    · exact (lines_of_unmapped hw).symm
  · rintro pc w hlt hw ih (_ | j) hj hb
    · obtain rfl : b = pc := BitVec.eq_of_toNat_eq hb
      rw [lines_of_le (BitVec.le_refl b), List.nil_append, lines_of_mapped hlt hw]
    · have hnext := Image.toNat_next_of_word? hw
      have hltb : pc < b := by
        rw [BitVec.lt_def]
        omega
      rw [lines_of_mapped hltb hw, List.cons_append,
        ih j (Nat.le_of_succ_le_succ hj) (by omega)]

/-! ## Words without a text -/

theorem disassemble_of_ended (h : stop ≤ pc ∨ image.word? pc = none) :
    disassemble decode image pc stop = .ok [] := by
  rw [disassemble]
  rcases h with hle | hnone
  · rw [if_neg (BitVec.not_lt.2 hle)]
  · split
    · split
      · rfl
      · next w hw =>
        rw [hnone] at hw
        cases hw
    · rfl

theorem disassemble_of_mapped (hlt : pc < stop) (hw : image.word? pc = some w) :
    disassemble decode image pc stop = do
      let text ← printWord decode pc w
      return ⟨pc, w, text⟩ :: (← disassemble decode image (pc + 4) stop) := by
  rw [disassemble, if_pos hlt]
  split
  · next h =>
    rw [h] at hw
    cases hw
  · next v h =>
    obtain rfl : v = w := Option.some.inj (h.symm.trans hw)
    rfl

/-- The words are listed if each of them has a text. -/
theorem disassemble_eq (decode : Word → Option Decoded) (image : Image) (start stop : Word) :
    disassemble decode image start stop =
      if (lines decode image start stop).all (hasText decode ·.word) then
        .ok (lines decode image start stop)
      else .error .dividedCharacter := by
  refine lines_induction (P := fun pc ls => disassemble decode image pc stop =
    if ls.all (hasText decode ·.word) then .ok ls else .error .dividedCharacter) ?_ ?_ start
  · intro pc hended
    exact disassemble_of_ended hended
  · intro pc w hlt hw ih
    rw [disassemble_of_mapped hlt hw, printWord_eq, ih, List.all_cons]
    cases hasText decode w with
    | false => rfl
    | true =>
      cases (lines decode image (pc + 4) stop).all (hasText decode ·.word) <;> rfl

theorem disassemble_of_hasText (h : ∀ w, hasText decode w = true) (start : Word) :
    disassemble decode image start stop = .ok (lines decode image start stop) := by
  rw [disassemble_eq, if_pos (List.all_eq_true.2 fun l _ => h l.word)]

/-- The catalog lists every image. -/
theorem disassemble_instructionSet (image : Image) (start stop : Word) :
    disassemble instructionSet.decode? image start stop =
      .ok (lines instructionSet.decode? image start stop) :=
  disassemble_of_hasText hasText_instructionSet start

/-- The line of the `k`-th word from `start` on. -/
structure Shows (decode : Word → Option Decoded) (image : Image) (start : Word) (k : Nat)
    (l : Line) : Prop where
  address : l.address.toNat = start.toNat + 4 * k
  word : image.word? l.address = some l.word
  text : printWord decode l.address l.word = .ok l.text

/-- The `k`-th word from `start` on is read as an instruction that cannot be printed. -/
def LacksText (decode : Word → Option Decoded) (image : Image) (start : Word) (k : Nat) : Prop :=
  ∃ w d, image.word? (start + BitVec.ofNat 32 (4 * k)) = some w ∧ decode w = some d ∧
    d.descriptor.isReadable = false

section

variable {start : Word} {k : Nat} {l : Line}

theorem address_eq (h : l.address.toNat = start.toNat + 4 * k) :
    l.address = start + BitVec.ofNat 32 (4 * k) := by
  apply BitVec.eq_of_toNat_eq
  have hlt := l.address.isLt
  rw [BitVec.toNat_add, BitVec.toNat_ofNat, h]
  omega

theorem lacksText_iff (hl : (lines decode image start stop)[k]? = some l) :
    LacksText decode image start k ↔ hasText decode l.word = false := by
  obtain ⟨haddress, hword, -⟩ := getElem?_lines start k l hl
  rw [address_eq haddress] at hword
  unfold LacksText hasText
  cases hdecode : decode l.word <;> simp [hword, hdecode]

/-- A line that shows a word is that of the listing. -/
theorem Shows.eq_of_getElem? {l' : Line} (h : Shows decode image start k l')
    (hl : (lines decode image start stop)[k]? = some l) :
    l' = l ∧ hasText decode l.word = true := by
  obtain ⟨haddress, hword, htext⟩ := getElem?_lines start k l hl
  obtain ⟨a, w, text⟩ := l
  obtain ⟨a', w', text'⟩ := l'
  obtain rfl : a' = a := BitVec.eq_of_toNat_eq (h.address.trans haddress.symm)
  obtain rfl : w' = w := Option.some.inj (h.word.symm.trans hword)
  obtain ⟨hhas, htext'⟩ := printWord_eq_ok.1 h.text
  obtain rfl : text' = text := htext'.symm.trans htext.symm
  exact ⟨rfl, hhas⟩

end

theorem disassemble_eq_ok {start : Word} {ls : List Line} :
    disassemble decode image start stop = .ok ls ↔
      ls.length = (lines decode image start stop).length ∧
        ∀ j l, ls[j]? = some l → Shows decode image start j l := by
  rw [disassemble_eq]
  constructor
  · intro h
    split at h
    · next hall =>
      obtain rfl := Except.ok.inj h
      refine ⟨rfl, fun j l hl => ?_⟩
      obtain ⟨haddress, hword, htext⟩ := getElem?_lines start j l hl
      have hhas := List.all_eq_true.1 hall l (List.mem_of_getElem? hl)
      exact ⟨haddress, hword, printWord_eq_ok.2 ⟨hhas, htext.symm⟩⟩
    · cases h
  · rintro ⟨hlength, hshows⟩
    have hline : ∀ (j : Nat) (l : Line), (lines decode image start stop)[j]? = some l →
        ls[j]? = some l ∧ hasText decode l.word = true := by
      intro j l hl
      obtain ⟨hj, -⟩ := List.getElem?_eq_some_iff.1 hl
      have hls : ls[j]? = some ls[j] := List.getElem?_eq_getElem (by omega)
      obtain ⟨heq, hhas⟩ := (hshows j _ hls).eq_of_getElem? hl
      exact ⟨heq ▸ hls, hhas⟩
    have hsame : ls = lines decode image start stop := by
      refine List.ext_getElem hlength fun j _ hj => ?_
      exact (List.getElem?_eq_some_iff.1 (hline j _ (List.getElem?_eq_getElem hj)).1).2
    have hall : (lines decode image start stop).all (hasText decode ·.word) = true := by
      rw [List.all_eq_true]
      intro l hl
      obtain ⟨j, hj⟩ := List.getElem?_of_mem hl
      exact (hline j l hj).2
    rw [if_pos hall, hsame]

theorem disassemble_eq_error {start : Word} {f : Fault} :
    disassemble decode image start stop = .error f ↔ f = .dividedCharacter ∧
      ∃ j < (lines decode image start stop).length, LacksText decode image start j := by
  rw [disassemble_eq]
  constructor
  · intro h
    split at h
    · cases h
    · next hall =>
      refine ⟨(Except.error.inj h).symm, ?_⟩
      rw [List.all_eq_true] at hall
      push Not at hall
      obtain ⟨l, hl, hhas⟩ := hall
      obtain ⟨j, hj⟩ := List.getElem?_of_mem hl
      exact ⟨j, (List.getElem?_eq_some_iff.1 hj).1, (lacksText_iff hj).2 (eq_false_of_ne_true hhas)⟩
  · rintro ⟨rfl, j, hj, hlacks⟩
    have hl := List.getElem?_eq_getElem hj
    have hhas := (lacksText_iff hl).1 hlacks
    refine if_neg fun hall => ?_
    rw [List.all_eq_true.1 hall _ (List.getElem_mem hj)] at hhas
    cases hhas

/-- A listing that reaches an address is printed as the listing up to there and the one from there
on. -/
theorem disassemble_eq_append (start : Word) (j : Nat)
    (hj : j ≤ (lines decode image start stop).length) (b : Word)
    (hb : b.toNat = start.toNat + 4 * j) :
    disassemble decode image start stop = do
      let front ← disassemble decode image start b
      let rest ← disassemble decode image b stop
      return front ++ rest := by
  rw [disassemble_eq, disassemble_eq, disassemble_eq, lines_eq_append start j hj b hb,
    List.all_append]
  cases (lines decode image start b).all (hasText decode ·.word) <;>
    cases (lines decode image b stop).all (hasText decode ·.word) <;> rfl

end Listing

end LegMachine
