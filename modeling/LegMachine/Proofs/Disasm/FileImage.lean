import LegMachine.Proofs.Disasm.Image
import LegMachine.Proofs.Disasm.Listing

/-!
# Listings of a file

An image of a file shows the bytes behind the header, as many as were asked for (`byte?_section`).
From its base on it is the image of the whole file at a base that is lower by the header, also where
the end of the segment is counted past the top (`byte?_raw_header`), so the two are listed alike. A
length cuts the listing off behind the last word that lies within it (`lines_takeWhile`).
-/

namespace LegMachine

/-- The members of `part` are the longest run in front of `whole` that all have a property. -/
structure LongestPrefix {α : Type} (P : α → Prop) (part whole : List α) : Prop where
  isPrefix : part <+: whole
  all : ∀ x ∈ part, P x
  longest : ∀ other, other <+: whole → (∀ x ∈ other, P x) → other <+: part

theorem longestPrefix_takeWhile {α : Type} {P : α → Prop} (p : α → Bool)
    (hp : ∀ x, p x = true ↔ P x) (whole : List α) :
    LongestPrefix P (whole.takeWhile p) whole where
  isPrefix := List.takeWhile_prefix p
  all x hx := (hp x).1 (List.all_eq_true.1 List.all_takeWhile x hx)
  longest other hother hall := by
    induction other generalizing whole with
    | nil => exact List.nil_prefix
    | cons x other ih =>
      obtain ⟨rest, rfl⟩ := hother
      have hx : p x = true := (hp x).2 (hall x List.mem_cons_self)
      rw [List.cons_append, List.takeWhile_cons_of_pos hx, List.cons_prefix_cons]
      refine ⟨rfl, ih _ (List.prefix_append other rest) fun y hy => ?_⟩
      exact hall y (List.mem_cons_of_mem x hy)

/-! ## The bytes of a file -/

theorem getElem?_extract (content : ByteArray) (start stop i : Nat) :
    (content.extract start stop)[i]? =
      if i < min stop content.size - start then content[start + i]? else none := by
  have hsize : (content.extract start stop).size = min stop content.size - start :=
    ByteArray.size_extract
  split
  · next h =>
    have hin : i < (content.extract start stop).size := by rwa [hsize]
    rw [getElem?_pos (content.extract start stop) i hin, ByteArray.getElem_extract]
    exact (getElem?_pos content (start + i) _).symm
  · next h => exact getElem?_neg (content.extract start stop) i (by rwa [hsize])

namespace Image

variable {content : ByteArray} {base : Word} {skip length : Nat} {image : Image}

theorem ofFile_eq_ok :
    ofFile content base skip none = .ok image ↔
      skip ≤ content.size ∧ raw base (content.extract skip content.size) = image := by
  unfold ofFile
  split
  · simp
    omega
  · simp
    omega

theorem ofFile_length_eq_ok :
    ofFile content base skip (some length) = .ok image ↔
      skip ≤ content.size ∧ length ≤ content.size - skip ∧
        raw base (content.extract skip (skip + length)) = image := by
  unfold ofFile
  split
  · simp
    omega
  · dsimp only
    split
    · simp
      omega
    · have hskip : skip ≤ content.size := by omega
      have hlength : length ≤ content.size - skip := by omega
      simp [hskip, hlength]

theorem byte?_raw_eq (base : Word) (bytes : ByteArray) (a : Word) :
    (raw base bytes).byte? a =
      if base ≤ a ∧ a < base + BitVec.ofNat 32 bytes.size then bytes[(a - base).toNat]?
      else none := by
  unfold raw byte? Segment.contains Segment.endAddress
  rw [List.find?_cons]
  by_cases h : base ≤ a ∧ a < base + BitVec.ofNat 32 bytes.size
  · rw [if_pos h, decide_eq_true h.1, decide_eq_true h.2]
    rfl
  · rw [if_neg h, ← Bool.decide_and, decide_eq_false h]
    rfl

/-- From its base on the image behind a header shows what the image of the whole file shows at a
lower base. The two segments have one end, also if it is counted past the top. -/
theorem byte?_raw_header (hsize : content.size < 2 ^ 32) (hskip : skip ≤ content.size)
    (hbase : skip ≤ base.toNat) {a : Word} (ha : base ≤ a) :
    (raw base (content.extract skip content.size)).byte? a =
      (raw (base - BitVec.ofNat 32 skip) (content.extract 0 content.size)).byte? a := by
  have hle : base.toNat ≤ a.toNat := ha
  have hlt : a.toNat < 2 ^ 32 := a.isLt
  have hlow : (base - BitVec.ofNat 32 skip).toNat = base.toNat - skip := by
    rw [BitVec.toNat_sub_of_le] <;> simp [BitVec.le_def] <;> omega
  have hbelow : base - BitVec.ofNat 32 skip ≤ a := by
    rw [BitVec.le_def]
    omega
  have hend : base - BitVec.ofNat 32 skip + BitVec.ofNat 32 content.size =
      base + BitVec.ofNat 32 (content.size - skip) := by
    bv_omega
  have hindex : (a - (base - BitVec.ofNat 32 skip)).toNat = skip + (a - base).toNat := by
    rw [BitVec.toNat_sub_of_le hbelow, BitVec.toNat_sub_of_le ha]
    omega
  have hinside : (a - base).toNat < content.size - skip ↔
      skip + (a - base).toNat < content.size := by
    omega
  simp only [byte?_raw_eq, ByteArray.size_extract, getElem?_extract, Nat.min_self, Nat.sub_zero,
    Nat.zero_add, ha, hbelow, true_and, hend, hindex, hinside]

/-- No word is mapped across the top, so images that show the same bytes from an address on show the
same words there. -/
theorem word?_congr {other : Image} (h : ∀ a, base ≤ a → image.byte? a = other.byte? a) {a : Word}
    (ha : base ≤ a) : image.word? a = other.word? a := by
  have hword {i j : Image} (h : ∀ a, base ≤ a → i.byte? a = j.byte? a) (w : Word)
      (hw : i.word? a = some w) : j.word? a = some w := by
    have hnext := toNat_next_of_word? hw
    obtain ⟨b0, b1, b2, b3, h0, h1, h2, h3, hw⟩ := word?_eq_some.1 hw
    have ha1 : base ≤ a + 1 := by bv_omega
    have ha2 : base ≤ a + 2 := by bv_omega
    have ha3 : base ≤ a + 3 := by bv_omega
    rw [h _ ha] at h0
    rw [h _ ha1] at h1
    rw [h _ ha2] at h2
    rw [h _ ha3] at h3
    exact word?_eq_some.2 ⟨b0, b1, b2, b3, h0, h1, h2, h3, hw⟩
  ext w
  exact ⟨hword h w, hword (fun a ha => (h a ha).symm) w⟩

/-- The bytes of a file from an offset on are those of a word, least significant first. -/
def HoldsWord (content : ByteArray) (offset : Nat) (w : Word) : Prop :=
  ∃ b0 b1 b2 b3, content[offset]? = some b0 ∧ content[offset + 1]? = some b1 ∧
    content[offset + 2]? = some b2 ∧ content[offset + 3]? = some b3 ∧
    BitVec.ofNat 32 (LittleEndian.combine [b0, b1, b2, b3]) = w

theorem byte?_section {stop : Nat} (hstop : stop ≤ content.size)
    (hfit : base.toNat + (stop - skip) < 2 ^ 32) (a : Word) (b : UInt8) :
    (raw base (content.extract skip stop)).byte? a = some b ↔
      base ≤ a ∧ skip + (a - base).toNat < stop ∧ content[skip + (a - base).toNat]? = some b := by
  have hsize : (content.extract skip stop).size = stop - skip := by
    rw [ByteArray.size_extract, Nat.min_eq_left hstop]
  rw [byte?_raw (by rwa [hsize]), Memory.byte?, getElem?_extract, Nat.min_eq_left hstop]
  simp only [Option.ite_none_right_eq_some]
  refine and_congr_right fun _ => and_congr_left fun _ => ?_
  omega

/-- The words that a part of a file shows lie within it. -/
theorem word?_section {stop : Nat} (hstop : stop ≤ content.size)
    (hfit : base.toNat + (stop - skip) < 2 ^ 32) (a w : Word) :
    (raw base (content.extract skip stop)).word? a = some w ↔
      base ≤ a ∧ skip + (a - base).toNat + 4 ≤ stop ∧
        HoldsWord content (skip + (a - base).toNat) w := by
  have hoffset (hbase : base ≤ a) (hnext : a.toNat + 4 < 2 ^ 32) :
      (base ≤ a + 1 ∧ base ≤ a + 2 ∧ base ≤ a + 3) ∧
        (a + 1 - base).toNat = (a - base).toNat + 1 ∧
        (a + 2 - base).toNat = (a - base).toNat + 2 ∧
        (a + 3 - base).toNat = (a - base).toNat + 3 := by
    bv_omega
  constructor
  · intro hw
    have hnext := toNat_next_of_word? hw
    obtain ⟨b0, b1, b2, b3, h0, h1, h2, h3, hw⟩ := word?_eq_some.1 hw
    rw [byte?_section hstop hfit] at h0 h1 h2 h3
    obtain ⟨hbase, -, h0⟩ := h0
    obtain ⟨-, e1, e2, e3⟩ := hoffset hbase (by omega)
    rw [e1] at h1
    rw [e2] at h2
    rw [e3] at h3
    exact ⟨hbase, by omega, b0, b1, b2, b3, h0, h1.2.2, h2.2.2, h3.2.2, hw⟩
  · rintro ⟨hbase, hstop4, b0, b1, b2, b3, h0, h1, h2, h3, hw⟩
    have hle : base.toNat ≤ a.toNat := hbase
    have hsub := BitVec.toNat_sub_of_le hbase
    obtain ⟨⟨l1, l2, l3⟩, e1, e2, e3⟩ := hoffset hbase (by omega)
    refine word?_eq_some.2 ⟨b0, b1, b2, b3, ?_, ?_, ?_, ?_, hw⟩ <;> rw [byte?_section hstop hfit]
    · exact ⟨hbase, by omega, h0⟩
    · exact ⟨l1, by omega, by rwa [e1]⟩
    · exact ⟨l2, by omega, by rwa [e2]⟩
    · exact ⟨l3, by omega, by rwa [e3]⟩

end Image

/-! ## Listings -/

namespace Line

/-- Where in a file the word of a line stands, if a file without its first `skip` bytes is mapped at
`base`. -/
def fileOffset (base : Word) (skip : Nat) (l : Line) : Int :=
  skip + (l.address.toNat - base.toNat)

/-- The word of a line stands within `length` bytes of the file. -/
def LiesWithin (base : Word) (skip length : Nat) (l : Line) : Prop :=
  skip ≤ l.fileOffset base skip ∧ l.fileOffset base skip + 4 ≤ skip + length

instance (base : Word) (skip length : Nat) : DecidablePred (LiesWithin base skip length) :=
  fun _ => inferInstanceAs (Decidable (_ ∧ _))

end Line

namespace Listing

variable {decode : Word → Option Decoded} {image other : Image} {base : Word} {content : ByteArray}
  {skip length : Nat}

theorem lines_congr (h : ∀ a, base ≤ a → image.word? a = other.word? a) {start : Word}
    (hstart : base ≤ start) (stop : Word) :
    lines decode image start stop = lines decode other start stop := by
  refine lines_induction (P := fun pc ls => base ≤ pc → ls = lines decode other pc stop)
    ?_ ?_ start hstart
  · rintro pc (hle | hw) hbase
    · exact (lines_of_le hle).symm
    · rw [h pc hbase] at hw
      exact (lines_of_unmapped hw).symm
  · intro pc w hlt hw ih hbase
    have hnext := Image.toNat_next_of_word? hw
    have hbase4 : base ≤ pc + 4 := by
      rw [BitVec.le_def] at hbase ⊢
      omega
    rw [h pc hbase] at hw
    rw [lines_of_mapped hlt hw, ih hbase4]

/-- If all lines of a listing are printed, so are those of a listing in front of it. -/
theorem disassemble_of_prefix {start stop : Word} {ls : List Line}
    (h : lines decode other start stop <+: lines decode image start stop)
    (hls : disassemble decode image start stop = .ok ls) :
    disassemble decode other start stop = .ok (lines decode other start stop) := by
  rw [disassemble_eq] at hls
  split at hls
  · next hall =>
    rw [disassemble_eq, if_pos (List.all_eq_true.2 fun l hl => ?_)]
    exact List.all_eq_true.1 hall l (h.subset hl)
  · cases hls

/-- A part of a file shows those words of the whole file that lie within it. -/
theorem word?_part (hfit : base.toNat + (content.size - skip) < 2 ^ 32)
    (hskip : skip ≤ content.size) (hlength : length ≤ content.size - skip) (l : Line) :
    (Image.raw base (content.extract skip (skip + length))).word? l.address = some l.word ↔
      (Image.raw base (content.extract skip content.size)).word? l.address = some l.word ∧
        l.LiesWithin base skip length := by
  rw [Image.word?_section (by omega) (by omega), Image.word?_section (Nat.le_refl _) hfit]
  unfold Line.LiesWithin Line.fileOffset
  constructor
  · rintro ⟨hbase, hstop, hholds⟩
    have hle : base.toNat ≤ l.address.toNat := hbase
    have hsub := BitVec.toNat_sub_of_le hbase
    exact ⟨⟨hbase, by omega, hholds⟩, by omega, by omega⟩
  · rintro ⟨⟨hbase, -, hholds⟩, -, hend⟩
    have hle : base.toNat ≤ l.address.toNat := hbase
    have hsub := BitVec.toNat_sub_of_le hbase
    exact ⟨hbase, by omega, hholds⟩

/-- A length cuts the listing off behind the last word that it leaves whole. -/
theorem lines_takeWhile (hfit : base.toNat + (content.size - skip) < 2 ^ 32)
    (hskip : skip ≤ content.size) (hlength : length ≤ content.size - skip) (start stop : Word) :
    lines decode (.raw base (content.extract skip (skip + length))) start stop =
      (lines decode (.raw base (content.extract skip content.size)) start stop).takeWhile
        (decide <| ·.LiesWithin base skip length) := by
  have hpart := word?_part hfit hskip hlength
  refine lines_induction (P := fun pc ls =>
    lines decode (.raw base (content.extract skip (skip + length))) pc stop =
      ls.takeWhile (decide <| ·.LiesWithin base skip length)) ?_ ?_ start
  · rintro pc (hle | hw)
    · exact lines_of_le hle
    · refine lines_of_unmapped (Option.eq_none_iff_forall_ne_some.2 fun w hpc => ?_)
      have hall := ((hpart ⟨pc, w, ""⟩).1 hpc).1
      rw [hw] at hall
      cases hall
  · intro pc w hlt hw ih
    rw [List.takeWhile_cons]
    split
    · next hin =>
      have hmapped := (hpart ⟨pc, w, wordText decode pc w⟩).2 ⟨hw, of_decide_eq_true hin⟩
      rw [lines_of_mapped hlt hmapped, ih]
    · next hout =>
      refine lines_of_unmapped (Option.eq_none_iff_forall_ne_some.2 fun v hpc => hout ?_)
      exact decide_eq_true ((hpart ⟨pc, v, ""⟩).1 hpc).2

end Listing

end LegMachine
