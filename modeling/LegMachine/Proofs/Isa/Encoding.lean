import LegMachine.Isa.Template
import Mathlib.Data.List.GetD
import Mathlib.Data.List.Nodup
import Mathlib.Data.List.Perm.Subperm

/-!
# Words and their operands

`Encoding.Partition`: every bit of a word is either fixed or belongs to exactly one field. A
template that compiles gives such an encoding (`partition_of_compile`). From it follow the two round
trips, for any encoding: the operands of an encoded word are the given ones, cut to the widths of
their fields (`extract_encode`), and a word with the fixed bits is what its own operands encode
(`encode_extract`).
-/

namespace LegMachine

def zeroExtendLow (width : Nat) (w : Word) : Word :=
  (w.setWidth width).setWidth 32

@[simp] theorem getLsbD_zeroExtendLow (width : Nat) (w : Word) (i : Nat) :
    (zeroExtendLow width w).getLsbD i = (decide (i < width) && w.getLsbD i) := by
  simp only [zeroExtendLow, BitVec.getLsbD_setWidth]
  by_cases hi : i < 32
  · simp [hi]
  · simp [hi, BitVec.getLsbD_of_ge w i (by omega)]

theorem zeroExtendLow_eq_self {width : Nat} {w : Word} (h : w.toNat < 2 ^ width) :
    zeroExtendLow width w = w := by
  apply BitVec.eq_of_toNat_eq
  simp only [zeroExtendLow, BitVec.toNat_setWidth, Nat.mod_eq_of_lt h]
  omega

theorem zeroExtendLow_lt (width : Nat) (w : Word) : (zeroExtendLow width w).toNat < 2 ^ width := by
  rw [zeroExtendLow, BitVec.toNat_setWidth, BitVec.toNat_setWidth]
  exact Nat.lt_of_le_of_lt (Nat.mod_le _ _) (Nat.mod_lt _ (Nat.two_pow_pos width))

theorem setWidth_zeroExtendLow {n width : Nat} (h : n ≤ width) (w : Word) :
    (zeroExtendLow width w).setWidth n = w.setWidth n := by
  apply BitVec.eq_of_getLsbD_eq
  intro i hi
  have hw : i < width := by omega
  simp [hi, hw]

/-- What is gathered has as many bits as are read. -/
theorem gather_lt (w : Word) {positions : List Nat} (hlen : positions.length ≤ 32) :
    (gather positions w).toNat < 2 ^ positions.length := by
  have hself : zeroExtendLow positions.length (gather positions w) = gather positions w := by
    apply BitVec.eq_of_getLsbD_eq
    intro i _
    rw [getLsbD_zeroExtendLow, getLsbD_gather w hlen]
    cases decide (i < positions.length) <;> simp
  rw [← hself]
  exact zeroExtendLow_lt _ _

theorem getLsbD_wordOfBits (positions : List Nat) (i : Nat) :
    (wordOfBits positions).getLsbD i = (decide (i ∈ positions) && decide (i < 32)) := by
  induction positions with
  | nil => simp [wordOfBits]
  | cons p rest ih =>
    have hcons : wordOfBits (p :: rest) = BitVec.twoPow 32 p ||| wordOfBits rest := rfl
    rw [hcons, BitVec.getLsbD_or, ih, BitVec.getLsbD_twoPow]
    by_cases hp : i = p
    · subst hp
      by_cases hi : i < 32 <;> simp [hi]
    · have hpi : p ≠ i := fun e => hp e.symm
      simp [hp, hpi]

/-! ## Positions of a template -/

namespace Template

theorem mem_positionsWhere {p : Char → Bool} {t : Template} (ht : t.length = 32) {i : Nat} :
    i ∈ positionsWhere p t ↔ i < 32 ∧ ∃ c, t[31 - i]? = some c ∧ p c = true := by
  simp only [positionsWhere, List.mem_map, List.mem_filter, Prod.exists]
  constructor
  · rintro ⟨c, k, ⟨hk, hc⟩, rfl⟩
    rw [List.mk_mem_zipIdx_iff_getElem?] at hk
    have hlt : k < 32 := ht ▸ (List.getElem?_eq_some_iff.1 hk).1
    have hkk : 31 - (31 - k) = k := by omega
    exact ⟨by omega, c, by rw [hkk]; exact hk, hc⟩
  · rintro ⟨hi, c, hk, hc⟩
    exact ⟨c, 31 - i, ⟨List.mk_mem_zipIdx_iff_getElem?.2 hk, hc⟩, by omega⟩

theorem nodup_positionsWhere (p : Char → Bool) {t : Template} (ht : t.length = 32) :
    (positionsWhere p t).Nodup := by
  have hidx : (t.zipIdx.map Prod.snd).Nodup := by
    rw [List.zipIdx_map_snd]
    exact List.nodup_range'
  have hall : (t.zipIdx.map (31 - ·.2)).Nodup := by
    rw [← Function.comp_def (31 - ·) Prod.snd, ← List.map_map]
    refine List.Nodup.map_on (fun a ha b hb hab => ?_) hidx
    rw [List.zipIdx_map_snd, List.mem_range'_1] at ha hb
    omega
  exact hall.sublist (List.filter_sublist.map _)

theorem mem_letters {t : Template} {c : Char} :
    c ∈ letters t ↔ c ∈ t ∧ c ≠ '0' ∧ c ≠ '1' := by
  simp [letters, List.mem_eraseDups]

theorem nodup_eraseDups {α : Type} [BEq α] [LawfulBEq α] (l : List α) : l.eraseDups.Nodup := by
  match l with
  | [] => simp
  | a :: rest =>
    rw [List.eraseDups_cons, List.nodup_cons, List.mem_eraseDups]
    exact ⟨by simp, nodup_eraseDups _⟩
termination_by l.length
decreasing_by exact Nat.lt_succ_of_le (List.length_filter_le _ _)

end Template

/-! ## Encodings that part the word -/

namespace Encoding

/-- Every bit of a word is fixed or belongs to exactly one field, at one place of it. -/
structure Partition (e : Encoding) : Prop where
  nodup : ∀ f ∈ e.fields, f.positions.Nodup
  lt : ∀ f ∈ e.fields, ∀ i ∈ f.positions, i < 32
  disjoint : e.fields.Pairwise fun f g => ∀ i ∈ f.positions, i ∉ g.positions
  mask_iff : ∀ i < 32, e.mask.getLsbD i = true ↔ ∀ f ∈ e.fields, i ∉ f.positions
  mask_of_fixed : ∀ i, e.fixed.getLsbD i = true → e.mask.getLsbD i = true

end Encoding

namespace Template

theorem compile_eq_ok {t : Template} {e : Encoding} (h : t.compile = .ok e) :
    t.length = 32 ∧ e =
      { mask := wordOfBits (positionsWhere (fun c => c == '0' || c == '1') t)
        fixed := wordOfBits (positionsWhere (· == '1') t)
        fields := fields t } := by
  unfold compile at h
  split at h
  · cases h
  · next hlen =>
    split at h
    · cases h
    · cases h
      exact ⟨Decidable.not_not.1 hlen, rfl⟩

/-- The letter of a field stands at all of its positions. -/
theorem mem_fields {t : Template} (ht : t.length = 32) {f : Field} (hf : f ∈ fields t) {i : Nat} :
    i ∈ f.positions ↔ i < 32 ∧ t[31 - i]? = some f.letter := by
  obtain ⟨c, -, rfl⟩ := List.mem_map.1 hf
  rw [mem_positionsWhere ht]
  simp

theorem partition_of_compile {t : Template} {e : Encoding} (h : t.compile = .ok e) :
    e.Partition := by
  obtain ⟨ht, rfl⟩ := compile_eq_ok h
  constructor
  case nodup =>
    intro f hf
    obtain ⟨c, -, rfl⟩ := List.mem_map.1 hf
    exact nodup_positionsWhere (· == c) ht
  case lt => exact fun f hf i hi => ((mem_fields ht hf).1 hi).1
  case disjoint =>
    -- two fields have different letters, and one letter stands at a position
    have hfields : (fields t).Pairwise fun f g => f.letter ≠ g.letter :=
      List.pairwise_map.2 (nodup_eraseDups _)
    refine hfields.imp_of_mem fun hf hg hne i hi hi' => hne ?_
    have hc := ((mem_fields ht hf).1 hi).2
    have hc' := ((mem_fields ht hg).1 hi').2
    exact Option.some.inj (hc.symm.trans hc')
  case mask_iff =>
    intro i hi
    have hk : 31 - i < t.length := by omega
    have hget : t[31 - i]? = some t[31 - i] := List.getElem?_eq_getElem hk
    have hdigit : (wordOfBits (positionsWhere (fun c => c == '0' || c == '1') t)).getLsbD i = true ↔
        t[31 - i] = '0' ∨ t[31 - i] = '1' := by
      rw [getLsbD_wordOfBits]
      simp [mem_positionsWhere ht, hi, hget]
    rw [hdigit]
    constructor
    · intro hd f hf hif
      obtain ⟨c, hc, rfl⟩ := List.mem_map.1 hf
      have hci : t[31 - i] = c := by simpa [hget] using ((mem_fields ht hf).1 hif).2
      have hc' := (mem_letters.1 hc).2
      rw [← hci] at hc'
      exact hd.elim hc'.1 hc'.2
    · intro hno
      by_contra hd
      rw [not_or] at hd
      have hc : t[31 - i] ∈ letters t := mem_letters.2 ⟨List.getElem_mem hk, hd⟩
      exact hno _ (List.mem_map_of_mem hc) ((mem_fields ht (List.mem_map_of_mem hc)).2 ⟨hi, hget⟩)
  case mask_of_fixed =>
    intro i hi
    rw [getLsbD_wordOfBits, Bool.and_eq_true, decide_eq_true_eq, mem_positionsWhere ht] at hi ⊢
    obtain ⟨⟨hlt, c, hc, hc1⟩, h32⟩ := hi
    exact ⟨⟨hlt, c, hc, by simp [hc1]⟩, h32⟩

end Template

/-! ## The round trips -/

namespace Encoding

namespace Partition

variable {e : Encoding} (h : e.Partition)

include h

theorem length_le {f : Field} (hf : f ∈ e.fields) : f.positions.length ≤ 32 := by
  have hsub : f.positions ⊆ List.range 32 := fun i hi => List.mem_range.2 (h.lt f hf i hi)
  simpa using (List.Nodup.subperm (h.nodup f hf) hsub).length_le

theorem index_unique {f g : Field} {j k i : Nat} (hj : e.fields[j]? = some f)
    (hk : e.fields[k]? = some g) (hf : i ∈ f.positions) (hg : i ∈ g.positions) : j = k := by
  obtain ⟨hlj, rfl⟩ := List.getElem?_eq_some_iff.1 hj
  obtain ⟨hlk, rfl⟩ := List.getElem?_eq_some_iff.1 hk
  have hd := List.pairwise_iff_getElem.1 h.disjoint
  obtain hlt | heq | hlt := Nat.lt_trichotomy j k
  · exact absurd hg (hd j k hlj hlk hlt i hf)
  · exact heq
  · exact absurd hf (hd k j hlk hlj hlt i hg)

theorem fixed_of_mem {f : Field} (hf : f ∈ e.fields) {i : Nat} (hi : i ∈ f.positions) :
    e.fixed.getLsbD i = false := by
  by_contra hfix
  have hmask := h.mask_of_fixed i (by simpa using hfix)
  exact (h.mask_iff i (h.lt f hf i hi)).1 hmask f hf hi

end Partition

theorem getLsbD_foldl_scatter (l : List (Field × Word)) (w : Word) (i : Nat) :
    (l.foldl (fun w (f, v) => w ||| scatter v f.positions) w).getLsbD i =
      (w.getLsbD i || l.any fun x => (scatter x.2 x.1.positions).getLsbD i) := by
  induction l generalizing w with
  | nil => simp
  | cons x rest ih => rw [List.foldl_cons, ih, BitVec.getLsbD_or, List.any_cons, Bool.or_assoc]

/-- A bit of an encoded word is fixed, or some operand puts it there. -/
theorem getLsbD_encode {e : Encoding} (h : e.Partition) (ops : List Word) (i : Nat) :
    (e.encode ops).getLsbD i = true ↔ e.fixed.getLsbD i = true ∨
      ∃ (k : Nat) (f : Field) (v : Word), e.fields[k]? = some f ∧ ops[k]? = some v ∧
        i ∈ f.positions ∧ v.getLsbD (f.width - 1 - f.positions.idxOf i) = true := by
  rw [encode, getLsbD_foldl_scatter, Bool.or_eq_true, List.any_eq_true]
  refine or_congr_right ⟨?_, ?_⟩
  · rintro ⟨⟨f, v⟩, hx, hbit⟩
    obtain ⟨k, hk⟩ := List.mem_iff_getElem?.1 hx
    obtain ⟨hf, hv⟩ := List.getElem?_zip_eq_some.1 hk
    have hmem := List.mem_of_getElem? hf
    rw [getLsbD_scatter v (h.nodup f hmem) (h.lt f hmem), Bool.and_eq_true,
      decide_eq_true_eq] at hbit
    exact ⟨k, f, v, hf, hv, hbit⟩
  · rintro ⟨k, f, v, hf, hv, hi, hbit⟩
    have hmem := List.mem_of_getElem? hf
    refine ⟨(f, v), List.mem_of_getElem? (List.getElem?_zip_eq_some.2 ⟨hf, hv⟩), ?_⟩
    rw [getLsbD_scatter v (h.nodup f hmem) (h.lt f hmem), Bool.and_eq_true, decide_eq_true_eq]
    exact ⟨hi, hbit⟩

theorem getLsbD_encode_of_mask {e : Encoding} (h : e.Partition) (ops : List Word) {i : Nat}
    (hi : e.mask.getLsbD i = true) : (e.encode ops).getLsbD i = e.fixed.getLsbD i := by
  rw [Bool.eq_iff_iff, getLsbD_encode h]
  refine or_iff_left ?_
  rintro ⟨k, f, v, hf, -, hif, -⟩
  have hmem := List.mem_of_getElem? hf
  exact (h.mask_iff i (h.lt f hmem i hif)).1 hi f hmem hif

/-- A missing operand counts as zero. -/
theorem getLsbD_encode_of_mem {e : Encoding} (h : e.Partition) (ops : List Word) {k i : Nat}
    {f : Field} (hf : e.fields[k]? = some f) (hi : i ∈ f.positions) :
    (e.encode ops).getLsbD i =
      (ops.getD k 0).getLsbD (f.width - 1 - f.positions.idxOf i) := by
  rw [Bool.eq_iff_iff, getLsbD_encode h, h.fixed_of_mem (List.mem_of_getElem? hf) hi]
  constructor
  · rintro (hfalse | ⟨j, g, v, hg, hv, hig, hbit⟩)
    · cases hfalse
    · cases h.index_unique hg hf hig hi
      cases hf.symm.trans hg
      rwa [List.getD_eq_getElem?_getD, hv]
  · intro hbit
    cases hv : ops[k]? with
    | none => simp [List.getD_eq_getElem?_getD, hv] at hbit
    | some v =>
      rw [List.getD_eq_getElem?_getD, hv] at hbit
      exact .inr ⟨k, f, v, hf, hv, hi, hbit⟩

theorem accepts_iff {e : Encoding} {w : Word} : e.accepts w = true ↔ w &&& e.mask = e.fixed :=
  beq_iff_eq

theorem accepts_encode {e : Encoding} (h : e.Partition) (ops : List Word) :
    e.accepts (e.encode ops) = true := by
  rw [accepts_iff]
  apply BitVec.eq_of_getLsbD_eq
  intro i _
  rw [BitVec.getLsbD_and]
  cases hm : e.mask.getLsbD i with
  | true => rw [getLsbD_encode_of_mask h ops hm, Bool.and_true]
  | false =>
    cases hfix : e.fixed.getLsbD i with
    | true => simp [h.mask_of_fixed i hfix] at hm
    | false => rw [Bool.and_false]

theorem gather_encode {e : Encoding} (h : e.Partition) (ops : List Word) {k : Nat} {f : Field}
    (hf : e.fields[k]? = some f) :
    gather f.positions (e.encode ops) = zeroExtendLow f.width (ops.getD k 0) := by
  have hmem := List.mem_of_getElem? hf
  apply BitVec.eq_of_getLsbD_eq
  intro i _
  rw [getLsbD_gather _ (h.length_le hmem), getLsbD_zeroExtendLow, Field.width]
  by_cases hi : i < f.positions.length
  · have hlt : f.positions.length - 1 - i < f.positions.length := by omega
    have hback : f.positions.length - 1 - (f.positions.length - 1 - i) = i := by omega
    rw [List.getD_eq_getElem _ _ hlt, getLsbD_encode_of_mem h ops hf (List.getElem_mem hlt),
      (h.nodup f hmem).idxOf_getElem, Field.width, hback]
  · simp [hi]

/-- An operand is read back as far as its field has room for it. -/
theorem extract_encode {e : Encoding} (h : e.Partition) (ops : List Word) (k : Nat) :
    (e.extract (e.encode ops))[k]? =
      e.fields[k]?.map fun f => zeroExtendLow f.width (ops.getD k 0) := by
  rw [extract, List.getElem?_map]
  cases hf : e.fields[k]? with
  | none => rfl
  | some f => rw [Option.map_some, Option.map_some, gather_encode h ops hf]

theorem encode_extract {e : Encoding} (h : e.Partition) {w : Word} (hw : e.accepts w = true) :
    e.encode (e.extract w) = w := by
  apply BitVec.eq_of_getLsbD_eq
  intro i hi
  cases hm : e.mask.getLsbD i with
  | true =>
    rw [getLsbD_encode_of_mask h _ hm, ← accepts_iff.1 hw, BitVec.getLsbD_and, hm, Bool.and_true]
  | false =>
    have hfield : ∃ f ∈ e.fields, i ∈ f.positions := by
      by_contra hno
      push Not at hno
      simp [(h.mask_iff i hi).2 hno] at hm
    obtain ⟨f, hmem, hif⟩ := hfield
    obtain ⟨k, hf⟩ := List.mem_iff_getElem?.1 hmem
    have hidx := List.idxOf_lt_length_of_mem hif
    have hlt : f.positions.length - 1 - f.positions.idxOf i < f.positions.length := by omega
    have hback : f.positions.length - 1 - (f.positions.length - 1 - f.positions.idxOf i) =
        f.positions.idxOf i := by omega
    rw [getLsbD_encode_of_mem h _ hf hif, extract, List.getD_eq_getElem?_getD, List.getElem?_map,
      hf, Option.map_some, Option.getD_some, getLsbD_gather _ (h.length_le hmem), Field.width,
      decide_eq_true hlt, Bool.true_and, hback, List.getD_eq_getElem _ _ hidx, List.getElem_idxOf]

end Encoding

end LegMachine
