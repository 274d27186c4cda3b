import LegMachine.Isa.Table
import LegMachine.Proofs.Isa.Encoding
import Mathlib.Data.Finset.Card
import Mathlib.Data.Finset.SDiff
import Mathlib.Data.Finset.Insert

/-!
# The layout of a word

A template compiles if it has a character for each bit and names few enough fields
(`exists_compile_iff_card`). However the letters are mixed, its masks then part the word
(`Partition.pairwise_parts`, `Partition.or_parts`) and its fields stand in the order in which their
letters appear (`letters_pairwise`). Scattering a value over a field and gathering it again gives
its low bits (`gather_scatter`), and gathering a field and scattering the value gives the bits of
that field (`scatter_gather`). All of this together is `compile_partitions`.
-/

namespace LegMachine

theorem toNat_zeroExtendLow (width : Nat) (w : Word) :
    (zeroExtendLow width w).toNat = w.toNat % 2 ^ width := by
  rw [zeroExtendLow, BitVec.toNat_setWidth, BitVec.toNat_setWidth]
  exact Nat.mod_eq_of_lt (Nat.lt_of_le_of_lt (Nat.mod_le _ _) w.isLt)

/-! ## Masks of positions -/

/-- A mask has as many bits as there are positions. -/
theorem bitCount_wordOfBits {positions : List Nat} (hn : positions.Nodup)
    (hlt : ∀ p ∈ positions, p < 32) : bitCount (wordOfBits positions) = positions.length := by
  have hbits : ((List.range 32).filter (wordOfBits positions).getLsbD).Perm positions := by
    rw [List.perm_ext_iff_of_nodup (List.nodup_range.filter _) hn]
    intro i
    rw [List.mem_filter, List.mem_range, getLsbD_wordOfBits, Bool.and_eq_true, decide_eq_true_iff,
      decide_eq_true_iff]
    exact ⟨fun h => h.2.1, fun h => ⟨hlt i h, h, hlt i h⟩⟩
  rw [bitCount, List.countP_eq_length_filter, hbits.length_eq]

section

variable {positions : List Nat} (hn : positions.Nodup) (hlt : ∀ p ∈ positions, p < 32)
include hn hlt

theorem gather_scatter (hlen : positions.length ≤ 32) (v : Word) :
    gather positions (scatter v positions) = zeroExtendLow positions.length v := by
  apply BitVec.eq_of_getLsbD_eq
  intro i _
  rw [getLsbD_gather _ hlen, getLsbD_zeroExtendLow]
  by_cases hi : i < positions.length
  · have hplace : positions.length - 1 - i < positions.length := by omega
    have hback : positions.length - 1 - (positions.length - 1 - i) = i := by omega
    rw [List.getD_eq_getElem _ _ hplace, getLsbD_scatter v hn hlt, hn.idxOf_getElem, hback,
      decide_eq_true (List.getElem_mem hplace), Bool.true_and]
  · rw [decide_eq_false hi, Bool.false_and, Bool.false_and]

theorem scatter_gather (hlen : positions.length ≤ 32) (w : Word) :
    scatter (gather positions w) positions = w &&& wordOfBits positions := by
  apply BitVec.eq_of_getLsbD_eq
  intro i hi
  rw [getLsbD_scatter _ hn hlt, BitVec.getLsbD_and, getLsbD_wordOfBits, decide_eq_true hi,
    Bool.and_true]
  by_cases hmem : i ∈ positions
  · have hidx := List.idxOf_lt_length_of_mem hmem
    have hplace : positions.length - 1 - positions.idxOf i < positions.length := by omega
    have hback : positions.length - 1 - (positions.length - 1 - positions.idxOf i) =
        positions.idxOf i := by omega
    rw [getLsbD_gather w hlen, decide_eq_true hmem, decide_eq_true hplace, hback,
      List.getD_eq_getElem _ _ hidx, List.getElem_idxOf, Bool.true_and, Bool.true_and,
      Bool.and_true]
  · rw [decide_eq_false hmem, Bool.false_and, Bool.and_false]

end

/-! ## Masks that part the word -/

namespace Encoding

/-- The mask of the fixed bits and those of the fields. -/
def parts (e : Encoding) : List Word :=
  e.mask :: e.fields.map Field.bits

variable {e : Encoding}

theorem getLsbD_foldr_or (l : List Word) (i : Nat) :
    (l.foldr (· ||| ·) 0).getLsbD i = l.any (·.getLsbD i) := by
  induction l with
  | nil => simp
  | cons w l ih => rw [List.foldr_cons, BitVec.getLsbD_or, ih, List.any_cons]

theorem and_eq_zero {v w : Word} (h : ∀ i < 32, v.getLsbD i = true → w.getLsbD i = false) :
    v &&& w = 0 := by
  apply BitVec.eq_of_getLsbD_eq
  intro i hi
  rw [BitVec.getLsbD_and]
  cases hv : v.getLsbD i with
  | true => rw [h i hi hv, Bool.true_and]; exact BitVec.getLsbD_zero.symm
  | false => rw [Bool.false_and]; exact BitVec.getLsbD_zero.symm

theorem Partition.getLsbD_bits (h : e.Partition) {f : Field} (hf : f ∈ e.fields) (i : Nat) :
    f.bits.getLsbD i = true ↔ i ∈ f.positions := by
  rw [Field.bits, getLsbD_wordOfBits, Bool.and_eq_true, decide_eq_true_iff, decide_eq_true_iff]
  exact and_iff_left_of_imp (h.lt f hf i)

/-- No bit is in two parts. -/
theorem Partition.pairwise_parts (h : e.Partition) : e.parts.Pairwise (· &&& · = 0) := by
  rw [parts, List.pairwise_cons, List.pairwise_map]
  constructor
  · intro b hb
    obtain ⟨f, hf, rfl⟩ := List.mem_map.1 hb
    refine and_eq_zero fun i hi hmask => ?_
    rw [← Bool.not_eq_true, h.getLsbD_bits hf]
    exact (h.mask_iff i hi).1 hmask f hf
  · refine h.disjoint.imp_of_mem fun hf hg hfg => and_eq_zero fun i _ hi => ?_
    rw [← Bool.not_eq_true, h.getLsbD_bits hg]
    exact hfg i ((h.getLsbD_bits hf i).1 hi)

/-- Every bit is in some part. -/
theorem Partition.or_parts (h : e.Partition) :
    e.parts.foldr (· ||| ·) 0 = BitVec.allOnes 32 := by
  apply BitVec.eq_of_getLsbD_eq
  intro i hi
  rw [getLsbD_foldr_or, BitVec.getLsbD_allOnes, decide_eq_true hi, parts, List.any_cons]
  cases hmask : e.mask.getLsbD i with
  | true => rfl
  | false =>
    have hfield : ∃ f ∈ e.fields, i ∈ f.positions := by
      by_contra hno
      push Not at hno
      rw [(h.mask_iff i hi).2 hno] at hmask
      cases hmask
    obtain ⟨f, hf, hif⟩ := hfield
    rw [Bool.false_or, List.any_eq_true]
    exact ⟨f.bits, List.mem_map_of_mem hf, (h.getLsbD_bits hf i).2 hif⟩

theorem Partition.fixed_and_mask (h : e.Partition) : e.fixed &&& e.mask = e.fixed := by
  apply BitVec.eq_of_getLsbD_eq
  intro i _
  rw [BitVec.getLsbD_and]
  cases hfixed : e.fixed.getLsbD i with
  | true => rw [h.mask_of_fixed i hfixed, Bool.true_and]
  | false => rw [Bool.false_and]

end Encoding

/-! ## Fields in order of appearance -/

/-- What is left out of a list does not change which of two elements comes first. -/
theorem idxOf_lt_of_filter {α : Type} [BEq α] [LawfulBEq α] {p : α → Bool} {a b : α} {l : List α}
    (ha : p a = true) (hb : p b = true) (h : (l.filter p).idxOf a < (l.filter p).idxOf b) :
    l.idxOf a < l.idxOf b := by
  induction l with
  | nil => simp at h
  | cons x l ih =>
    cases hx : p x with
    | true =>
      rw [List.filter_cons_of_pos hx, List.idxOf_cons, List.idxOf_cons] at h
      rw [List.idxOf_cons, List.idxOf_cons]
      cases hxa : x == a with
      | true =>
        cases hxb : x == b with
        | true => simp [hxa, hxb] at h
        | false => exact Nat.succ_pos _
      | false =>
        cases hxb : x == b with
        | true => simp [hxb] at h
        | false =>
          rw [hxa, hxb] at h
          exact Nat.succ_lt_succ (ih (Nat.lt_of_succ_lt_succ h))
    | false =>
      rw [List.filter_cons_of_neg (by simp [hx])] at h
      have hne (c : α) (hc : p c = true) : (x == c) = false := by
        rw [beq_eq_false_iff_ne]
        rintro rfl
        simp [hc] at hx
      rw [List.idxOf_cons, List.idxOf_cons, hne a ha, hne b hb]
      simpa using ih h

theorem eraseDups_pairwise {α : Type} [BEq α] [LawfulBEq α] (l : List α) :
    l.eraseDups.Pairwise fun a b => l.idxOf a < l.idxOf b := by
  match l with
  | [] => simp
  | x :: l =>
    have hrest := eraseDups_pairwise (l.filter fun b => !b == x)
    have hne {c : α} (hc : c ∈ (l.filter fun b => !b == x).eraseDups) : (c == x) = false := by
      rw [List.mem_eraseDups, List.mem_filter] at hc
      simpa using hc.2
    have hidx {c : α} (hc : c ∈ (l.filter fun b => !b == x).eraseDups) :
        (x :: l).idxOf c = l.idxOf c + 1 := by
      have hxc : (x == c) = false := by
        rw [beq_eq_false_iff_ne]
        exact fun e => (beq_eq_false_iff_ne.1 (hne hc)) e.symm
      rw [List.idxOf_cons, hxc]
      rfl
    rw [List.eraseDups_cons, List.pairwise_cons]
    constructor
    · intro c hc
      rw [List.idxOf_cons_self, hidx hc]
      exact Nat.succ_pos _
    · refine hrest.imp_of_mem fun ha hb hab => ?_
      rw [hidx ha, hidx hb]
      have hlt := idxOf_lt_of_filter (by rw [hne ha]; rfl) (by rw [hne hb]; rfl) hab
      omega
termination_by l.length
decreasing_by exact Nat.lt_succ_of_le (List.length_filter_le _ _)

namespace Template

theorem letters_pairwise (t : Template) :
    (letters t).Pairwise fun a b => t.idxOf a < t.idxOf b := by
  refine (eraseDups_pairwise _).imp_of_mem fun ha hb hab => idxOf_lt_of_filter ?_ ?_ hab
  · simpa using (mem_letters.1 ha).2
  · simpa using (mem_letters.1 hb).2

theorem positionsWhere_pairwise (p : Char → Bool) {t : Template} (ht : t.length = 32) :
    (positionsWhere p t).Pairwise (· > ·) := by
  have hindices : t.zipIdx.Pairwise fun a b => a.2 < b.2 := by
    rw [← List.pairwise_map (f := Prod.snd), List.zipIdx_map_snd]
    exact List.pairwise_lt_range'
  rw [positionsWhere, List.pairwise_map]
  refine (hindices.filter _).imp_of_mem fun {a b} _ hb hab => ?_
  have hlt := List.snd_lt_of_mem_zipIdx (List.mem_of_mem_filter hb)
  omega

theorem toFinset_letters (t : Template) : (letters t).toFinset = t.toFinset \ {'0', '1'} := by
  ext c
  rw [List.mem_toFinset, mem_letters, Finset.mem_sdiff, List.mem_toFinset, Finset.mem_insert,
    Finset.mem_singleton, not_or]

/-- A template compiles if it has 32 characters and at most four of them name fields. -/
theorem exists_compile_iff_card {t : Template} :
    (∃ e, t.compile = .ok e) ↔ t.length = 32 ∧ (t.toFinset \ {'0', '1'}).card ≤ 4 := by
  have hcard : (t.toFinset \ {'0', '1'}).card = (letters t).length := by
    have hnodup : (letters t).Nodup := nodup_eraseDups _
    rw [← toFinset_letters, List.toFinset_card_of_nodup hnodup]
  rw [hcard]
  unfold compile maxOperands
  by_cases hlen : t.length = 32
  · by_cases hletters : 4 < (letters t).length
    · simp [hlen, hletters]
    · simp [hlen, hletters, Nat.le_of_not_lt hletters]
  · simp [hlen]

/-! ## Compiled templates -/

/-- The encoding has every bit where the template shows it. The masks part the word, the fields are
ordered by first appearance, and each of them has its bits from the highest to the lowest. -/
structure LaidOut (t : Template) (e : Encoding) : Prop where
  mask_iff (i : Nat) : i < 32 →
    (e.mask.getLsbD i = true ↔ t[31 - i]? = some '0' ∨ t[31 - i]? = some '1')
  fixed_iff (i : Nat) : i < 32 → (e.fixed.getLsbD i = true ↔ t[31 - i]? = some '1')
  field_iff (f : Field) : f ∈ e.fields → ∀ i < 32,
    (f.bits.getLsbD i = true ↔ t[31 - i]? = some f.letter)
  disjoint : e.parts.Pairwise (· &&& · = 0)
  covers : e.parts.foldr (· ||| ·) 0 = BitVec.allOnes 32
  fixed_in_mask : e.fixed &&& e.mask = e.fixed
  width (f : Field) : f ∈ e.fields → f.width = bitCount f.bits ∧ 1 ≤ f.width
  ordered : e.fields.Pairwise fun f g => t.idxOf f.letter < t.idxOf g.letter
  highestFirst (f : Field) : f ∈ e.fields → f.positions.Pairwise (· > ·)

theorem laidOut_of_compile {t : Template} {e : Encoding} (h : t.compile = .ok e) :
    t.LaidOut e := by
  have hp := partition_of_compile h
  obtain ⟨ht, he⟩ := compile_eq_ok h
  have hfields : e.fields = fields t := congrArg Encoding.fields he
  constructor
  case mask_iff =>
    intro i hi
    have hk : 31 - i < List.length t := by omega
    rw [he, getLsbD_wordOfBits, Bool.and_eq_true, decide_eq_true_iff, mem_positionsWhere ht,
      List.getElem?_eq_getElem hk]
    simp [hi]
  case fixed_iff =>
    intro i hi
    rw [he, getLsbD_wordOfBits, Bool.and_eq_true, decide_eq_true_iff, mem_positionsWhere ht]
    simp [hi]
  case field_iff =>
    intro f hf i hi
    rw [hp.getLsbD_bits hf, mem_fields ht (hfields ▸ hf)]
    exact and_iff_right hi
  case disjoint => exact hp.pairwise_parts
  case covers => exact hp.or_parts
  case fixed_in_mask => exact hp.fixed_and_mask
  case width =>
    intro f hf
    refine ⟨(bitCount_wordOfBits (hp.nodup f hf) (hp.lt f hf)).symm, ?_⟩
    -- the letter stands somewhere in the template, which gives the field a bit
    obtain ⟨c, hc, rfl⟩ := List.mem_map.1 (hfields ▸ hf)
    obtain ⟨k, hk, hget⟩ := List.getElem_of_mem (mem_letters.1 hc).1
    have hback : 31 - (31 - k) = k := by omega
    have hmem : 31 - k ∈ positionsWhere (· == c) t := by
      refine (mem_positionsWhere ht).2 ⟨by omega, c, ?_, beq_self_eq_true c⟩
      rw [hback, List.getElem?_eq_getElem hk, hget]
    exact List.length_pos_of_mem hmem
  case ordered =>
    rw [hfields, fields, List.pairwise_map]
    exact letters_pairwise t
  case highestFirst =>
    intro f hf
    obtain ⟨c, -, rfl⟩ := List.mem_map.1 (hfields ▸ hf)
    exact positionsWhere_pairwise (· == c) ht

end Template

/-- The value of an operand that a field holds: its low bits as an unsigned number, but all 32 bits
as the signed number. -/
def Field.kept (f : Field) (v : Word) : Int :=
  if f.width = 32 then v.toInt else v.toInt % 2 ^ f.width

theorem Field.toInt_zeroExtendLow (f : Field) (h : f.width ≤ 32) (v : Word) :
    (zeroExtendLow f.width v).toInt = f.kept v := by
  unfold kept
  split
  · next hfull => rw [hfull, zeroExtendLow, BitVec.setWidth_eq, BitVec.setWidth_eq]
  · next hpart =>
    have hlt := zeroExtendLow_lt f.width v
    have hpow : 2 ^ f.width ≤ 2 ^ 31 := Nat.pow_le_pow_right (by decide) (by omega)
    have hword : v.toInt % 2 ^ 32 = v.toNat := by
      have hv := v.isLt
      rw [BitVec.toInt_eq_toNat_cond]
      split <;> omega
    have hdvd : (2 : Int) ^ f.width ∣ 2 ^ 32 := by exact_mod_cast Nat.pow_dvd_pow 2 h
    rw [BitVec.toInt_eq_toNat_of_lt (by omega), toNat_zeroExtendLow, Int.natCast_emod, ← hword]
    exact Int.emod_emod_of_dvd _ hdvd

namespace Encoding

/-- Operands are read back from the word that they are encoded in, and a word is encoded by the
operands that are read from it. -/
structure RoundTrips (e : Encoding) : Prop where
  gather_scatter (f : Field) : f ∈ e.fields → ∀ v,
    gather f.positions (scatter v f.positions) = zeroExtendLow f.width v
  scatter_gather (f : Field) : f ∈ e.fields → ∀ w,
    scatter (gather f.positions w) f.positions = w &&& f.bits
  accepts (ops : List Word) : e.accepts (e.encode ops) = true
  operands (ops : List Word) : (e.extract (e.encode ops)).map BitVec.toInt =
    e.fields.mapIdx fun k f => f.kept (ops.getD k 0)
  further (ops : List Word) : e.encode (ops.take e.fields.length) = e.encode ops
  word (w : Word) : e.accepts w = true → e.encode (e.extract w) = w

theorem zip_take_length {α β : Type} (l : List α) (m : List β) :
    l.zip (m.take l.length) = l.zip m := by
  induction l generalizing m with
  | nil => rfl
  | cons a l ih => cases m <;> simp [ih]

theorem Partition.roundTrips {e : Encoding} (h : e.Partition) : e.RoundTrips where
  gather_scatter f hf := LegMachine.gather_scatter (h.nodup f hf) (h.lt f hf) (h.length_le hf)
  scatter_gather f hf := LegMachine.scatter_gather (h.nodup f hf) (h.lt f hf) (h.length_le hf)
  accepts := accepts_encode h
  operands ops := by
    apply List.ext_getElem?
    intro k
    rw [List.getElem?_map, extract_encode h, List.getElem?_mapIdx, Option.map_map]
    cases hf : e.fields[k]? with
    | none => rfl
    | some f =>
      exact congrArg some (f.toInt_zeroExtendLow (h.length_le (List.mem_of_getElem? hf)) _)
  further ops := by rw [encode, encode, zip_take_length]
  word _ := encode_extract h

end Encoding

/-- A template compiles exactly if it has 32 characters and names at most four fields. The encoding
then has every bit where the template shows it and parts the word among the fixed bits and the
fields; operands are read back as far as their fields have room, and words are encoded back. -/
theorem Template.compile_partitions (t : Template) :
    ((∃ e, t.compile = .ok e) ↔ t.length = 32 ∧ (t.toFinset \ {'0', '1'}).card ≤ 4) ∧
      ∀ e, t.compile = .ok e → t.LaidOut e ∧ e.RoundTrips :=
  ⟨exists_compile_iff_card, fun _ h => ⟨laidOut_of_compile h, (partition_of_compile h).roundTrips⟩⟩

/-- Four letters may take turns. -/
theorem Template.compile_partitions_mixed :
    let t : Template := "abcd10abcd10abcd10abcd10abcd1010".toList
    ∃ e, t.compile = .ok e ∧ t.LaidOut e ∧ e.RoundTrips ∧ e.fields.map Field.width = [5, 5, 5, 5] ∧
      (e.extract (e.encode [31, -1, 64, 0, 7])).map BitVec.toInt = [31, 31, 0, 0] := by
  intro t
  obtain ⟨hiff, hlaid⟩ := compile_partitions t
  obtain ⟨e, he⟩ := hiff.2 ⟨rfl, by decide⟩
  obtain ⟨hlayout, htrips⟩ := hlaid e he
  obtain ⟨-, rfl⟩ := compile_eq_ok he
  exact ⟨_, he, hlayout, htrips, by decide +kernel, by decide +kernel⟩

end LegMachine
