import LegMachine.Proofs.Machine.Memory

/-!
# Loading an image

Memories with the same bytes at every offset are the same (`ext_peek`), so an image that is placed
at the base of a zeroed memory stands there in front of the zeros that it leaves (`place_zeroed`).
-/

namespace LegMachine

/-- The bytes of an array as a list. -/
theorem toList_byteArray (bytes : ByteArray) : bytes.toList = bytes.data.toList := by
  have hloop : ∀ n i r, bytes.size - i = n →
      ByteArray.toList.loop bytes i r = r.reverse ++ bytes.data.toList.drop i := by
    intro n
    induction n with
    | zero =>
      intro i r hi
      have hend : bytes.data.toList.drop i = [] :=
        List.drop_eq_nil_of_le (Nat.le_of_sub_eq_zero hi)
      rw [ByteArray.toList.loop, if_neg (by omega), hend, List.append_nil]
    | succ n ih =>
      intro i r hi
      have hlt : i < bytes.size := by omega
      have hget : bytes.get! i = bytes.data.toList[i] := getElem!_pos bytes.data i hlt
      rw [ByteArray.toList.loop, if_pos hlt, ih (i + 1) _ (by omega), hget, List.reverse_cons,
        List.append_assoc, List.singleton_append, ← List.drop_eq_getElem_cons]
  exact hloop _ 0 [] rfl

namespace Memory

variable {m n : Memory}

theorem ext_peek (hbase : m.base = n.base) (hsize : m.bytes.size = n.bytes.size)
    (hpeek : ∀ i, m.peek i = n.peek i) : m = n := by
  obtain ⟨⟨a⟩, base⟩ := m
  obtain ⟨⟨b⟩, base'⟩ := n
  obtain rfl : base = base' := hbase
  have hab : a = b := by
    refine Array.ext hsize fun i hi hi' => ?_
    have h := hpeek i
    simp only [peek] at h
    rwa [dif_pos (show i < (⟨a⟩ : ByteArray).size from hi),
      dif_pos (show i < (⟨b⟩ : ByteArray).size from hi')] at h
  rw [hab]

theorem zeroed_eq (size : Nat) (base : Word) :
    zeroed size base = ⟨⟨Array.replicate size 0⟩, base⟩ := by
  have hfold : ∀ k : Nat,
      k.fold (fun _ _ (bytes : ByteArray) => bytes.push 0) (ByteArray.emptyWithCapacity size) =
        ⟨Array.replicate k 0⟩ := by
    intro k
    induction k with
    | zero => rfl
    | succ k ih =>
      rw [Nat.fold_succ, ih, Array.replicate_succ]
      rfl
  rw [zeroed, hfold]

theorem peek_eq_getD (m : Memory) (i : Nat) : m.peek i = m.bytes.data.getD i 0 := rfl

/-- An image that fits stands in front of zeros. -/
theorem place_zeroed {image : ByteArray} {size : Nat} (hfits : image.size ≤ size) (base : Word) :
    (zeroed size base).place base image.toList =
      .ok ⟨⟨image.data ++ Array.replicate (size - image.size) 0⟩, base⟩ := by
  have hlength : image.toList.length = image.size := by
    rw [toList_byteArray]
    rfl
  have hsize : (⟨⟨Array.replicate size 0⟩, base⟩ : Memory).bytes.size = size :=
    Array.size_replicate
  have hmaps : (⟨⟨Array.replicate size 0⟩, base⟩ : Memory).Maps image.toList.length base := by
    refine ⟨BitVec.le_refl base, ?_⟩
    rw [hsize, BitVec.sub_self, hlength]
    simpa using hfits
  rw [zeroed_eq, place, locate_of_maps (Nat.mod_one _) hmaps, Except.map]
  congr 1
  refine ext_peek (base_write _ _ _) ?_ fun i => ?_
  · rw [size_write, hsize]
    show size = (image.data ++ Array.replicate (size - image.size) 0).size
    rw [Array.size_append, Array.size_replicate]
    exact (Nat.add_sub_cancel' hfits).symm
  · rw [peek_write _ _ _ (by rw [hsize, hlength]; simpa using hfits), toList_byteArray,
      peek_eq_getD, peek_eq_getD, BitVec.sub_self, BitVec.toNat_zero, if_pos (Nat.zero_le i),
      Nat.sub_zero, Array.getD_eq_getD_getElem?, Array.getD_eq_getD_getElem?,
      List.getD_eq_getElem?_getD, Array.getElem?_toList]
    by_cases hi : i < image.data.size
    · rw [Array.getElem?_append_left hi, Array.getElem?_eq_getElem hi]
      rfl
    · rw [Array.getElem?_append_right (Nat.le_of_not_lt hi),
        Array.getElem?_eq_none (Nat.le_of_not_lt hi), Array.getElem?_replicate,
        Array.getElem?_replicate]
      split <;> split <;> rfl

end Memory

end LegMachine
