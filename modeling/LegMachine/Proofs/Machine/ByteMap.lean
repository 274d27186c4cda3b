import LegMachine.Exec.Instruction
import LegMachine.Proofs.Machine.Memory

/-!
# Memories as byte maps

A memory is used by calls: numbers are read and written, and runs of bytes are placed. All that a
memory ever answers can be told from a map from addresses to bytes: whether a call succeeds, which
error it meets, what it answers and which bytes it changes (`MemoryCall.Meets`). One call keeps to
the map (`meets_run`); so do any number of them, behind which every address holds the byte that was
written there last (`byte?_after`).
-/

namespace LegMachine

abbrev ByteMap := Word → Option UInt8

namespace ByteMap

/-- There is a byte at each of `length` addresses, the last of which is still an address. -/
def Covers (f : ByteMap) (length : Nat) (a : Word) : Prop :=
  ∀ i < length, a.toNat + i < 2 ^ 32 ∧ (f (a + BitVec.ofNat 32 i)).isSome = true

instance (f : ByteMap) (length : Nat) (a : Word) : Decidable (f.Covers length a) :=
  inferInstanceAs (Decidable (∀ i < length, _))

def bytes (f : ByteMap) (a : Word) (length : Nat) : List UInt8 :=
  (List.range length).map fun i => (f (a + BitVec.ofNat 32 i)).getD 0

/-- The bytes of `data` alone, the first one at the address `a`. -/
def ofData (a : Word) (data : List UInt8) : ByteMap := fun x =>
  if a ≤ x then data[x.toNat - a.toNat]? else none

/-- The bytes of `data` from the address `a` on, and elsewhere those of the map. -/
def put (f : ByteMap) (a : Word) (data : List UInt8) : ByteMap := fun x =>
  (ofData a data x).or (f x)

@[simp] theorem put_nil (f : ByteMap) (a : Word) : f.put a [] = f := by
  funext x
  simp [put, ofData]

end ByteMap

/-! ## Calls -/

/-- What a memory is asked to do. -/
inductive MemoryCall where
  /-- Read a number. -/
  | get (width : Width) (address : Word)
  /-- Write the low bytes of a word. -/
  | set (width : Width) (address value : Word)
  /-- Copy a run of bytes. -/
  | place (address : Word) (data : List UInt8)
  deriving DecidableEq, Repr

/-- What a memory answers: the number that was asked for, if one was. -/
abbrev Answer := Except AddressError (Option Word)

namespace MemoryCall

def run (m : Memory) : MemoryCall → Answer × Memory
  | get width a => ((m.load width.bytes a).map some, m)
  | set width a v =>
    match m.store width.bytes a v with
    | .ok after => (.ok none, after)
    | .error e => (.error e, m)
  | place a data =>
    match m.place a data with
    | .ok after => (.ok none, after)
    | .error e => (.error e, m)

def access : MemoryCall → Access
  | get _ _ => .load
  | set _ _ _ | place _ _ => .store

def address : MemoryCall → Word
  | get _ a | set _ a _ | place a _ => a

def alignment : MemoryCall → Nat
  | get width _ | set width _ _ => width.bytes
  | place _ _ => 1

def length : MemoryCall → Nat
  | get width _ | set width _ _ => width.bytes
  | place _ data => data.length

def data : MemoryCall → List UInt8
  | get _ _ => []
  | set width _ v => LittleEndian.split width.bytes v.toNat
  | place _ data => data

/-- What a call reads in a map. -/
def result (f : ByteMap) : MemoryCall → Option Word
  | get width a => some (BitVec.ofNat 32 (LittleEndian.combine (f.bytes a width.bytes)))
  | set _ _ _ | place _ _ => none

/-- A number is read and written where the map has all of its bytes. A run of bytes may be placed
between the base of the memory and its end. -/
def InRange (base : Word) (size : Nat) (f : ByteMap) : MemoryCall → Prop
  | get width a | set width a _ => f.Covers width.bytes a
  | place a data => base.toNat ≤ a.toNat ∧ a.toNat + data.length ≤ base.toNat + size

instance (base : Word) (size : Nat) (f : ByteMap) :
    (c : MemoryCall) → Decidable (c.InRange base size f)
  | get width a | set width a _ => inferInstanceAs (Decidable (f.Covers width.bytes a))
  | place _ _ => inferInstanceAs (Decidable (_ ∧ _))

/-- A memory of `size` bytes at `base` that shows the map `f` answers a call like this, and then
shows another map. -/
inductive Meets (base : Word) (size : Nat) (c : MemoryCall) (f : ByteMap) :
    Answer → ByteMap → Prop where
  | misaligned : c.address.toNat % c.alignment ≠ 0 →
      Meets base size c f (.error ⟨c.access, c.address, .misaligned⟩) f
  | outOfRange : c.address.toNat % c.alignment = 0 → ¬ c.InRange base size f →
      Meets base size c f (.error ⟨c.access, c.address, .outOfRange⟩) f
  | done : c.address.toNat % c.alignment = 0 → c.InRange base size f →
      Meets base size c f (.ok (c.result f)) (f.put c.address c.data)

end MemoryCall

/-! ## The map that a memory shows -/

namespace Memory

variable {m : Memory} {a x : Word} {data : List UInt8}

theorem byte?_of_maps (h : m.Maps 1 x) : m.byte? x = some (m.peek (x - m.base).toNat) :=
  byte?_eq_some.2 ⟨h, rfl⟩

theorem byte?_of_not_maps (h : ¬ m.Maps 1 x) : m.byte? x = none := by
  cases hb : m.byte? x with
  | none => rfl
  | some b => exact absurd (byte?_eq_some.1 hb).1 h

theorem isSome_byte? : (m.byte? x).isSome = true ↔ m.Maps 1 x := by
  by_cases h : m.Maps 1 x
  · simp [byte?_of_maps h, h]
  · simp [byte?_of_not_maps h, h]

/-- Bytes that are written are shown, and elsewhere the memory shows what it did. -/
theorem byte?_write (h : m.Maps data.length a) :
    (m.write (a - m.base).toNat data).byte? = ByteMap.put m.byte? a data := by
  funext x
  have hsame : (m.write (a - m.base).toNat data).Maps 1 x ↔ m.Maps 1 x := by
    unfold Maps
    rw [base_write, size_write]
  obtain ⟨hfirst, hlast⟩ := maps_iff.1 h
  have hoffset : (a - m.base).toNat = a.toNat - m.base.toNat := BitVec.toNat_sub_of_le h.1
  unfold ByteMap.put ByteMap.ofData
  by_cases hx : m.Maps 1 x
  · obtain ⟨hbase, -⟩ := maps_iff.1 hx
    rw [byte?_of_maps (hsame.2 hx), byte?_of_maps hx, base_write, peek_write m _ _ h.2,
      BitVec.toNat_sub_of_le hx.1, hoffset]
    by_cases hle : a ≤ x
    · have hle' : a.toNat ≤ x.toNat := hle
      rw [if_pos hle, if_pos (by omega), List.getD_eq_getElem?_getD,
        show x.toNat - m.base.toNat - (a.toNat - m.base.toNat) = x.toNat - a.toNat by omega]
      cases data[x.toNat - a.toNat]? <;> rfl
    · have hlt : x.toNat < a.toNat := BitVec.not_le.1 hle
      rw [if_neg hle, if_neg (by omega), Option.none_or]
  · -- no byte is written where there is none
    rw [byte?_of_not_maps fun hmaps => hx (hsame.1 hmaps), byte?_of_not_maps hx, Option.or_none]
    rw [maps_iff] at hx
    split
    · next hle =>
      have hle' : a.toNat ≤ x.toNat := hle
      exact (List.getElem?_eq_none (by omega)).symm
    · rfl

theorem read_eq_map (m : Memory) (offset length : Nat) :
    m.read offset length = (List.range length).map fun i => m.peek (offset + i) := by
  induction length generalizing offset with
  | zero => rfl
  | succ length ih =>
    rw [read, ih, List.range_succ_eq_map, List.map_cons, List.map_map]
    simp only [Nat.add_zero, Function.comp_def, Nat.add_assoc, Nat.add_comm 1]

/-- The bytes of a block that is read are those at the addresses. -/
theorem read_eq_bytes {length : Nat} (h : m.Maps length a) (hend : a.toNat + length ≤ 2 ^ 32) :
    m.read (a - m.base).toNat length = ByteMap.bytes m.byte? a length := by
  rw [read_eq_map]
  unfold ByteMap.bytes
  refine List.map_congr_left fun i hi => ?_
  have hi : i < length := List.mem_range.1 hi
  have hk : (BitVec.ofNat 32 i).toNat = i := by
    rw [BitVec.toNat_ofNat]
    omega
  rw [byte?_add_of_maps h (by omega) (by omega), hk]
  rfl

/-- A number whose address is a multiple of its width does not pass the last address. -/
theorem toNat_add_bytes_le {width : Width} (halign : a.toNat % width.bytes = 0) :
    a.toNat + width.bytes ≤ 2 ^ 32 := by
  have hlt : a.toNat < 2 ^ 32 := a.isLt
  cases width <;> simp only [Width.bytes] at halign ⊢ <;> omega

theorem covers_iff {width : Width} (halign : a.toNat % width.bytes = 0) :
    ByteMap.Covers m.byte? width.bytes a ↔ m.Maps width.bytes a := by
  have hend := toNat_add_bytes_le halign
  have hpos : 0 < width.bytes := by cases width <;> decide
  have hat (i : Nat) (hi : i < width.bytes) :
      (a + BitVec.ofNat 32 i).toNat = a.toNat + i := by
    rw [BitVec.toNat_add, BitVec.toNat_ofNat]
    omega
  unfold ByteMap.Covers
  simp only [isSome_byte?, maps_iff]
  constructor
  · intro h
    obtain ⟨-, hfirst, -⟩ := h 0 hpos
    obtain ⟨-, -, hlast⟩ := h (width.bytes - 1) (by omega)
    rw [hat 0 hpos] at hfirst
    rw [hat _ (by omega)] at hlast
    omega
  · intro h i hi
    rw [hat i hi]
    omega

end Memory

/-! ## One call -/

namespace MemoryCall

variable {m : Memory} {c : MemoryCall}

theorem inRange_iff (halign : c.address.toNat % c.alignment = 0) :
    c.InRange m.base m.bytes.size m.byte? ↔ m.Maps c.length c.address := by
  cases c with
  | get width a | set width a v => exact Memory.covers_iff halign
  | place a data => exact Memory.maps_iff.symm

theorem run_of_refused {e : AddressError}
    (h : m.locate c.access c.alignment c.length c.address = .error e) :
    c.run m = (.error e, m) := by
  cases c <;> simp only [access, alignment, length, address] at h <;>
    simp only [run, Memory.load, Memory.store, Memory.place, h, Except.map]

theorem run_of_maps (halign : c.address.toNat % c.alignment = 0)
    (h : m.Maps c.length c.address) :
    c.run m = (.ok (c.result m.byte?), m.write (c.address - m.base).toNat c.data) := by
  have hlocate : m.locate c.access c.alignment c.length c.address =
      .ok (c.address - m.base).toNat := Memory.locate_of_maps halign h
  cases c with
  | get width a =>
    simp only [access, alignment, length, address] at hlocate halign h
    simp only [run, Memory.load, hlocate, Except.map, address, data, Memory.write, result,
      Memory.read_eq_bytes h (Memory.toNat_add_bytes_le halign)]
  | set width a v =>
    simp only [access, alignment, length, address] at hlocate
    simp only [run, Memory.store, hlocate, Except.map, address, data, result]
  | place a bytes =>
    simp only [access, alignment, length, address] at hlocate
    simp only [run, Memory.place, hlocate, Except.map, address, data, result]

theorem length_data_le (c : MemoryCall) : c.data.length ≤ c.length := by
  cases c with
  | get width a => exact Nat.zero_le _
  | set width a v => exact Nat.le_of_eq (LittleEndian.length_split ..)
  | place a data => exact Nat.le_refl _

/-- A call is answered as the map tells, and changes the map as it should. A call that fails changes
nothing at all. -/
theorem meets_run (m : Memory) (c : MemoryCall) :
    c.Meets m.base m.bytes.size m.byte? (c.run m).1 (c.run m).2.byte? ∧
      ((c.run m).2 = m ∨ ∃ v, (c.run m).1 = .ok v) ∧
      (c.run m).2.base = m.base ∧ (c.run m).2.bytes.size = m.bytes.size := by
  by_cases halign : c.address.toNat % c.alignment = 0
  · by_cases hmaps : m.Maps c.length c.address
    · have hdata : m.Maps c.data.length c.address :=
        ⟨hmaps.1, Nat.le_trans (Nat.add_le_add_left c.length_data_le _) hmaps.2⟩
      rw [run_of_maps halign hmaps]
      refine ⟨?_, .inr ⟨_, rfl⟩, Memory.base_write .., Memory.size_write ..⟩
      show c.Meets _ _ _ _ (m.write (c.address - m.base).toNat c.data).byte?
      rw [Memory.byte?_write hdata]
      exact .done halign ((inRange_iff halign).2 hmaps)
    · rw [run_of_refused (Memory.locate_of_not_maps halign hmaps)]
      exact ⟨.outOfRange halign fun h => hmaps ((inRange_iff halign).1 h), .inl rfl, rfl, rfl⟩
  · rw [run_of_refused (Memory.locate_of_misaligned halign)]
    exact ⟨.misaligned halign, .inl rfl, rfl, rfl⟩

/-! ## Any number of calls -/

def after (m : Memory) : List MemoryCall → Memory
  | [] => m
  | c :: rest => after (c.run m).2 rest

def trace (m : Memory) : List MemoryCall → List (MemoryCall × Answer)
  | [] => []
  | c :: rest => (c, (c.run m).1) :: trace (c.run m).2 rest

/-- What a call that gets this answer writes. -/
def written : MemoryCall × Answer → ByteMap
  | (c, .ok _) => .ofData c.address c.data
  | (_, .error _) => fun _ => none

/-- The bytes that were written last. -/
def lastWritten (t : List (MemoryCall × Answer)) : ByteMap := fun x =>
  t.reverse.findSome? (written · x)

theorem lastWritten_cons (call : MemoryCall × Answer) (t : List (MemoryCall × Answer)) (x : Word) :
    lastWritten (call :: t) x = (lastWritten t x).or (written call x) := by
  unfold lastWritten
  rw [List.reverse_cons, List.findSome?_append, List.findSome?_singleton]

theorem Meets.eq_written {base : Word} {size : Nat} {f g : ByteMap} {answer : Answer}
    (h : c.Meets base size f answer g) (x : Word) : g x = (written (c, answer) x).or (f x) := by
  cases h <;> rfl

/-- Behind any calls a memory shows what was written last, and elsewhere what it showed before
them. -/
theorem byte?_after (m : Memory) (calls : List MemoryCall) (x : Word) :
    (after m calls).byte? x = (lastWritten (trace m calls) x).or (m.byte? x) := by
  induction calls generalizing m with
  | nil => rfl
  | cons c rest ih =>
    rw [after, ih, trace, lastWritten_cons, (meets_run m c).1.eq_written, Option.or_assoc]

theorem bounds_after (m : Memory) (calls : List MemoryCall) :
    (after m calls).base = m.base ∧ (after m calls).bytes.size = m.bytes.size := by
  induction calls generalizing m with
  | nil => exact ⟨rfl, rfl⟩
  | cons c rest ih =>
    obtain ⟨-, -, hbase, hsize⟩ := meets_run m c
    obtain ⟨ihbase, ihsize⟩ := ih (c.run m).2
    exact ⟨ihbase.trans hbase, ihsize.trans hsize⟩

/-- Behind any calls a memory shows the bytes that were written last or that it has shown from the
beginning, at the same addresses as ever, and the next call keeps to this map. If it fails, the
memory stays as it is. -/
theorem run_after_meets (m : Memory) (calls : List MemoryCall) (c : MemoryCall) :
    let now := after m calls
    let f : ByteMap := fun x => (lastWritten (trace m calls) x).or (m.byte? x)
    now.byte? = f ∧
      (∀ x, (f x).isSome = true ↔
        m.base.toNat ≤ x.toNat ∧ x.toNat < m.base.toNat + m.bytes.size) ∧
      c.Meets m.base m.bytes.size f (c.run now).1 (c.run now).2.byte? ∧
      ∀ e, (c.run now).1 = .error e → (c.run now).2 = now := by
  intro now f
  have hmap : now.byte? = f := funext fun x => byte?_after m calls x
  obtain ⟨hbase, hsize⟩ := bounds_after m calls
  obtain ⟨hmeets, hkept, -, -⟩ := meets_run now c
  rw [hbase, hsize, hmap] at hmeets
  refine ⟨hmap, fun x => ?_, hmeets, fun e he => ?_⟩
  · rw [← hmap, Memory.isSome_byte?, Memory.maps_iff, hbase, hsize]
    rfl
  · rcases hkept with hsame | ⟨v, hv⟩
    · exact hsame
    · rw [he] at hv
      cases hv

/-- A byte that is written into a word is read with the rest of the word. Five bytes do not fit in
front of the end, and none of them is placed. -/
theorem run_after_meets_overlap :
    let m : Memory := ⟨⟨#[0, 0, 0, 0, 0, 0, 9, 9, 9, 9]⟩, 0x1002⟩
    let calls : List MemoryCall := [.set .word 0x1004 0x11223344, .set .byte 0x1005 0xAA]
    let now := after m calls
    now.byte? 0x1005 = some 0xAA ∧ now.byte? 0x1008 = some 9 ∧
      (MemoryCall.run now (.get .word 0x1004)).1 = .ok (some 0x1122AA44) ∧
      (MemoryCall.run now (.get .word 0x1004)).2.byte? = now.byte? ∧
      (MemoryCall.run now (.place 0x1008 [1, 2, 3, 4, 5])).1 =
        .error ⟨.store, 0x1008, .outOfRange⟩ ∧
      (MemoryCall.run now (.place 0x1008 [1, 2, 3, 4, 5])).2 = now := by
  intro m calls now
  obtain ⟨hmap, -, hword, -⟩ := run_after_meets m calls (.get .word 0x1004)
  obtain ⟨-, -, hplace, hkept⟩ := run_after_meets m calls (.place 0x1008 [1, 2, 3, 4, 5])
  have hrefused : (MemoryCall.run now (.place 0x1008 [1, 2, 3, 4, 5])).1 =
      .error ⟨.store, 0x1008, .outOfRange⟩ := by
    generalize (MemoryCall.run now (.place 0x1008 [1, 2, 3, 4, 5])).1 = answer,
      (MemoryCall.run now (.place 0x1008 [1, 2, 3, 4, 5])).2.byte? = g at hplace ⊢
    rcases hplace with hmis | ⟨-, -⟩ | ⟨-, hin⟩
    · exact absurd (by decide) hmis
    · rfl
    · exact absurd hin.2 (by decide +kernel)
  have hread : (MemoryCall.run now (.get .word 0x1004)).1 = .ok (some 0x1122AA44) ∧
      (MemoryCall.run now (.get .word 0x1004)).2.byte? = now.byte? := by
    generalize (MemoryCall.run now (.get .word 0x1004)).1 = answer,
      (MemoryCall.run now (.get .word 0x1004)).2.byte? = g at hword ⊢
    rcases hword with hmis | ⟨-, hout⟩ | ⟨-, -⟩
    · exact absurd (by decide) hmis
    · exact absurd (by decide +kernel) hout
    · -- no bytes are put where a number is read
      exact ⟨congrArg Except.ok (by decide +kernel), (ByteMap.put_nil _ _).trans hmap.symm⟩
  refine ⟨?_, ?_, hread.1, hread.2, hrefused, hkept _ hrefused⟩
  · exact (congrFun hmap 0x1005).trans (by decide +kernel)
  · exact (congrFun hmap 0x1008).trans (by decide +kernel)

end MemoryCall

end LegMachine
