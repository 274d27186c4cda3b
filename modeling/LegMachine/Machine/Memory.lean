import LegMachine.Word
import LegMachine.Text.Number

/-!
# Memory

A block of bytes mapped at a base address. Accesses of one, two and four bytes are little-endian and
must be aligned; alignment is checked before the range. `load` and `store` are the two accesses,
`place` copies a run of bytes, and `byte?` is the view of the memory as a partial map from
addresses.
-/

namespace LegMachine

inductive Access where
  | load
  | store
  deriving DecidableEq, Repr

namespace Access

def all : List Access := [load, store]

def name : Access → String
  | load => "Load"
  | store => "Store"

def ofName? (name : String) : Option Access :=
  all.find? (·.name == name)

def message : Access → String
  | load => "load"
  | store => "store"

end Access

inductive AddressFault where
  | misaligned
  | outOfRange
  /-- A pair of words must begin at a multiple of eight. -/
  | misalignedPair
  deriving DecidableEq, Repr

def AddressFault.message : AddressFault → String
  | misaligned => "address not aligned on boundary"
  | outOfRange => "address out of range"
  | misalignedPair => "address not aligned on doubleword boundary"

structure AddressError where
  access : Access
  address : Word
  reason : AddressFault
  deriving DecidableEq, Repr

def AddressError.message (e : AddressError) : String :=
  e.access.message ++ " address error at " ++ String.ofList (Text.hexWord e.address) ++ ": " ++
    e.reason.message

/-- Whether an address may hold a pair of words. -/
def pairAligned (address : Word) : Bool :=
  address.toNat % 8 == 0

/-- Bytes mapped at a base address. -/
structure Memory where
  bytes : ByteArray
  base : Word
  deriving DecidableEq

namespace Memory

def zeroed (size : Nat) (base : Word) : Memory :=
  ⟨size.fold (fun _ _ bytes => bytes.push 0) (ByteArray.emptyWithCapacity size), base⟩

/-- Where `length` bytes at `address` begin in the block, if they may be accessed. -/
def locate (m : Memory) (access : Access) (align length : Nat) (address : Word) :
    Except AddressError Nat :=
  if address.toNat % align ≠ 0 then .error ⟨access, address, .misaligned⟩
  else if address < m.base ∨ (address - m.base).toNat + length > m.bytes.size then
    .error ⟨access, address, .outOfRange⟩
  else .ok (address - m.base).toNat

/-- The byte at an offset; zero behind the end. -/
def peek (m : Memory) (offset : Nat) : UInt8 :=
  if h : offset < m.bytes.size then m.bytes[offset] else 0

def read (m : Memory) (offset : Nat) : Nat → List UInt8
  | 0 => []
  | length + 1 => m.peek offset :: m.read (offset + 1) length

def write (m : Memory) (offset : Nat) : List UInt8 → Memory
  | [] => m
  | b :: rest => { m with bytes := m.bytes.set! offset b }.write (offset + 1) rest

/-- Read a number of `width` bytes, extended with zeros to a word. -/
def load (m : Memory) (width : Nat) (address : Word) : Except AddressError Word :=
  (m.locate .load width width address).map fun offset =>
    BitVec.ofNat 32 (LittleEndian.combine (m.read offset width))

/-- Write the low `width` bytes of a word. -/
def store (m : Memory) (width : Nat) (address value : Word) : Except AddressError Memory :=
  (m.locate .store width width address).map fun offset =>
    m.write offset (LittleEndian.split width value.toNat)

/-- Copy a run of bytes into memory; it may begin at any address. -/
def place (m : Memory) (address : Word) (data : List UInt8) : Except AddressError Memory :=
  (m.locate .store 1 data.length address).map fun offset => m.write offset data

def byte? (m : Memory) (address : Word) : Option UInt8 :=
  if m.base ≤ address then m.bytes[(address - m.base).toNat]? else none

theorem size_set (bytes : ByteArray) (offset : Nat) (b : UInt8) :
    (bytes.set! offset b).size = bytes.size :=
  Array.size_setIfInBounds

@[simp] theorem size_write (m : Memory) (offset : Nat) (bs : List UInt8) :
    (m.write offset bs).bytes.size = m.bytes.size := by
  induction bs generalizing m offset with
  | nil => rfl
  | cons b rest ih => rw [write, ih, size_set]

@[simp] theorem base_write (m : Memory) (offset : Nat) (bs : List UInt8) :
    (m.write offset bs).base = m.base := by
  induction bs generalizing m offset with
  | nil => rfl
  | cons b rest ih => rw [write, ih]

theorem peek_set (m : Memory) (offset i : Nat) (b : UInt8) (h : offset < m.bytes.size) :
    ({ m with bytes := m.bytes.set! offset b } : Memory).peek i =
      if i = offset then b else m.peek i := by
  obtain ⟨⟨a⟩, base⟩ := m
  have ha : offset < a.size := h
  show (a.setIfInBounds offset b).getD i 0 = if i = offset then b else a.getD i 0
  rw [Array.getD_eq_getD_getElem?, Array.getD_eq_getD_getElem?, Array.getElem?_setIfInBounds]
  by_cases hi : i = offset
  · subst hi
    rw [if_pos rfl, if_pos ha, if_pos rfl]
    rfl
  · rw [if_neg fun e => hi e.symm, if_neg hi]

/-- The bytes that are written stand where they are written, and no others change. -/
theorem peek_write (m : Memory) (offset : Nat) (bs : List UInt8)
    (h : offset + bs.length ≤ m.bytes.size) (i : Nat) :
    (m.write offset bs).peek i =
      if offset ≤ i then bs.getD (i - offset) (m.peek i) else m.peek i := by
  induction bs generalizing m offset with
  | nil => simp [write]
  | cons b rest ih =>
    rw [List.length_cons] at h
    rw [write, ih, peek_set _ _ _ _ (by omega)]
    · obtain hlt | rfl | hlt := Nat.lt_trichotomy i offset
      · have h1 : ¬ offset ≤ i := by omega
        have h2 : ¬ offset + 1 ≤ i := by omega
        have h3 : i ≠ offset := by omega
        simp [h1, h2, h3]
      · rw [if_neg (by omega)]
        simp
      · have h1 : offset ≤ i := by omega
        have h2 : offset + 1 ≤ i := by omega
        have h3 : i ≠ offset := by omega
        have hk : i - offset = (i - (offset + 1)) + 1 := by omega
        simp [h1, h2, h3, hk]
    · rw [size_set]
      omega

end Memory

end LegMachine
