import LegMachine.Json.Writer
import LegMachine.Word

/-!
# Images

An image is a row of segments, each of them a run of bytes at a base address. The first segment that
contains an address answers for it. A segment's end is counted in 32 bits like every address, so
that one which reaches the top of the address space contains nothing.
-/

namespace LegMachine

/-- A run of bytes at a base address. -/
structure Segment where
  name : String
  base : Word
  bytes : ByteArray
  /-- What a program may do there. -/
  permissions : String
  deriving DecidableEq

namespace Segment

/-- The address behind the last byte. -/
def endAddress (s : Segment) : Word :=
  s.base + BitVec.ofNat 32 s.bytes.size

def contains (s : Segment) (address : Word) : Bool :=
  s.base ≤ address && address < s.endAddress

def byte? (s : Segment) (address : Word) : Option UInt8 :=
  s.bytes[(address - s.base).toNat]?

/-- No segment contains the last address: it would have to end behind it. -/
theorem toNat_lt_of_contains {s : Segment} {a : Word} (h : s.contains a = true) :
    a.toNat < 0xFFFFFFFF := by
  unfold contains at h
  rw [Bool.and_eq_true, decide_eq_true_eq, decide_eq_true_eq] at h
  have hlt : a.toNat < s.endAddress.toNat := h.2
  have htop : s.endAddress.toNat < 0x100000000 := s.endAddress.isLt
  omega

/-- A segment without its bytes. -/
def toJson (s : Segment) : Json :=
  .ofMembers
    [("name", .ofText s.name), ("base", .ofInt s.base.toNat), ("perms", .ofText s.permissions)]

end Segment

structure Image where
  segments : List Segment
  deriving DecidableEq

inductive LoadError where
  | headerTooLong (skip : Nat)
  | tooFewBytes (wanted left : Nat)
  deriving DecidableEq, Repr

namespace Image

/-- One segment of code. -/
def raw (base : Word) (bytes : ByteArray) : Image :=
  ⟨[⟨"text", base, bytes, "r-x"⟩]⟩

def byte? (image : Image) (address : Word) : Option UInt8 :=
  (image.segments.find? (·.contains address)).bind (·.byte? address)

/-- The four bytes from an address on, if all of them are mapped, least significant first. -/
def word? (image : Image) (address : Word) : Option Word := do
  let b0 ← image.byte? address
  let b1 ← image.byte? (address + 1)
  let b2 ← image.byte? (address + 2)
  let b3 ← image.byte? (address + 3)
  return BitVec.ofNat 32 (LittleEndian.combine [b0, b1, b2, b3])

theorem word?_eq_some {image : Image} {a w : Word} :
    image.word? a = some w ↔
      ∃ b0 b1 b2 b3, image.byte? a = some b0 ∧ image.byte? (a + 1) = some b1 ∧
        image.byte? (a + 2) = some b2 ∧ image.byte? (a + 3) = some b3 ∧
        BitVec.ofNat 32 (LittleEndian.combine [b0, b1, b2, b3]) = w := by
  unfold word?
  simp only [Option.bind_eq_bind, Option.bind_eq_some_iff, Option.pure_def, Option.some.injEq]
  constructor
  · rintro ⟨b0, h0, b1, h1, b2, h2, b3, h3, hw⟩
    exact ⟨b0, b1, b2, b3, h0, h1, h2, h3, hw⟩
  · rintro ⟨b0, b1, b2, b3, h0, h1, h2, h3, hw⟩
    exact ⟨b0, h0, b1, h1, b2, h2, b3, h3, hw⟩

/-- The last address is never mapped. -/
theorem toNat_lt_of_byte? {image : Image} {a : Word} {b : UInt8} (h : image.byte? a = some b) :
    a.toNat < 0xFFFFFFFF := by
  obtain ⟨s, hs, -⟩ := Option.bind_eq_some_iff.1 h
  exact Segment.toNat_lt_of_contains (List.find?_some (p := fun s : Segment => s.contains a) hs)

/-- Behind a word that is mapped the addresses go on. -/
theorem toNat_next_of_word? {image : Image} {a w : Word} (h : image.word? a = some w) :
    (a + 4).toNat = a.toNat + 4 := by
  obtain ⟨b0, b1, b2, b3, h0, h1, h2, h3, -⟩ := word?_eq_some.1 h
  have ha := toNat_lt_of_byte? h0
  have ha1 := toNat_lt_of_byte? h1
  have ha2 := toNat_lt_of_byte? h2
  have ha3 := toNat_lt_of_byte? h3
  -- one of the next three addresses is the last one if four more do not fit
  bv_omega

/-- Map the content of a file behind a header of `skip` bytes, and of it at most `length` bytes. -/
def ofFile (content : ByteArray) (base : Word) (skip : Nat) (length : Option Nat) :
    Except LoadError Image :=
  if content.size < skip then .error (.headerTooLong skip)
  else match length with
    | none => .ok (raw base (content.extract skip content.size))
    | some length =>
      if content.size - skip < length then .error (.tooFewBytes length (content.size - skip))
      else .ok (raw base (content.extract skip (skip + length)))

end Image

end LegMachine
