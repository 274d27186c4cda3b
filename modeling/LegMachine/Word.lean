/-!
# Words and bytes

A word is 32 bits. Its signed reading is `BitVec.toInt`, its unsigned one `BitVec.toNat`. Several
bytes make a number with the least significant byte first; `split` and `combine` say how, for every
width.
-/

namespace LegMachine

-- Powers and the equality of bytes are the core library's, also where others are imported.
scoped instance (priority := high) corePow {α : Type} [NatPow α] : Pow α Nat := instPowNat

scoped instance (priority := high) coreDecidableEq : DecidableEq ByteArray :=
  ByteArray.instDecidableEq

abbrev Word := BitVec 32

/-- The low `width` bits of `w`, read as a signed number. -/
def signExtendLow (width : Nat) (w : Word) : Word :=
  (w.setWidth width).signExtend 32

/-- The low 16 bits of `w`, read as an unsigned number. -/
def lowHalf (w : Word) : Word :=
  w &&& 0xFFFF

namespace LittleEndian

/-- The low `n` bytes of `v`, least significant first. -/
def split : Nat → Nat → List UInt8
  | 0, _ => []
  | n + 1, v => UInt8.ofNat v :: split n (v / 256)

/-- The number that the bytes make, least significant first. -/
def combine : List UInt8 → Nat
  | [] => 0
  | b :: bs => b.toNat + 256 * combine bs

@[simp] theorem length_split (n v : Nat) : (split n v).length = n := by
  induction n generalizing v with
  | zero => rfl
  | succ n ih => simp [split, ih]

theorem combine_split (n v : Nat) : combine (split n v) = v % 256 ^ n := by
  induction n generalizing v with
  | zero => simp [split, combine, Nat.mod_one]
  | succ n ih =>
    have hv : v % 256 ^ (n + 1) = v % 256 + 256 * (v / 256 % 256 ^ n) := by
      rw [Nat.pow_succ', Nat.mod_mul]
    rw [split, combine, ih, hv, UInt8.toNat_ofNat']

end LittleEndian

end LegMachine
