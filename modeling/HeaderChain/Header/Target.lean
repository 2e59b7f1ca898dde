/-!
# Compact targets and work

The `bits` of a header hold a target in a floating form: a size of eight bits, a sign bit, and a
mantissa of 23 bits, standing for `mantissa * 256 ^ (size - 3)`. A target that is negative, zero
or at least `2 ^ 256` is unusable. The work of a header is the expected number of hashes that
meet its target.
-/

namespace HeaderChain.Target

def size (bits : UInt32) : Nat := bits.toNat >>> 24

def isNegative (bits : UInt32) : Bool := bits.toNat.testBit 23

def mantissa (bits : UInt32) : Nat := bits.toNat % 0x800000

/-- Whether a nonzero mantissa is moved beyond 256 bits. -/
def overflows (size mantissa : Nat) : Bool :=
  size > 34 || (mantissa > 0xff && size > 33) || (mantissa > 0xffff && size > 32)

/-- The mantissa in the place that the size gives it; places below the point are dropped. -/
def scaled (size mantissa : Nat) : Nat :=
  if size ≤ 3 then mantissa >>> (8 * (3 - size)) else mantissa <<< (8 * (size - 3))

/-- The target that the bits stand for, when it is usable. -/
def ofBits (bits : UInt32) : Option Nat :=
  let m := mantissa bits
  if m ≠ 0 ∧ (isNegative bits ∨ overflows (size bits) m) then none
  else
    let target := scaled (size bits) m
    if target = 0 then none else some target

/-- The expected number of hashes to meet a target. -/
def work (target : Nat) : Nat := (1 <<< 256) / (target + 1)

def workOfBits (bits : UInt32) : Option Nat := (ofBits bits).map work

theorem ofBits_pos {bits : UInt32} {target : Nat} (h : ofBits bits = some target) : 0 < target := by
  unfold ofBits at h
  dsimp only at h
  split at h
  · cases h
  · split at h
    · cases h
    · next hne => cases h; omega

end HeaderChain.Target
