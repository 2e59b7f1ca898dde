/-!
# Byte strings and fixed-width integers

A byte string is a list of bytes. `littleEndian w n` writes the low `w` bytes of a natural
number, least significant first, and `toNat` reads any byte string back in that order;
`bigEndian` is the reversed form. Signed numbers are written in two's complement. The laws
below say that reading undoes writing up to the width, and that writing undoes reading.
-/

namespace HeaderChain

abbrev Bytes := List UInt8

namespace Bytes

/-- The `w` low bytes of `n`, least significant first. -/
def littleEndian : (w n : Nat) → Bytes
  | 0, _ => []
  | w + 1, n => UInt8.ofNat n :: littleEndian w (n / 256)

/-- The number whose bytes these are, least significant first. -/
def toNat : Bytes → Nat
  | [] => 0
  | b :: rest => b.toNat + 256 * toNat rest

/-- The `w` low bytes of `n`, most significant first. -/
def bigEndian (w n : Nat) : Bytes := (littleEndian w n).reverse

/-- How many numbers `w` bytes can hold. -/
def capacity : (w : Nat) → Nat
  | 0 => 1
  | w + 1 => 256 * capacity w

/-- The two's complement residue of `z` in `w` bytes. -/
def residue (w : Nat) (z : Int) : Nat := (z % capacity w).toNat

/-- The signed number that a residue in `w` bytes stands for. -/
def signed (w n : Nat) : Int := (n : Int).bmod (capacity w)

/-- The first `n` bytes and the rest, when there are that many. -/
def split? (n : Nat) (bytes : Bytes) : Option (Bytes × Bytes) :=
  let front := bytes.take n
  if front.length = n then some (front, bytes.drop n) else none

@[simp] theorem littleEndian_zero (n : Nat) : littleEndian 0 n = [] := rfl

theorem littleEndian_succ (w n : Nat) :
    littleEndian (w + 1) n = UInt8.ofNat n :: littleEndian w (n / 256) := rfl

@[simp] theorem toNat_nil : toNat [] = 0 := rfl

@[simp] theorem toNat_cons (b : UInt8) (rest : Bytes) :
    toNat (b :: rest) = b.toNat + 256 * toNat rest := rfl

@[simp] theorem length_littleEndian (w n : Nat) : (littleEndian w n).length = w := by
  induction w generalizing n with
  | zero => rfl
  | succ w ih => simp [littleEndian_succ, ih]

@[simp] theorem length_bigEndian (w n : Nat) : (bigEndian w n).length = w := by
  simp [bigEndian]

@[simp] theorem capacity_zero : capacity 0 = 1 := rfl

theorem capacity_succ (w : Nat) : capacity (w + 1) = 256 * capacity w := rfl

theorem capacity_pos (w : Nat) : 0 < capacity w := by
  induction w with
  | zero => exact Nat.one_pos
  | succ w ih =>
    rw [capacity_succ]
    omega

theorem toNat_lt (bytes : Bytes) : toNat bytes < capacity bytes.length := by
  induction bytes with
  | nil => simp
  | cons b rest ih =>
    have hb := b.toNat_lt
    rw [toNat_cons, List.length_cons, capacity_succ]
    omega

theorem toNat_littleEndian (w n : Nat) : toNat (littleEndian w n) = n % capacity w := by
  induction w generalizing n with
  | zero => simp [Nat.mod_one]
  | succ w ih =>
    have hb : (UInt8.ofNat n).toNat = n % 256 := by simp
    rw [littleEndian_succ, toNat_cons, ih, hb, capacity_succ, Nat.mod_mul]

theorem toNat_littleEndian_of_lt {w n : Nat} (h : n < capacity w) :
    toNat (littleEndian w n) = n := by
  rw [toNat_littleEndian, Nat.mod_eq_of_lt h]

theorem littleEndian_toNat (bytes : Bytes) : littleEndian bytes.length (toNat bytes) = bytes := by
  induction bytes with
  | nil => rfl
  | cons b rest ih =>
    have hb := b.toNat_lt
    have hdiv : (b.toNat + 256 * toNat rest) / 256 = toNat rest := by omega
    have hmod : UInt8.ofNat (b.toNat + 256 * toNat rest) = b := by
      apply UInt8.toNat_inj.mp
      simp
    rw [List.length_cons, toNat_cons, littleEndian_succ, hdiv, hmod, ih]

theorem residue_lt (w : Nat) (z : Int) : residue w z < capacity w := by
  have hpos : (0 : Int) < capacity w := by exact_mod_cast capacity_pos w
  have hlt := Int.emod_lt_of_pos z hpos
  have hnn := Int.emod_nonneg z (Int.ne_of_gt hpos)
  unfold residue
  omega

theorem signed_residue {w : Nat} {z : Int} (hlo : -(capacity w : Int) ≤ 2 * z)
    (hhi : 2 * z < capacity w) : signed w (residue w z) = z := by
  have hpos : (0 : Int) < capacity w := by exact_mod_cast capacity_pos w
  have hnn := Int.emod_nonneg z (Int.ne_of_gt hpos)
  unfold signed residue
  rw [Int.toNat_of_nonneg hnn, Int.emod_bmod]
  exact Int.bmod_eq_of_le_mul_two (by omega) (by omega)

theorem split?_eq_some {n : Nat} {bytes front rest : Bytes}
    (h : split? n bytes = some (front, rest)) : bytes = front ++ rest ∧ front.length = n := by
  simp only [split?, Option.ite_none_right_eq_some, Option.some.injEq, Prod.mk.injEq] at h
  obtain ⟨hlen, rfl, rfl⟩ := h
  exact ⟨(List.take_append_drop n bytes).symm, hlen⟩

theorem split?_eq_none_iff {n : Nat} {bytes : Bytes} :
    split? n bytes = none ↔ bytes.length < n := by
  simp only [split?, List.length_take, ite_eq_right_iff, reduceCtorEq, imp_false]
  omega

@[simp] theorem split?_append (front rest : Bytes) :
    split? front.length (front ++ rest) = some (front, rest) := by
  simp [split?]

end Bytes

end HeaderChain
