import HeaderChain.Proofs.Targets
import Mathlib.Algebra.Order.Floor.Semifield
import Mathlib.Data.Nat.Bitwise
import Mathlib.Data.Rat.Floor

/-!
# The targets that compact bits stand for

The bits of a header stand for a rational number: the mantissa with its point moved by whole bytes.
They are usable just when they have no sign and the whole part of that number lies between one and
`2 ^ 256`. A usable target gives work, more of it the lower the target is, so that every header
that is read adds to the work of its chain.
-/

namespace HeaderChain

namespace Target

variable {bits bits' : UInt32} {target target' size m work work' : ℕ}

/-- The number that the bits stand for, apart from their sign. -/
def magnitude (bits : UInt32) : ℚ :=
  (bits &&& 0x7fffff).toNat * 256 ^ (((bits >>> 24).toNat : ℤ) - 3)

/-- The bits have no sign, and the whole part of their number is a target of 256 bits. -/
structure Expands (bits : UInt32) (target : ℕ) : Prop where
  unsigned : bits &&& 0x800000 = 0
  whole : target = ⌊magnitude bits⌋₊
  pos : 1 ≤ target
  lt : target < 2 ^ 256

/-! ## The parts of the bits -/

theorem size_eq (bits : UInt32) : Target.size bits = (bits >>> 24).toNat := by
  rw [UInt32.toNat_shiftRight]
  rfl

theorem mantissa_eq (bits : UInt32) : mantissa bits = (bits &&& 0x7fffff).toNat := by
  rw [UInt32.toNat_and]
  exact (Nat.and_two_pow_sub_one_eq_mod bits.toNat 23).symm

theorem mantissa_lt (bits : UInt32) : mantissa bits < 2 ^ 23 := Nat.mod_lt _ (by decide)

theorem isNegative_eq_false_iff : isNegative bits = false ↔ bits &&& 0x800000 = 0 := by
  rw [← UInt32.toNat_inj, UInt32.toNat_and]
  change bits.toNat.testBit 23 = false ↔ bits.toNat &&& 2 ^ 23 = 0
  rw [Nat.and_two_pow]
  cases bits.toNat.testBit 23 <;> simp

/-! ## Moving the mantissa -/

theorem scaled_zero (size : ℕ) : scaled size 0 = 0 := by simp [scaled]

/-- Dropping the places below the point takes the whole part. -/
theorem scaled_eq_floor (size m : ℕ) : scaled size m = ⌊(m : ℚ) * 256 ^ ((size : ℤ) - 3)⌋₊ := by
  unfold scaled
  split_ifs with hsmall
  · have hexponent : (size : ℤ) - 3 = -((3 - size : ℕ) : ℤ) := by omega
    rw [hexponent, zpow_neg, zpow_natCast, ← div_eq_mul_inv, Nat.shiftRight_eq_div_pow, pow_mul]
    exact_mod_cast (Nat.floor_div_eq_div (K := ℚ) m (256 ^ (3 - size))).symm
  · have hexponent : (size : ℤ) - 3 = ((size - 3 : ℕ) : ℤ) := by omega
    rw [hexponent, zpow_natCast, Nat.shiftLeft_eq, pow_mul]
    exact_mod_cast (Nat.floor_natCast (R := ℚ) (m * 256 ^ (size - 3))).symm

theorem le_shiftLeft (width : ℕ) {shift : ℕ} (hm : 2 ^ width ≤ m) (h : 256 ≤ shift + width) :
    2 ^ 256 ≤ m <<< shift := by
  calc 2 ^ 256 ≤ 2 ^ (shift + width) := Nat.pow_le_pow_right (by decide) h
    _ = 2 ^ width * 2 ^ shift := by rw [Nat.add_comm, pow_add]
    _ ≤ m * 2 ^ shift := Nat.mul_le_mul_right _ hm
    _ = m <<< shift := (Nat.shiftLeft_eq m shift).symm

/-- A nonzero mantissa that is moved too far gets to `2 ^ 256` or beyond. -/
theorem le_scaled (hm : m ≠ 0) (h : overflows size m = true) : 2 ^ 256 ≤ scaled size m := by
  simp only [overflows, Bool.or_eq_true, Bool.and_eq_true, decide_eq_true_eq] at h
  have hlarge : ¬ size ≤ 3 := by omega
  rw [scaled, if_neg hlarge]
  obtain (h34 | ⟨hbyte, h33⟩) | ⟨hword, h32⟩ := h
  · exact le_shiftLeft 0 (by omega) (by omega)
  · exact le_shiftLeft 8 (by omega) (by omega)
  · exact le_shiftLeft 16 (by omega) (by omega)

theorem overflows_eq_false_iff (hm : m ≠ 0) (hlt : m < 2 ^ 23) :
    overflows size m = false ↔ scaled size m < 2 ^ 256 := by
  constructor
  · exact scaled_lt hlt
  · intro h
    by_contra hover
    rw [Bool.not_eq_false] at hover
    exact absurd (le_scaled hm hover) (not_le.mpr h)

/-! ## Usable targets -/

theorem ofBits_eq_some_iff_scaled : ofBits bits = some target ↔ isNegative bits = false ∧
    target = scaled (Target.size bits) (mantissa bits) ∧ 1 ≤ target ∧ target < 2 ^ 256 := by
  by_cases hm : mantissa bits = 0
  · simp only [ofBits, hm, scaled_zero]
    constructor
    · intro h
      simp at h
    · rintro ⟨-, rfl, hpos, -⟩
      omega
  · have hover : overflows (Target.size bits) (mantissa bits) = false ↔
        scaled (Target.size bits) (mantissa bits) < 2 ^ 256 :=
      overflows_eq_false_iff hm (mantissa_lt bits)
    unfold ofBits
    dsimp only
    constructor
    · intro h
      split_ifs at h with hinvalid hzero
      cases h
      rw [not_and_or, not_or, Bool.not_eq_true, Bool.not_eq_true] at hinvalid
      obtain ⟨hsign, hfits⟩ := hinvalid.resolve_left (not_not.mpr hm)
      exact ⟨hsign, rfl, Nat.one_le_iff_ne_zero.mpr hzero, hover.mp hfits⟩
    · rintro ⟨hsign, rfl, hpos, hlt⟩
      rw [if_neg, if_neg (Nat.one_le_iff_ne_zero.mp hpos)]
      simp [hsign, hover.mpr hlt]

theorem ofBits_eq_some_iff : ofBits bits = some target ↔ Expands bits target := by
  rw [ofBits_eq_some_iff_scaled, isNegative_eq_false_iff, scaled_eq_floor, mantissa_eq, size_eq]
  constructor
  · rintro ⟨hsign, hwhole, hpos, hlt⟩
    exact ⟨hsign, hwhole, hpos, hlt⟩
  · intro h
    exact ⟨h.unsigned, h.whole, h.pos, h.lt⟩

theorem ofBits_eq_none_iff : ofBits bits = none ↔ ∀ target, ¬ Expands bits target := by
  rw [Option.eq_none_iff_forall_ne_some]
  exact forall_congr' fun target => not_congr ofBits_eq_some_iff

/-- With a size of 34, a mantissa may only be a byte. -/
example : Target.ofBits 0x220000ff = some (0xff <<< 248) ∧ Target.ofBits 0x22000100 = none := by
  decide

/-! ## Work -/

theorem work_eq (target : ℕ) : Target.work target = 2 ^ 256 / (target + 1) := by
  rw [Target.work, Nat.shiftLeft_eq, one_mul]

theorem work_le (hpos : 1 ≤ target) : Target.work target ≤ 2 ^ 255 := by
  rw [work_eq]
  calc 2 ^ 256 / (target + 1) ≤ 2 ^ 256 / 2 := Nat.div_le_div_left (by omega) (by decide)
    _ = 2 ^ 255 := by norm_num

theorem work_antitone (h : target ≤ target') : Target.work target' ≤ Target.work target := by
  rw [work_eq, work_eq]
  exact Nat.div_le_div_left (by omega) (by omega)

theorem workOfBits_eq_some_iff : workOfBits bits = some work ↔
    ∃ target, Expands bits target ∧ work = 2 ^ 256 / (target + 1) := by
  rw [workOfBits, Option.map_eq_some_iff]
  refine exists_congr fun target => and_congr ofBits_eq_some_iff ?_
  rw [work_eq, eq_comm]

theorem workOfBits_of_expands (h : Expands bits target) :
    workOfBits bits = some (Target.work target) := by
  rw [workOfBits, ofBits_eq_some_iff.mpr h, Option.map_some]

end Target

/-! ## Headers that are read -/

namespace Header

variable {raw : RawHeader} {bytes : Bytes} {h : Header}

theorem ofRaw_ok_iff : (∃ h, ofRaw raw = .ok h) ↔ ∃ target, Target.Expands raw.bits target := by
  simp only [ofRaw, Target.workOfBits, ← Target.ofBits_eq_some_iff]
  cases Target.ofBits raw.bits <;> simp

theorem decode_ok_iff : (∃ h, decode bytes = .ok h) ↔ bytes.length = 80 ∧
    ∃ target, Target.Expands (RawHeader.ofWordBytes ((bytes.drop 72).take 4)) target := by
  unfold decode RawHeader.decode
  split_ifs with hlen
  · simp only [hlen, true_and]
    exact ofRaw_ok_iff
  · simp [hlen]

theorem Usable.lt_inheritWork (hu : h.Usable) (parentWork : ℕ) :
    parentWork < (h.inheritWork parentWork).work :=
  Nat.lt_add_of_pos_right hu.work_pos

/-- Bits are expanded just as they are defined, usable ones give between one and `2 ^ 255` of work,
which falls as the target grows, and every header that is read adds work to that of its parent. -/
theorem targets_exact :
    (∀ bits target, Target.ofBits bits = some target ↔ Target.Expands bits target) ∧
    (∀ bits, Target.ofBits bits = none ↔ ∀ target, ¬ Target.Expands bits target) ∧
    (∀ bits work, Target.workOfBits bits = some work ↔
      ∃ target, Target.Expands bits target ∧ work = 2 ^ 256 / (target + 1)) ∧
    (∀ bits work, Target.workOfBits bits = some work → 1 ≤ work ∧ work ≤ 2 ^ 255) ∧
    (∀ bits bits' target target', Target.Expands bits target → Target.Expands bits' target' →
      target ≤ target' → ∃ work work', Target.workOfBits bits = some work ∧
        Target.workOfBits bits' = some work' ∧ work' ≤ work) ∧
    (∀ bytes, (∃ h, decode bytes = .ok h) ↔ bytes.length = 80 ∧
      ∃ target, Target.Expands (RawHeader.ofWordBytes ((bytes.drop 72).take 4)) target) ∧
    ∀ bytes h parentWork, decode bytes = .ok h → parentWork < (h.inheritWork parentWork).work := by
  refine ⟨fun _ _ => Target.ofBits_eq_some_iff, fun _ => Target.ofBits_eq_none_iff,
    fun _ _ => Target.workOfBits_eq_some_iff, ?_, ?_, fun _ => decode_ok_iff, ?_⟩
  · intro bits work hwork
    obtain ⟨target, hexpands, rfl⟩ := Target.workOfBits_eq_some_iff.mp hwork
    refine ⟨Target.workOfBits_pos hwork, ?_⟩
    rw [← Target.work_eq]
    exact Target.work_le hexpands.pos
  · intro bits bits' target target' h h' hle
    exact ⟨_, _, Target.workOfBits_of_expands h, Target.workOfBits_of_expands h',
      Target.work_antitone hle⟩
  · intro bytes h parentWork hdecode
    exact (usable_of_decode hdecode).lt_inheritWork parentWork

end Header

end HeaderChain
