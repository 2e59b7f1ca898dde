import HeaderChain.Proofs.Route

/-!
# Usable targets have work

A usable target is below `2 ^ 256`, so that at least one hash is expected to meet it. Headers that
are decoded or made from raw fields have a usable target.
-/

namespace HeaderChain

namespace Target

variable {bits : UInt32} {target size m : ℕ}

theorem shiftLeft_lt (width : ℕ) {shift : ℕ} (hm : m < 2 ^ width) (h : shift + width ≤ 256) :
    m <<< shift < 2 ^ 256 := by
  calc m <<< shift = m * 2 ^ shift := Nat.shiftLeft_eq m shift
    _ < 2 ^ width * 2 ^ shift := Nat.mul_lt_mul_of_pos_right hm (Nat.two_pow_pos shift)
    _ = 2 ^ (shift + width) := by rw [Nat.add_comm, pow_add]
    _ ≤ 2 ^ 256 := Nat.pow_le_pow_right (by decide) h

/-- A mantissa that is not moved too far stays below `2 ^ 256`. -/
theorem scaled_lt (hm : m < 2 ^ 23) (h : overflows size m = false) : scaled size m < 2 ^ 256 := by
  simp only [overflows, Bool.or_eq_false_iff, Bool.and_eq_false_iff, decide_eq_false_iff_not,
    not_lt] at h
  unfold scaled
  split_ifs with hsmall
  · rw [Nat.shiftRight_eq_div_pow]
    exact (Nat.div_le_self _ _).trans_lt (hm.trans (by decide))
  · by_cases h32 : size ≤ 32
    · exact shiftLeft_lt 23 hm (by omega)
    · by_cases h33 : size ≤ 33
      · exact shiftLeft_lt 16 (by omega) (by omega)
      · exact shiftLeft_lt 8 (by omega) (by omega)

theorem ofBits_lt (h : ofBits bits = some target) : target < 2 ^ 256 := by
  unfold ofBits at h
  dsimp only at h
  split_ifs at h with hinvalid hzero
  cases h
  have hm : mantissa bits < 2 ^ 23 := Nat.mod_lt _ (by decide)
  by_cases hmantissa : mantissa bits = 0
  · rw [hmantissa]
    unfold scaled
    split_ifs <;> simp
  · refine scaled_lt hm ?_
    by_contra hover
    rw [Bool.not_eq_false] at hover
    exact hinvalid ⟨hmantissa, .inr hover⟩

theorem work_pos (h : target < 2 ^ 256) : 0 < work target :=
  Nat.div_pos (by rw [Nat.shiftLeft_eq]; omega) (by omega)

theorem workOfBits_pos {work : ℕ} (h : workOfBits bits = some work) : 0 < work := by
  obtain ⟨target, htarget, rfl⟩ := Option.map_eq_some_iff.mp h
  exact work_pos (ofBits_lt htarget)

end Target

def Header.Usable (h : Header) : Prop := (Target.workOfBits h.raw.bits).isSome = true

instance (h : Header) : Decidable h.Usable := inferInstanceAs (Decidable (_ = true))

variable {h : Header} {raw : RawHeader}

theorem Header.usable_of_ofRaw (hraw : Header.ofRaw raw = .ok h) : h.Usable := by
  unfold Header.ofRaw at hraw
  cases hwork : Target.workOfBits raw.bits with
  | none => simp [hwork] at hraw
  | some work =>
    simp only [hwork, Except.ok.injEq] at hraw
    subst hraw
    exact Option.isSome_of_eq_some hwork

theorem Header.usable_of_decode {bytes : Bytes} (hdecode : Header.decode bytes = .ok h) :
    h.Usable := by
  unfold Header.decode at hdecode
  cases hraw : RawHeader.decode bytes with
  | error cause => simp [hraw] at hdecode
  | ok raw =>
    rw [hraw] at hdecode
    exact usable_of_ofRaw hdecode

theorem Header.Usable.work_pos (hu : h.Usable) : 0 < h.link.work := by
  obtain ⟨work, hwork⟩ := Option.isSome_iff_exists.mp hu
  unfold Link.work
  change 0 < (Target.workOfBits h.raw.bits).getD 0
  rw [hwork]
  exact Target.workOfBits_pos hwork

theorem Network.usable_genesis (n : Network) : n.genesis.Usable := by
  cases n <;> decide +kernel

end HeaderChain
