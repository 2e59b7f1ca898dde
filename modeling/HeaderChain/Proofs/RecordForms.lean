import HeaderChain.Proofs.Recognizing
import HeaderChain.Store.Record

/-!
# What is read as a record

A reader is described by an equation: it succeeds on just the forms of a value, and leaves what
follows them. For numbers of fixed width the form is what is written. Digits in base `2 ^ 32` with
the least significant one first are the bytes of the number in the same order, so there is one form
for each count of digits that holds it, and the forms differ in the zero digits at the high end.
A record is thus read back as it was written, and whatever is read comes from the record that would
be written, with zero digits in the work and bytes at the end that are not needed.
-/

namespace HeaderChain

/-! ## Bytes of numbers -/

namespace Bytes

variable {v w n : ℕ}

theorem capacity_eq_pow (w : ℕ) : capacity w = 2 ^ (8 * w) := by
  induction w with
  | zero => rfl
  | succ w ih =>
    rw [capacity_succ, ih, Nat.mul_succ, Nat.pow_add]
    omega

theorem capacity_add (v w : ℕ) : capacity (v + w) = capacity v * capacity w := by
  rw [capacity_eq_pow, capacity_eq_pow, capacity_eq_pow, Nat.mul_add, Nat.pow_add]

theorem littleEndian_zero_right (w : ℕ) : littleEndian w 0 = List.replicate w 0 := by
  induction w with
  | zero => rfl
  | succ w ih =>
    rw [littleEndian_succ, Nat.zero_div, ih]
    rfl

theorem littleEndian_mod (w n : ℕ) : littleEndian w (n % capacity w) = littleEndian w n := by
  have h := littleEndian_toNat (littleEndian w n)
  rwa [length_littleEndian, toNat_littleEndian] at h

/-- The low bytes of a number are followed by the bytes of what is above them. -/
theorem littleEndian_add (v w n : ℕ) : littleEndian (v + w) n =
    littleEndian v (n % capacity v) ++ littleEndian w (n / capacity v) := by
  rw [littleEndian_mod]
  induction v generalizing n with
  | zero => rw [Nat.zero_add, capacity_zero, Nat.div_one, littleEndian_zero, List.nil_append]
  | succ v ih =>
    rw [Nat.succ_add, littleEndian_succ, littleEndian_succ, ih, Nat.div_div_eq_div_mul,
      capacity_succ, List.cons_append]

theorem littleEndian_add_of_lt (h : n < capacity v) (w : ℕ) :
    littleEndian (v + w) n = littleEndian v n ++ List.replicate w 0 := by
  rw [littleEndian_add, Nat.mod_eq_of_lt h, Nat.div_eq_of_lt h, littleEndian_zero_right]

end Bytes

/-! ## What can be stored -/

def Height.Fits (height : Height) : Prop := -2 ^ 63 ≤ height ∧ height ≤ Height.greatest

/-- A header that its record gives back. -/
structure Header.Storable (h : Header) : Prop where
  height : h.height.Fits
  work : (Record.workDigits h.work).length < Bytes.capacity 8

variable {height : Height} {h : Header} {p : Position} {x : Hash} {standing : Standing}
  {bytes rest front : Bytes} {n w count zeros : ℕ}

theorem Height.Fits.of_nonneg (h₀ : 0 ≤ height) (h₁ : height ≤ greatest) : height.Fits := by
  constructor
  · lia
  · exact h₁

theorem Height.fits_blank : blank.Fits := by
  constructor <;> decide

theorem Height.fits_signed (n : ℕ) : Fits (Bytes.signed 8 n) := by
  have hcapacity : (Bytes.capacity 8 : ℤ) = 2 ^ 64 := by norm_num [Bytes.capacity]
  have hlo := Int.le_bmod (x := n) (m := Bytes.capacity 8) (Bytes.capacity_pos 8)
  have hhi := Int.bmod_lt (x := n) (m := Bytes.capacity 8) (Bytes.capacity_pos 8)
  rw [hcapacity] at hlo hhi
  unfold Fits greatest Bytes.signed
  lia

theorem signed_residue_of_fits (hf : height.Fits) :
    Bytes.signed 8 (Bytes.residue 8 height) = height := by
  obtain ⟨hlo, hhi⟩ := hf
  unfold Height.greatest at hhi
  apply Bytes.signed_residue
  · norm_num [Bytes.capacity]
    lia
  · norm_num [Bytes.capacity]
    lia

theorem residue_signed (hn : n < Bytes.capacity 8) : Bytes.residue 8 (Bytes.signed 8 n) = n := by
  have hpos := Bytes.capacity_pos 8
  unfold Bytes.residue Bytes.signed
  rw [Int.bmod_emod, ← Int.natCast_mod, Int.toNat_natCast, Nat.mod_eq_of_lt hn]

namespace Record

/-! ## Digits -/

/-- Work with zero digits above those that it has. -/
def paddedWork (n zeros : ℕ) : Bytes :=
  let digits := workDigits n ++ List.replicate zeros 0
  Bytes.littleEndian 8 digits.length ++ digits.flatMap (Bytes.littleEndian 4)

theorem capacity_digits_succ (m : ℕ) :
    Bytes.capacity (4 * (m + 1)) = 0x100000000 * Bytes.capacity (4 * m) := by
  rw [Nat.mul_succ, Nat.add_comm, Bytes.capacity_add]
  rfl

/-- The bytes of a number start with those of its lowest digit. -/
theorem littleEndian_digits_succ (m n : ℕ) : Bytes.littleEndian (4 * (m + 1)) n =
    Bytes.littleEndian 4 (n % 0x100000000) ++ Bytes.littleEndian (4 * m) (n / 0x100000000) := by
  rw [Nat.mul_succ, Nat.add_comm, Bytes.littleEndian_add]
  rfl

/-- A count of digits is enough for a number just when their bytes hold it. -/
theorem length_workDigits_le_iff {m : ℕ} :
    (workDigits n).length ≤ m ↔ n < Bytes.capacity (4 * m) := by
  induction m generalizing n with
  | zero =>
    rw [workDigits]
    split_ifs with hn
    · simp [hn]
    · simp [hn]
  | succ m ih =>
    rw [workDigits]
    split_ifs with hn
    · simp [hn, Bytes.capacity_pos]
    · rw [List.length_cons, Nat.succ_le_succ_iff, ih, capacity_digits_succ,
        Nat.div_lt_iff_lt_mul (by decide), Nat.mul_comm]

theorem flatMap_workDigits (n : ℕ) : (workDigits n).flatMap (Bytes.littleEndian 4) =
    Bytes.littleEndian (4 * (workDigits n).length) n := by
  induction n using workDigits.induct with
  | case1 => simp [workDigits]
  | case2 n hn ih =>
    rw [workDigits, if_neg hn, List.flatMap_cons, ih, List.length_cons, littleEndian_digits_succ]

theorem flatMap_zeros (zeros : ℕ) : (List.replicate zeros 0).flatMap (Bytes.littleEndian 4) =
    List.replicate (4 * zeros) 0 := by
  induction zeros with
  | zero => rfl
  | succ zeros ih =>
    rw [List.replicate_succ, List.flatMap_cons, ih, Nat.mul_succ, Nat.add_comm,
      List.replicate_add]
    rfl

theorem paddedWork_eq (n zeros : ℕ) : paddedWork n zeros =
    Bytes.littleEndian 8 ((workDigits n).length + zeros) ++
      Bytes.littleEndian (4 * ((workDigits n).length + zeros)) n := by
  have hn : n < Bytes.capacity (4 * (workDigits n).length) := length_workDigits_le_iff.mp le_rfl
  simp only [paddedWork, List.length_append, List.length_replicate]
  rw [List.flatMap_append, flatMap_workDigits, flatMap_zeros, Nat.mul_add,
    Bytes.littleEndian_add_of_lt hn]

theorem paddedWork_zero (n : ℕ) : paddedWork n 0 = writeWork n := by
  simp [paddedWork, writeWork]

theorem length_paddedWork (n zeros : ℕ) :
    (paddedWork n zeros).length = (writeWork n).length + 4 * zeros := by
  simp only [← paddedWork_zero, paddedWork_eq, List.length_append, Bytes.length_littleEndian]
  lia

/-! ## Readers -/

section Readers

variable {α β : Type} {read : Reader α} {next : α → Reader β} {a : α} {b : β}

theorem pure_eq_ok {c : α} : (pure c : Reader α) bytes = .ok (a, rest) ↔ c = a ∧ bytes = rest := by
  change Except.ok (c, bytes) = _ ↔ _
  rw [Except.ok.injEq, Prod.mk.injEq]

theorem bind_eq_ok : (read >>= next) bytes = .ok (b, rest) ↔
    ∃ a left, read bytes = .ok (a, left) ∧ next a left = .ok (b, rest) := by
  change (read bytes >>= fun s => next s.1 s.2) = _ ↔ _
  cases hread : read bytes with
  | error cause => simp [bind, Except.bind]
  | ok s => simp [bind, Except.bind, ← Prod.exists']

theorem map_fst_eq_ok : (read bytes).map Prod.fst = .ok a ↔ ∃ rest, read bytes = .ok (a, rest) := by
  cases read bytes with
  | error cause => simp [Except.map]
  | ok s => simp [Except.map, Prod.ext_iff]

theorem take_eq_ok : take n bytes = .ok (front, rest) ↔
    front.length = n ∧ bytes = front ++ rest := by
  unfold take
  constructor
  · intro h
    split at h
    · cases h
    · rename_i hsplit
      cases h
      exact (Bytes.split?_eq_some hsplit).symm
  · rintro ⟨rfl, rfl⟩
    rw [Bytes.split?_append]

theorem readNat_eq_ok : readNat w bytes = .ok (n, rest) ↔
    n < Bytes.capacity w ∧ bytes = Bytes.littleEndian w n ++ rest := by
  simp only [readNat, bind_eq_ok, take_eq_ok, pure_eq_ok]
  constructor
  · rintro ⟨front, left, ⟨rfl, rfl⟩, rfl, rfl⟩
    exact ⟨Bytes.toNat_lt front, by rw [Bytes.littleEndian_toNat]⟩
  · rintro ⟨hn, rfl⟩
    exact ⟨_, rest, ⟨Bytes.length_littleEndian w n, rfl⟩, Bytes.toNat_littleEndian_of_lt hn, rfl⟩

theorem readWord_eq_ok {word : UInt32} :
    readWord bytes = .ok (word, rest) ↔ bytes = writeWord word ++ rest := by
  simp only [readWord, bind_eq_ok, readNat_eq_ok, pure_eq_ok]
  constructor
  · rintro ⟨n, left, ⟨hn, rfl⟩, rfl, rfl⟩
    rw [writeWord, UInt32.toNat_ofNat_of_lt' hn]
  · rintro rfl
    exact ⟨_, rest, ⟨word.toNat_lt, rfl⟩, UInt32.ofNat_toNat, rfl⟩

theorem readHash_eq_ok : readHash bytes = .ok (x, rest) ↔ bytes = x.bytes ++ rest := by
  simp only [readHash, bind_eq_ok, take_eq_ok]
  constructor
  · rintro ⟨front, left, ⟨hlen, rfl⟩, h⟩
    cases hy : Hash.ofBytes? front with
    | none =>
      rw [hy] at h
      cases h
    | some y =>
      rw [hy] at h
      obtain ⟨rfl, rfl⟩ := pure_eq_ok.mp h
      rw [Hash.ofBytes?_eq_some.mp hy]
  · rintro rfl
    refine ⟨x.bytes, rest, ⟨x.length_bytes, rfl⟩, ?_⟩
    rw [Hash.ofBytes?_bytes]
    rfl

theorem readHeight_eq_ok : readHeight bytes = .ok (height, rest) ↔
    height.Fits ∧ bytes = writeHeight height ++ rest := by
  simp only [readHeight, bind_eq_ok, readNat_eq_ok, pure_eq_ok]
  constructor
  · rintro ⟨n, left, ⟨hn, rfl⟩, rfl, rfl⟩
    exact ⟨Height.fits_signed n, by rw [writeHeight, residue_signed hn]⟩
  · rintro ⟨hf, rfl⟩
    exact ⟨_, rest, ⟨Bytes.residue_lt 8 height, rfl⟩, signed_residue_of_fits hf, rfl⟩

theorem readDigits_eq_ok : readDigits count bytes = .ok (n, rest) ↔
    n < Bytes.capacity (4 * count) ∧ bytes = Bytes.littleEndian (4 * count) n ++ rest := by
  induction count generalizing bytes n rest with
  | zero =>
    rw [readDigits, pure_eq_ok]
    simp [eq_comm]
  | succ count ih =>
    simp only [readDigits, bind_eq_ok, readNat_eq_ok, ih, pure_eq_ok]
    rw [capacity_digits_succ, littleEndian_digits_succ, List.append_assoc]
    constructor
    · rintro ⟨digit, _, ⟨hdigit, rfl⟩, higher, _, ⟨hhigher, rfl⟩, rfl, rfl⟩
      have hdigit : digit < 0x100000000 := hdigit
      have hmod : (digit + 0x100000000 * higher) % 0x100000000 = digit := by lia
      have hdiv : (digit + 0x100000000 * higher) / 0x100000000 = higher := by lia
      exact ⟨by lia, by rw [hmod, hdiv]⟩
    · rintro ⟨hn, rfl⟩
      have hdigit : n % 0x100000000 < Bytes.capacity 4 := Nat.mod_lt n (by decide)
      exact ⟨_, _, ⟨hdigit, rfl⟩, _, rest, ⟨Nat.div_lt_of_lt_mul hn, rfl⟩, Nat.mod_add_div .., rfl⟩

theorem readWork_eq_ok : readWork bytes = .ok (n, rest) ↔
    ∃ zeros, (workDigits n).length + zeros < Bytes.capacity 8 ∧
      bytes = paddedWork n zeros ++ rest := by
  simp only [readWork, bind_eq_ok, readNat_eq_ok, readDigits_eq_ok, paddedWork_eq]
  constructor
  · rintro ⟨count, _, ⟨hcount, rfl⟩, hn, rfl⟩
    obtain ⟨zeros, rfl⟩ := Nat.exists_eq_add_of_le (length_workDigits_le_iff.mpr hn)
    exact ⟨zeros, hcount, by rw [List.append_assoc]⟩
  · rintro ⟨zeros, hcount, rfl⟩
    refine ⟨_, _, ⟨hcount, List.append_assoc ..⟩, ?_, rfl⟩
    exact length_workDigits_le_iff.mp (Nat.le_add_right _ _)

theorem readStanding_eq_ok : readStanding bytes = .ok (standing, rest) ↔
    bytes = writeStanding standing ++ rest := by
  simp only [readStanding, bind_eq_ok, readNat_eq_ok]
  constructor
  · rintro ⟨number, left, ⟨-, rfl⟩, h⟩
    split at h
    all_goals cases h
    all_goals rfl
  · rintro rfl
    refine ⟨_, rest, ⟨?_, rfl⟩, ?_⟩
    · cases standing <;> decide
    · cases standing <;> rfl

end Readers

end Record

open Record

/-! ## Headers and positions -/

namespace Header

/-- The record of a header with zero digits above those of its work. -/
def paddedRecord (h : Header) (zeros : ℕ) : Bytes :=
  writeWord h.raw.version ++ h.raw.previous.bytes ++ h.raw.merkleRoot.bytes ++
    writeWord h.raw.timestamp ++ writeWord h.raw.bits ++ writeWord h.raw.nonce ++
    h.hash.bytes ++ writeHeight h.height ++ paddedWork h.work zeros ++
    writeStanding h.own ++ writeStanding h.inherited

theorem paddedRecord_zero (h : Header) : h.paddedRecord 0 = h.toRecord := by
  rw [paddedRecord, paddedWork_zero, toRecord]

theorem length_paddedRecord (h : Header) (zeros : ℕ) :
    (h.paddedRecord zeros).length = h.toRecord.length + 4 * zeros := by
  simp only [paddedRecord, toRecord, List.length_append, length_paddedWork]
  lia

/-- What is read as a header is its record with zero digits in the work and bytes after it. -/
theorem ofRecord_eq_ok_iff : ofRecord bytes = .ok h ↔ h.height.Fits ∧
    ∃ zeros rest, (workDigits h.work).length + zeros < Bytes.capacity 8 ∧
      bytes = h.paddedRecord zeros ++ rest := by
  simp only [ofRecord, map_fst_eq_ok, readHeader, paddedRecord, bind_eq_ok, readWord_eq_ok,
    readHash_eq_ok, readHeight_eq_ok, readWork_eq_ok, readStanding_eq_ok, pure_eq_ok,
    List.append_assoc]
  constructor
  · rintro ⟨_, version, _, rfl, previous, _, rfl, merkleRoot, _, rfl, timestamp, _, rfl, bits, _,
      rfl, nonce, _, rfl, hash, _, rfl, height, _, ⟨hheight, rfl⟩, work, _, ⟨zeros, hwork, rfl⟩, own, _,
      rfl, inherited, rest, rfl, rfl, rfl⟩
    exact ⟨hheight, zeros, rest, hwork, rfl⟩
  · rintro ⟨hheight, zeros, rest, hwork, rfl⟩
    exact ⟨rest, _, _, rfl, _, _, rfl, _, _, rfl, _, _, rfl, _, _, rfl, _, _, rfl, _, _, rfl, _, _,
      ⟨hheight, rfl⟩, _, _, ⟨zeros, hwork, rfl⟩, _, _, rfl, _, _, rfl, rfl, rfl⟩

theorem storable_of_ofRecord (hread : ofRecord bytes = .ok h) : h.Storable := by
  obtain ⟨hheight, zeros, _, hwork, -⟩ := ofRecord_eq_ok_iff.mp hread
  exact ⟨hheight, by lia⟩

theorem ofRecord_toRecord (hs : h.Storable) : ofRecord h.toRecord = .ok h := by
  refine ofRecord_eq_ok_iff.mpr ⟨hs.height, 0, [], hs.work, ?_⟩
  rw [paddedRecord_zero, List.append_nil]

/-- No shorter byte string is read as the header. -/
theorem toRecord_shortens (hread : ofRecord bytes = .ok h) :
    Bytes.Shortens h.toRecord bytes := by
  obtain ⟨-, zeros, rest, -, rfl⟩ := ofRecord_eq_ok_iff.mp hread
  cases zeros with
  | zero =>
    rw [paddedRecord_zero]
    cases rest with
    | nil => exact .inl (List.append_nil _).symm
    | cons first rest => exact .inr (by simp)
  | succ zeros =>
    right
    rw [List.length_append, length_paddedRecord]
    lia

end Header

namespace Position

theorem ofRecord_eq_ok_iff : ofRecord bytes = .ok p ↔
    p.height.Fits ∧ ∃ rest, bytes = p.toRecord ++ rest := by
  simp only [ofRecord, map_fst_eq_ok, readPosition, toRecord, bind_eq_ok, readHeight_eq_ok,
    readHash_eq_ok, pure_eq_ok, List.append_assoc]
  constructor
  · rintro ⟨_, height, _, ⟨hheight, rfl⟩, hash, rest, rfl, rfl, rfl⟩
    exact ⟨hheight, rest, rfl⟩
  · rintro ⟨hheight, rest, rfl⟩
    exact ⟨rest, _, _, ⟨hheight, rfl⟩, _, _, rfl, rfl, rfl⟩

theorem ofRecord_toRecord (hf : p.height.Fits) : ofRecord p.toRecord = .ok p :=
  ofRecord_eq_ok_iff.mpr ⟨hf, [], (List.append_nil _).symm⟩

end Position

/-- A header or position of 64-bit heights is read back from its record, whatever else is in it, as
long as a count of 64 bits tells how many digits its work has. A byte string is read as a header
just when it is the record of that header up to zero digits above its work and bytes after the end,
and then the record itself is read as the same header and has fewer bytes, if it is not the same. -/
theorem Header.records_exact (h : Header) (p : Position) (bytes : Bytes) :
    (ofRecord h.toRecord = .ok h ↔ h.Storable) ∧
    (Position.ofRecord p.toRecord = .ok p ↔ p.height.Fits) ∧
    (ofRecord bytes = .ok h ↔ h.height.Fits ∧
      ∃ zeros rest, (workDigits h.work).length + zeros < 2 ^ 64 ∧
        bytes = h.paddedRecord zeros ++ rest) ∧
    (Position.ofRecord bytes = .ok p ↔ p.height.Fits ∧ ∃ rest, bytes = p.toRecord ++ rest) ∧
    (ofRecord bytes = .ok h →
      ofRecord h.toRecord = .ok h ∧ Bytes.Shortens h.toRecord bytes) := by
  have hcapacity : Bytes.capacity 8 = 2 ^ 64 := rfl
  refine ⟨⟨storable_of_ofRecord, ofRecord_toRecord⟩, ⟨?_, Position.ofRecord_toRecord⟩,
    hcapacity ▸ ofRecord_eq_ok_iff, Position.ofRecord_eq_ok_iff, fun hread => ⟨?_, ?_⟩⟩
  · intro hread
    exact (Position.ofRecord_eq_ok_iff.mp hread).1
  · exact ofRecord_toRecord (storable_of_ofRecord hread)
  · exact toRecord_shortens hread

end HeaderChain
