import HeaderChain.Encoding.CompactSize
import HeaderChain.Proofs.Recognizing

/-!
# The forms of a compact size

A number below 253 can be one byte, and any number can be the digits after a marker, in two, four or
eight bytes, if it fits. All of these are read, wherever they stand, and the form that is written is
the shortest one. A reader that moves an offset in place leaves it alone where bytes are missing.
-/

namespace HeaderChain

namespace CompactSize

/-- The first bytes that announce digits, with the number of bytes that these take up. -/
def markers : List (UInt8 × ℕ) := [(0xfd, 2), (0xfe, 4), (0xff, 8)]

/-- The byte strings that stand for a number. -/
inductive Form : ℕ → Bytes → Prop
  | byte {first : UInt8} (h : first < 0xfd) : Form first.toNat [first]
  | digits {marker : UInt8} {digits : Bytes} (h : (marker, digits.length) ∈ markers) :
      Form digits.toNat (marker :: digits)

variable {first marker : UInt8} {w n offset next : ℕ} {form digits bytes : Bytes} {v : UInt64}
  {c : Cursor} {cause : DecodeError}

theorem mem_markers_iff : (marker, w) ∈ markers ↔ w ≠ 0 ∧ width marker = w := by
  simp only [markers, List.mem_cons, Prod.mk.injEq, List.not_mem_nil, or_false, width]
  constructor
  · rintro (⟨rfl, rfl⟩ | ⟨rfl, rfl⟩ | ⟨rfl, rfl⟩) <;> decide
  · rintro ⟨hw, rfl⟩
    split_ifs at hw ⊢ with h₂ h₄ h₈
    · simp [h₂]
    · simp [h₄]
    · simp [h₈]
    · exact absurd rfl hw

theorem marker_unique {marker' : UInt8} (h : (marker, w) ∈ markers) (h' : (marker', w) ∈ markers) :
    marker = marker' := by
  have hinj : ∀ m ∈ markers, ∀ m' ∈ markers, m.2 = m'.2 → m.1 = m'.1 := by decide
  exact hinj _ h _ h' rfl

theorem width_eq_zero_iff : width first = 0 ↔ first < 0xfd := by
  unfold width
  split_ifs with h₂ h₄ h₈
  · subst h₂
    decide
  · subst h₄
    decide
  · subst h₈
    decide
  · have hlt := first.toNat_lt
    simp only [← UInt8.toNat_inj, UInt8.reduceToNat] at h₂ h₄ h₈
    simp only [UInt8.lt_iff_toNat_lt, UInt8.reduceToNat, true_iff]
    omega

theorem toNat_lt_of_mem_markers (h : (marker, digits.length) ∈ markers) :
    digits.toNat < 2 ^ 64 := by
  have hlt := Bytes.toNat_lt digits
  have hle : Bytes.capacity digits.length ≤ 2 ^ 64 := by
    generalize digits.length = w at h
    simp only [markers, List.mem_cons, Prod.mk.injEq, List.not_mem_nil, or_false] at h
    obtain ⟨-, rfl⟩ | ⟨-, rfl⟩ | ⟨-, rfl⟩ := h <;> decide
  omega

/-- The first byte of a form tells what comes after it. -/
theorem form_cons_iff : Form n (first :: digits) ↔
    first < 0xfd ∧ digits = [] ∧ n = first.toNat ∨
      (first, digits.length) ∈ markers ∧ n = digits.toNat := by
  constructor
  · intro h
    cases h with
    | byte hfirst => exact .inl ⟨hfirst, rfl, rfl⟩
    | digits hmarker => exact .inr ⟨hmarker, rfl⟩
  · rintro (⟨hfirst, rfl, rfl⟩ | ⟨hmarker, rfl⟩)
    · exact .byte hfirst
    · exact .digits hmarker

theorem Form.exists_cons (h : Form n form) : ∃ first digits, form = first :: digits := by
  cases h with
  | byte => exact ⟨_, _, rfl⟩
  | digits => exact ⟨_, _, rfl⟩

/-! ## Reading -/

def readRest (first : UInt8) : Cursor.Reader UInt64 := fun c =>
  if width first = 0 then .ok (first.toUInt64, c)
  else (c.take (width first)).map fun s => (UInt64.ofNat s.1.toNat, s.2)

theorem read_cons (offset : ℕ) (first : UInt8) (rest : Bytes) :
    read ⟨offset, first :: rest⟩ = readRest first ⟨offset + 1, rest⟩ := by
  simp only [read, readRest]
  generalize width first = w
  cases w with
  | zero => rfl
  | succ w => rfl

theorem read_eq (c : Cursor) : read c = c.byte >>= fun s => readRest s.1 s.2 := by
  obtain ⟨offset, bytes⟩ := c
  cases bytes with
  | nil => rfl
  | cons first rest => exact read_cons offset first rest

theorem recognizes_readRest (first : UInt8) :
    Cursor.Recognizes (readRest first) fun v digits => Form v.toNat (first :: digits) := by
  unfold readRest
  by_cases hw : width first = 0
  · simp only [hw, if_true]
    refine (Cursor.Recognizes.pure first.toUInt64).congr fun v digits => ?_
    rw [form_cons_iff]
    constructor
    · rintro ⟨rfl, rfl⟩
      exact .inl ⟨width_eq_zero_iff.mp hw, rfl, UInt8.toNat_toUInt64 first⟩
    · rintro (⟨-, rfl, hv⟩ | ⟨hmarker, -⟩)
      · exact ⟨UInt64.toNat_inj.mp (by rw [UInt8.toNat_toUInt64, hv]), rfl⟩
      · obtain ⟨hpos, hwidth⟩ := mem_markers_iff.mp hmarker
        exact absurd (hwidth.symm.trans hw) hpos
  · simp only [hw, if_false]
    refine ((Cursor.Recognizes.take (width first)).map fun digits =>
      UInt64.ofNat digits.toNat).congr fun v digits => ?_
    constructor
    · rintro ⟨digits, ⟨rfl, hlen⟩, rfl⟩
      have hmarker : (first, digits.length) ∈ markers := mem_markers_iff.mpr ⟨hlen ▸ hw, hlen.symm⟩
      rw [UInt64.toNat_ofNat_of_lt' (toNat_lt_of_mem_markers hmarker)]
      exact .digits hmarker
    · intro h
      obtain ⟨hfirst, -, -⟩ | ⟨hmarker, hv⟩ := form_cons_iff.mp h
      · exact absurd (width_eq_zero_iff.mpr hfirst) hw
      · exact ⟨digits, ⟨rfl, (mem_markers_iff.mp hmarker).2.symm⟩,
          by rw [← hv, UInt64.ofNat_toNat]⟩

theorem recognizes_read : Cursor.Recognizes read fun v form => Form v.toNat form := by
  have hread := Cursor.Recognizes.byte.bind recognizes_readRest
  rw [funext read_eq]
  apply hread.congr
  intro v form
  constructor
  · rintro ⟨first, _, digits, rfl, hform, rfl⟩
    exact hform
  · intro hform
    obtain ⟨first, digits, rfl⟩ := hform.exists_cons
    exact ⟨first, [first], digits, rfl, hform, rfl⟩

/-! ## Writing -/

theorem form_digits (h : (marker, w) ∈ markers) (hn : n < Bytes.capacity w) :
    Form n (marker :: Bytes.littleEndian w n) := by
  have hform : Form (Bytes.littleEndian w n).toNat (marker :: Bytes.littleEndian w n) :=
    .digits (by rwa [Bytes.length_littleEndian])
  rwa [Bytes.toNat_littleEndian_of_lt hn] at hform

theorem form_write (v : UInt64) : Form v.toNat (write v) := by
  unfold write
  dsimp only
  split_ifs with h₁ h₂ h₄
  · have hfirst : (UInt8.ofNat v.toNat).toNat = v.toNat := by
      rw [UInt8.toNat_ofNat']
      exact Nat.mod_eq_of_lt (by omega)
    have hbyte : UInt8.ofNat v.toNat < 0xfd := by
      rw [UInt8.lt_iff_toNat_lt, hfirst]
      exact Nat.lt_succ_of_le h₁
    have hform := Form.byte hbyte
    rwa [hfirst] at hform
  · exact form_digits (by decide) (Nat.lt_succ_of_le h₂)
  · exact form_digits (by decide) (Nat.lt_succ_of_le h₄)
  · exact form_digits (by decide) v.toNat_lt

theorem write_wide (h : 0xfc < v.toNat) : ∃ m ∈ markers,
    write v = m.1 :: Bytes.littleEndian m.2 v.toNat ∧
      ∀ m' ∈ markers, v.toNat < Bytes.capacity m'.2 → m.2 ≤ m'.2 := by
  have htwo : Bytes.capacity 2 = 0x10000 := rfl
  have hfour : Bytes.capacity 4 = 0x100000000 := rfl
  unfold write
  dsimp only
  rw [if_neg (not_le.mpr h)]
  split_ifs with h₂ h₄
  · exact ⟨(0xfd, 2), by decide, rfl, by simp [markers]⟩
  · refine ⟨(0xfe, 4), by decide, rfl, ?_⟩
    simp only [markers, List.forall_mem_cons, htwo]
    exact ⟨fun hfits => by omega, fun _ => le_rfl, fun _ => by decide, by simp⟩
  · refine ⟨(0xff, 8), by decide, rfl, ?_⟩
    simp only [markers, List.forall_mem_cons, htwo, hfour]
    exact ⟨fun hfits => by omega, fun hfits => by omega, fun _ => le_rfl, by simp⟩

/-- No form is shorter than the one that is written, and no other one is as short. -/
theorem write_shortens (h : Form v.toNat form) : Bytes.Shortens (write v) form := by
  generalize hv : v.toNat = n at h
  by_cases hbyte : v.toNat ≤ 0xfc
  · have hwrite : write v = [UInt8.ofNat v.toNat] := if_pos hbyte
    rw [hwrite, hv]
    cases h with
    | byte hfirst => exact .inl (by rw [UInt8.ofNat_toNat])
    | @digits marker digits hmarker =>
      have hpos := Nat.pos_of_ne_zero (mem_markers_iff.mp hmarker).1
      exact .inr (by simpa using hpos)
  · obtain ⟨⟨marker', w⟩, hmem, hwrite, hleast⟩ := write_wide (not_le.mp hbyte)
    rw [hwrite, hv]
    rw [hv] at hbyte hleast
    cases h with
    | byte hfirst =>
      rw [UInt8.lt_iff_toNat_lt] at hfirst
      exact absurd (Nat.le_of_lt_succ hfirst) hbyte
    | @digits marker digits hmarker =>
      obtain heq | hlt := (hleast _ hmarker (Bytes.toNat_lt digits)).eq_or_lt
      · dsimp only at heq
        subst heq
        have hsame : marker' = marker := marker_unique hmem hmarker
        exact .inl (by rw [hsame, Bytes.littleEndian_toNat])
      · exact .inr (by simpa using hlt)

/-! ## Missing bytes -/

theorem readRest_eq_error_iff : readRest first c = .error cause ↔
    c.rest.length < width first ∧ cause = .truncated c.offset := by
  rw [← Cursor.take_eq_error_iff]
  unfold readRest
  split_ifs with hw
  · simp [hw, Cursor.take_eq_error_iff]
  · cases c.take (width first) with
    | error other => simp [Except.map]
    | ok s => simp [Except.map]

/-- Reading fails just where there is no first byte or the digits after it are cut short. -/
theorem read_eq_error_iff : read c = .error cause ↔
    c.rest = [] ∧ cause = .truncated c.offset ∨
      ∃ first digits, c.rest = first :: digits ∧ digits.length < width first ∧
        cause = .truncated (c.offset + 1) := by
  obtain ⟨offset, bytes⟩ := c
  cases bytes with
  | nil => simp [read, eq_comm]
  | cons first digits => simp [read_cons, readRest_eq_error_iff]

/-! ## Moving an offset -/

/-- The offset goes where a cursor goes, and stays where it is if the cursor cannot go on. -/
theorem run_readAt (bytes : Bytes) (offset : ℕ) : (readAt bytes).run offset =
    match read (.seek bytes offset) with
    | .ok (v, next) => .ok v next.offset
    | .error cause => .error cause offset := by
  simp only [readAt, Cursor.seek, EStateM.run_bind, EStateM.run_get]
  cases hbytes : bytes.drop offset with
  | nil =>
    have hnone : bytes[offset]? = none := by rw [← List.head?_drop, hbytes, List.head?_nil]
    rw [hnone]
    rfl
  | cons first rest =>
    -- What is looked up from the offset on is what the cursor has before it.
    have hfirst : bytes[offset]? = some first := by
      rw [← List.head?_drop, hbytes, List.head?_cons]
    have hrest : bytes.drop (offset + 1) = rest := by
      rw [← List.tail_drop, hbytes, List.tail_cons]
    simp only [hfirst, hrest, read, Cursor.take]
    cases width first with
    | zero => rfl
    | succ w =>
      dsimp only
      cases Bytes.split? (w + 1) rest with
      | none => rfl
      | some parts => rfl

/-- A form is read where it begins, and the offset moves to its end. -/
theorem readAt_eq_ok_iff : (readAt bytes).run offset = .ok v next ↔
    ∃ form rest, Form v.toNat form ∧ bytes.drop offset = form ++ rest ∧
      next = offset + form.length := by
  rw [run_readAt]
  constructor
  · intro h
    cases hread : read (.seek bytes offset) with
    | error cause =>
      rw [hread] at h
      cases h
    | ok s =>
      rw [hread] at h
      cases h
      obtain ⟨form, hform, hseek, hoffset⟩ := recognizes_read.sound hread
      exact ⟨form, _, hform, congrArg Cursor.rest hseek, hoffset⟩
  · rintro ⟨form, rest, hform, hdrop, rfl⟩
    rw [Cursor.seek, hdrop, recognizes_read.complete hform]

theorem readAt_eq_error_iff : (readAt bytes).run offset = .error cause next ↔
    read (.seek bytes offset) = .error cause ∧ next = offset := by
  rw [run_readAt]
  cases read (.seek bytes offset) with
  | error other => simp [eq_comm]
  | ok s => simp

theorem form_of_readAt (h : (readAt form).run 0 = .ok v form.length) : Form v.toNat form := by
  obtain ⟨front, rest, hfront, hform, hlen⟩ := readAt_eq_ok_iff.mp h
  rw [List.drop_zero] at hform
  rw [Nat.zero_add] at hlen
  have hrest : rest = [] := by
    rw [hform, List.length_append] at hlen
    exact List.length_eq_zero_iff.mp (by omega)
  rwa [hform, hrest, List.append_nil]

/-- What is written is read again, whatever stands before and after it. Any other byte string that is
read as the number to its end is longer. Reading fails for missing bytes only, and leaves the offset
where it is. -/
theorem code_self_delimiting :
    (∀ (v : UInt64) (front rest : Bytes), (readAt (front ++ write v ++ rest)).run front.length =
      .ok v (front.length + (write v).length)) ∧
    (∀ (v : UInt64) (form : Bytes), (readAt form).run 0 = .ok v form.length → form ≠ write v →
      (write v).length < form.length) ∧
    ∀ (bytes : Bytes) (offset : ℕ) (cause : DecodeError) (next : ℕ),
      (readAt bytes).run offset = .error cause next →
        (cause = .truncated offset ∨ cause = .truncated (offset + 1)) ∧ next = offset := by
  refine ⟨fun v front rest => ?_, fun v form hread hne => ?_, fun bytes offset cause next hread => ?_⟩
  · refine readAt_eq_ok_iff.mpr ⟨write v, rest, form_write v, ?_, rfl⟩
    rw [List.append_assoc, List.drop_left]
  · exact (write_shortens (form_of_readAt hread)).resolve_left (Ne.symm hne)
  · obtain ⟨hcause, rfl⟩ := readAt_eq_error_iff.mp hread
    obtain ⟨-, rfl⟩ | ⟨_, _, -, -, rfl⟩ := read_eq_error_iff.mp hcause
    · exact ⟨.inl rfl, rfl⟩
    · exact ⟨.inr rfl, rfl⟩

/-- Three in two digits is read, but longer than three as it is written, and is not read any more
when its last byte is missing. -/
theorem longer_form_of_three :
    (readAt [0xaa, 3, 0xbb]).run 1 = .ok 3 2 ∧
    ((readAt [0xfd, 3, 0]).run 0 = .ok 3 3 ∧ [0xfd, 3, 0] ≠ write 3 ∧ (write 3).length < 3) ∧
    ∃ cause next, (readAt [0xaa, 0xfd, 3]).run 1 = .error cause next ∧
      (cause = .truncated 1 ∨ cause = .truncated 2) ∧ next = 1 := by
  obtain ⟨hwrite, hlonger, hcut⟩ := code_self_delimiting
  have hread : (readAt [0xfd, 3, 0]).run 0 = .ok 3 3 := rfl
  have hne : [0xfd, 3, 0] ≠ write 3 := by decide
  have herror : (readAt [0xaa, 0xfd, 3]).run 1 = .error (.truncated 2) 1 := rfl
  exact ⟨hwrite 3 [0xaa] [0xbb], ⟨hread, hne, hlonger 3 _ hread hne⟩, _, _, herror,
    hcut _ _ _ _ herror⟩

end CompactSize

end HeaderChain
