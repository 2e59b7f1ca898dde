import HeaderChain.Block
import HeaderChain.Proofs.CompactSizes

/-!
# The byte strings that are blocks

A block may be written with any form of its counts and lengths, and just these byte strings are
read. Reading what is written gives the block again, unless one of its sizes is beyond the limit,
and what is written is the shortest of the byte strings that are read as the block. None of them is
the beginning of another one.
-/

namespace HeaderChain

/-! ## Headers -/

namespace RawHeader

variable {bytes : Bytes} {raw : RawHeader}

theorem wordBytes_ofWordBytes (h : bytes.length = 4) : wordBytes (ofWordBytes bytes) = bytes := by
  have hlt : Bytes.toNat bytes < 2 ^ 32 := by
    have hcapacity := Bytes.toNat_lt bytes
    rw [h] at hcapacity
    exact hcapacity
  have hcopy := Bytes.littleEndian_toNat bytes
  rw [h] at hcopy
  rwa [wordBytes, ofWordBytes, UInt32.toNat_ofNat', Nat.mod_eq_of_lt hlt]

theorem encode_of_decode (h : decode bytes = .ok raw) : raw.encode = bytes := by
  unfold decode at h
  split_ifs at h with hlen
  cases h
  have hfirst : (bytes.take 4).length = 4 := by simp [hlen]
  have hword {n : ℕ} (hn : n + 4 ≤ 80) : ((bytes.drop n).take 4).length = 4 := by
    simp only [List.length_take, List.length_drop]
    omega
  have hword' {n : ℕ} (hn : n + 4 ≤ 80) := wordBytes_ofWordBytes (hword hn)
  simp only [encode, wordBytes_ofWordBytes hfirst, hword' (n := 68) (by decide),
    hword' (n := 72) (by decide), hword' (n := 76) (by decide)]
  simp only [← List.take_add, Nat.reduceAdd]
  exact List.take_of_length_le hlen.le

theorem decode_of_length_ne (h : bytes.length ≠ 80) :
    decode bytes = .error (.headerSize bytes.length) := dif_neg h

theorem exists_encode (h : bytes.length = 80) : ∃ raw : RawHeader, raw.encode = bytes := by
  cases hread : decode bytes with
  | error cause => simp [decode, h] at hread
  | ok raw => exact ⟨raw, encode_of_decode hread⟩

end RawHeader

namespace Block

open CompactSize (Form)
open Cursor (Reader Recognizes)

variable {b : Block} {t : Transaction} {ts newest : List Transaction} {n : ℕ}
  {x form listing front more : Bytes}

/-! ## The grammar -/

/-- The byte strings that list transactions. -/
inductive Listing : List Transaction → Bytes → Prop
  | nil : Listing [] []
  | cons {t : Transaction} {ts : List Transaction} {size rest : Bytes}
      (hsize : Form t.bytes.length size) (hlimit : t.bytes.length ≤ limit)
      (hrest : Listing ts rest) : Listing (t :: ts) (size ++ t.bytes ++ rest)

/-- The byte strings of transactions after their number. -/
def Counted (ts : List Transaction) (form : Bytes) : Prop :=
  ∃ count listing, Form ts.length count ∧ ts.length ≤ limit ∧ Listing ts listing ∧
    form = count ++ listing

/-- The byte strings that stand for a block. -/
def Written (b : Block) (x : Bytes) : Prop :=
  ∃ form, Counted b.transactions form ∧ x = b.header.encode ++ form

def sizes (b : Block) : List ℕ := b.transactions.length :: b.transactions.map (·.bytes.length)

/-- The sizes are numbers of 64 bits, as those of all that is kept in memory. -/
def Addressable (b : Block) : Prop := ∀ n ∈ b.sizes, n < 2 ^ 64

/-! ## What the readers recognize -/

theorem limit_lt : limit < 2 ^ 64 := by decide

theorem readSize_eq (c : Cursor) : readSize c = CompactSize.read c >>= fun s =>
    if s.1.toNat ≤ limit then .ok (s.1.toNat, s.2) else .error (.tooLarge s.1.toNat) := by
  unfold readSize
  cases CompactSize.read c with
  | error cause => rfl
  | ok s =>
    change (if limit < s.1.toNat then _ else _) = if s.1.toNat ≤ limit then _ else _
    by_cases h : s.1.toNat ≤ limit
    · rw [if_pos h, if_neg (not_lt.mpr h)]
      rfl
    · rw [if_neg h, if_pos (not_le.mp h)]
      rfl

theorem recognizes_readSize : Recognizes readSize fun n form => Form n form ∧ n ≤ limit := by
  have hread := CompactSize.recognizes_read.bind fun v =>
    Recognizes.check (v.toNat ≤ limit) v.toNat (.tooLarge v.toNat)
  rw [funext readSize_eq]
  apply hread.congr
  intro n form
  constructor
  · rintro ⟨v, _, _, hform, ⟨hle, rfl, rfl⟩, rfl⟩
    rw [List.append_nil]
    exact ⟨hform, hle⟩
  · rintro ⟨hform, hle⟩
    have hv := UInt64.toNat_ofNat_of_lt' (hle.trans_lt limit_lt)
    refine ⟨UInt64.ofNat n, form, [], ?_, ⟨?_, hv.symm, rfl⟩, (List.append_nil form).symm⟩
    · rwa [hv]
    · rwa [hv]

theorem recognizes_readTransaction : Recognizes readTransaction fun t form =>
    ∃ size, Form t.bytes.length size ∧ t.bytes.length ≤ limit ∧ form = size ++ t.bytes := by
  have hread := recognizes_readSize.bind fun n =>
    (Recognizes.take n).bind fun bytes => Recognizes.pure (Transaction.mk bytes)
  refine (show Recognizes readTransaction _ from hread).congr fun t form => ?_
  constructor
  · rintro ⟨_, size, _, ⟨hsize, hle⟩, ⟨bytes, _, _, ⟨rfl, rfl⟩, ⟨rfl, rfl⟩, rfl⟩, rfl⟩
    rw [List.append_nil]
    exact ⟨size, hsize, hle, rfl⟩
  · rintro ⟨size, hsize, hle, rfl⟩
    exact ⟨_, size, t.bytes, ⟨hsize, hle⟩, ⟨t.bytes, t.bytes, [], ⟨rfl, rfl⟩, ⟨rfl, rfl⟩,
      (List.append_nil _).symm⟩, rfl⟩

/-- The transactions that are read come after those that there are already. -/
theorem recognizes_readTransactions (n : ℕ) (newest : List Transaction) :
    Recognizes (readTransactions n newest) fun ts listing =>
      ∃ new, ts = newest.reverse ++ new ∧ new.length = n ∧ Listing new listing := by
  induction n generalizing newest with
  | zero =>
    refine (Recognizes.pure newest.reverse).congr fun ts listing => ?_
    constructor
    · rintro ⟨rfl, rfl⟩
      exact ⟨[], (List.append_nil _).symm, rfl, .nil⟩
    · rintro ⟨new, rfl, hlen, hlisting⟩
      obtain rfl := List.length_eq_zero_iff.mp hlen
      cases hlisting
      exact ⟨List.append_nil _, rfl⟩
  | succ n ih =>
    have hread := recognizes_readTransaction.bind fun t => ih (t :: newest)
    refine (show Recognizes (readTransactions (n + 1) newest) _ from hread).congr
      fun ts listing => ?_
    constructor
    · rintro ⟨t, _, rest, ⟨size, hsize, hle, rfl⟩, ⟨new, rfl, hlen, hrest⟩, rfl⟩
      exact ⟨t :: new, by simp, by rw [List.length_cons, hlen], .cons hsize hle hrest⟩
    · rintro ⟨new, rfl, hlen, hlisting⟩
      cases hlisting with
      | nil => cases hlen
      | @cons t new size rest hsize hle hrest =>
        exact ⟨t, _, rest, ⟨size, hsize, hle, rfl⟩,
          ⟨new, by simp, Nat.succ.inj hlen, hrest⟩, rfl⟩

def readCounted : Reader (List Transaction) := fun c => do
  let (count, c) ← readSize c
  readTransactions count [] c

theorem recognizes_readCounted : Recognizes readCounted Counted := by
  have hread := recognizes_readSize.bind fun n => recognizes_readTransactions n []
  refine (show Recognizes readCounted _ from hread).congr fun ts form => ?_
  constructor
  · rintro ⟨_, count, listing, ⟨hcount, hle⟩, ⟨_, rfl, rfl, hlisting⟩, rfl⟩
    exact ⟨count, listing, hcount, hle, hlisting, rfl⟩
  · rintro ⟨count, listing, hcount, hle, hlisting, rfl⟩
    exact ⟨_, count, listing, ⟨hcount, hle⟩, ⟨ts, rfl, rfl, hlisting⟩, rfl⟩

/-! ## Reading blocks -/

theorem decode_short (h : x.length < 80) : decode x = .error (.headerSize x.length) := by
  unfold decode
  rw [List.take_of_length_le h.le]
  dsimp only
  rw [RawHeader.decode_of_length_ne h.ne]
  rfl

theorem decode_append (raw : RawHeader) (rest : Bytes) :
    decode (raw.encode ++ rest) = readCounted ⟨80, rest⟩ >>= fun s =>
      if s.2.rest = [] then .ok ⟨raw, s.1⟩ else .error (.trailingBytes s.2.rest.length) := by
  have hfront : (raw.encode ++ rest).take 80 = raw.encode := by
    rw [List.take_append_of_le_length (RawHeader.length_encode raw).ge]
    exact List.take_of_length_le (RawHeader.length_encode raw).le
  have hseek : Cursor.seek (raw.encode ++ rest) 80 = ⟨80, rest⟩ := by
    unfold Cursor.seek
    rw [List.drop_append_of_le_length (RawHeader.length_encode raw).ge,
      List.drop_of_length_le (RawHeader.length_encode raw).le]
    rfl
  unfold decode readCounted
  dsimp only
  rw [hfront, RawHeader.decode_encode, hseek]
  change (readSize ⟨80, rest⟩ >>= _) = (readSize ⟨80, rest⟩ >>= _) >>= _
  cases readSize ⟨80, rest⟩ with
  | error cause => rfl
  | ok s =>
    change (readTransactions s.1 [] s.2 >>= _) = readTransactions s.1 [] s.2 >>= _
    cases readTransactions s.1 [] s.2 with
    | error cause => rfl
    | ok s =>
      change (if s.2.rest ≠ [] then _ else _) = if s.2.rest = [] then _ else _
      by_cases h : s.2.rest = []
      · rw [if_pos h, if_neg (not_not.mpr h)]
        rfl
      · rw [if_neg h, if_pos h]
        rfl

theorem written_append_iff {raw : RawHeader} : Written b (raw.encode ++ form) ↔
    raw = b.header ∧ Counted b.transactions form := by
  constructor
  · rintro ⟨form', hform, happend⟩
    obtain ⟨hraw, rfl⟩ := List.append_inj happend (by simp)
    have hheader := congrArg RawHeader.decode hraw
    rw [RawHeader.decode_encode, RawHeader.decode_encode, Except.ok.injEq] at hheader
    exact ⟨hheader, hform⟩
  · rintro ⟨rfl, hform⟩
    exact ⟨form, hform, rfl⟩

theorem exists_header (h : 80 ≤ x.length) : ∃ (raw : RawHeader) (rest : Bytes),
    x = raw.encode ++ rest := by
  have hfront : (x.take 80).length = 80 := by simpa using h
  obtain ⟨raw, hraw⟩ := RawHeader.exists_encode hfront
  exact ⟨raw, x.drop 80, by rw [hraw, List.take_append_drop]⟩

/-- Just the byte strings of the grammar are read. -/
theorem decode_eq_ok_iff : decode x = .ok b ↔ Written b x := by
  by_cases hlen : x.length < 80
  · rw [decode_short hlen]
    constructor
    · intro h
      cases h
    · rintro ⟨form, -, rfl⟩
      simp at hlen
  · obtain ⟨raw, rest, rfl⟩ := exists_header (not_lt.mp hlen)
    rw [decode_append, written_append_iff]
    constructor
    · intro h
      cases hread : readCounted ⟨80, rest⟩ with
      | error cause =>
        rw [hread] at h
        cases h
      | ok s =>
        obtain ⟨ts, after⟩ := s
        rw [hread] at h
        change (if after.rest = [] then _ else _) = _ at h
        split_ifs at h with hend
        cases h
        obtain ⟨form, hform, hrest, -⟩ := recognizes_readCounted.sound hread
        obtain rfl : rest = form := by simpa [hend] using congrArg Cursor.rest hrest
        exact ⟨rfl, hform⟩
    · rintro ⟨rfl, hform⟩
      have hread := recognizes_readCounted.complete hform 80 []
      rw [List.append_nil] at hread
      rw [hread]
      rfl

theorem decode_of_cut (h : Written b (front ++ more)) (hmore : more ≠ []) :
    (∃ size, decode front = .error (.headerSize size)) ∨
      ∃ place, decode front = .error (.truncated place) := by
  by_cases hlen : front.length < 80
  · exact .inl ⟨_, decode_short hlen⟩
  · obtain ⟨raw, front, rfl⟩ := exists_header (not_lt.mp hlen)
    rw [List.append_assoc, written_append_iff] at h
    obtain ⟨place, hplace⟩ := recognizes_readCounted.cut h.2 hmore 80
    exact .inr ⟨place, by rw [decode_append, hplace]; rfl⟩

theorem decode_of_trailing (h : Written b x) (hmore : more ≠ []) :
    decode (x ++ more) = .error (.trailingBytes more.length) := by
  obtain ⟨form, hform, rfl⟩ := h
  rw [List.append_assoc, decode_append, recognizes_readCounted.complete hform]
  exact if_neg hmore

/-! ## Writing blocks -/

theorem form_write (h : n < 2 ^ 64) : Form n (CompactSize.write (UInt64.ofNat n)) := by
  have hform := CompactSize.form_write (UInt64.ofNat n)
  rwa [UInt64.toNat_ofNat_of_lt' h] at hform

theorem write_shortens (h : n < 2 ^ 64) (hform : Form n form) :
    Bytes.Shortens (CompactSize.write (UInt64.ofNat n)) form := by
  apply CompactSize.write_shortens
  rwa [UInt64.toNat_ofNat_of_lt' h]

theorem listing_encode (h : ∀ t ∈ ts, t.bytes.length ≤ limit) :
    Listing ts (ts.flatMap encodeTransaction) := by
  induction ts with
  | nil => exact .nil
  | cons t ts ih =>
    obtain ⟨hle, hrest⟩ := List.forall_mem_cons.mp h
    exact .cons (form_write (hle.trans_lt limit_lt)) hle (ih hrest)

theorem listing_shortens (h : Listing ts listing) :
    Bytes.Shortens (ts.flatMap encodeTransaction) listing := by
  induction h with
  | nil => exact .refl []
  | cons hsize hle _ ih =>
    have hwrite := write_shortens (hle.trans_lt limit_lt) hsize
    exact (hwrite.append (.refl _)).append ih

theorem encode_eq (b : Block) : b.encode = b.header.encode ++
    (CompactSize.write (UInt64.ofNat b.transactions.length) ++
      b.transactions.flatMap encodeTransaction) := by
  rw [encode, List.append_assoc]

theorem written_encode (h : ∀ n ∈ b.sizes, n ≤ limit) : Written b b.encode := by
  obtain ⟨hcount, hsizes⟩ := List.forall_mem_cons.mp h
  have hlisting : Listing b.transactions (b.transactions.flatMap encodeTransaction) :=
    listing_encode fun t ht => hsizes _ (List.mem_map_of_mem ht)
  exact ⟨_, ⟨_, _, form_write (hcount.trans_lt limit_lt), hcount, hlisting, rfl⟩, encode_eq b⟩

/-- No form of a block is shorter than the one that is written, and no other one is as short. -/
theorem encode_shortens (h : Written b x) : Bytes.Shortens b.encode x := by
  obtain ⟨_, ⟨count, listing, hcount, hle, hlisting, rfl⟩, rfl⟩ := h
  rw [encode_eq]
  have hwrite := write_shortens (hle.trans_lt limit_lt) hcount
  exact (Bytes.Shortens.refl _).append (hwrite.append (listing_shortens hlisting))

/-! ## Sizes beyond the limit -/

theorem readSize_of_large (hlt : n < 2 ^ 64) (hn : limit < n) (offset : ℕ) (rest : Bytes) :
    readSize ⟨offset, CompactSize.write (UInt64.ofNat n) ++ rest⟩ = .error (.tooLarge n) := by
  have hform := CompactSize.form_write (UInt64.ofNat n)
  rw [readSize_eq, CompactSize.recognizes_read.complete hform]
  change (if _ then _ else _) = _
  rw [UInt64.toNat_ofNat_of_lt' hlt, if_neg (not_le.mpr hn)]

theorem readTransaction_encode (hle : t.bytes.length ≤ limit) (offset : ℕ) (rest : Bytes) :
    readTransaction ⟨offset, encodeTransaction t ++ rest⟩ =
      .ok (t, ⟨offset + (encodeTransaction t).length, rest⟩) :=
  recognizes_readTransaction.complete ⟨_, form_write (hle.trans_lt limit_lt), hle, rfl⟩ offset rest

theorem readTransaction_of_large (hlt : t.bytes.length < 2 ^ 64) (ht : limit < t.bytes.length)
    (offset : ℕ) (rest : Bytes) :
    readTransaction ⟨offset, encodeTransaction t ++ rest⟩ = .error (.tooLarge t.bytes.length) := by
  unfold readTransaction encodeTransaction
  rw [List.append_assoc, readSize_of_large hlt ht]
  rfl

/-- The first transaction beyond the limit is reported. -/
theorem readTransactions_of_large (hlt : ∀ t ∈ ts, t.bytes.length < 2 ^ 64)
    (hlarge : ∃ t ∈ ts, limit < t.bytes.length) (newest : List Transaction) (offset : ℕ) :
    ∃ t ∈ ts, limit < t.bytes.length ∧
      readTransactions ts.length newest ⟨offset, ts.flatMap encodeTransaction⟩ =
        .error (.tooLarge t.bytes.length) := by
  induction ts generalizing newest offset with
  | nil => simp at hlarge
  | cons t ts ih =>
    obtain ⟨hfits, hrest⟩ := List.forall_mem_cons.mp hlt
    have hstep : readTransactions (t :: ts).length newest
        ⟨offset, (t :: ts).flatMap encodeTransaction⟩ =
      readTransaction ⟨offset, encodeTransaction t ++ ts.flatMap encodeTransaction⟩ >>= fun s =>
        readTransactions ts.length (s.1 :: newest) s.2 := rfl
    by_cases hle : t.bytes.length ≤ limit
    · obtain ⟨t', ht', hlimit, hread⟩ := ih hrest (by simpa [not_lt.mpr hle] using hlarge)
        (t :: newest) (offset + (encodeTransaction t).length)
      refine ⟨t', .tail t ht', hlimit, ?_⟩
      rw [hstep, readTransaction_encode hle]
      exact hread
    · refine ⟨t, .head ts, not_le.mp hle, ?_⟩
      rw [hstep, readTransaction_of_large hfits (not_le.mp hle)]
      rfl

/-- A block with a size beyond the limit is written, but not read. -/
theorem decode_encode_of_large (h : b.Addressable) (hlarge : ∃ n ∈ b.sizes, limit < n) :
    ∃ n ∈ b.sizes, limit < n ∧ decode b.encode = .error (.tooLarge n) := by
  obtain ⟨hfits, hsizes⟩ := List.forall_mem_cons.mp h
  rw [encode_eq, decode_append]
  unfold readCounted
  by_cases hcount : b.transactions.length ≤ limit
  · obtain ⟨t, ht, hlimit, hread⟩ := readTransactions_of_large
      (fun t ht => hsizes _ (List.mem_map_of_mem ht))
      (by simpa [sizes, not_lt.mpr hcount] using hlarge) []
      (80 + (CompactSize.write (UInt64.ofNat b.transactions.length)).length)
    refine ⟨_, .tail _ (List.mem_map_of_mem ht), hlimit, ?_⟩
    rw [recognizes_readSize.complete ⟨form_write hfits, hcount⟩]
    change (readTransactions _ _ _ >>= _) = _
    rw [hread]
    rfl
  · refine ⟨_, .head _, not_le.mp hcount, ?_⟩
    rw [readSize_of_large hfits (not_le.mp hcount)]
    rfl

/-- The byte strings of the grammar are just those that are read, each as the block that it stands
for. A block within the limits is read from what is written for it, which is the shortest of its
forms; any other one is refused for its size. No form is the beginning of another. -/
theorem grammar_exact :
    (∀ b : Block, (∀ n ∈ b.sizes, n ≤ limit) → decode b.encode = .ok b) ∧
    (∀ b : Block, b.Addressable → (∃ n ∈ b.sizes, limit < n) →
      ∃ n ∈ b.sizes, limit < n ∧ decode b.encode = .error (.tooLarge n)) ∧
    (∀ x b, decode x = .ok b ↔ Written b x) ∧
    (∀ x b, decode x = .ok b → b.encode.length ≤ x.length ∧
      (b.encode.length = x.length ↔ b.encode = x)) ∧
    (∀ x b front, decode x = .ok b → front <+: x → front ≠ x →
      (∃ size, decode front = .error (.headerSize size)) ∨
        ∃ place, decode front = .error (.truncated place)) ∧
    ∀ x b more, decode x = .ok b → more ≠ [] →
      decode (x ++ more) = .error (.trailingBytes more.length) := by
  refine ⟨fun b h => decode_eq_ok_iff.mpr (written_encode h),
    fun b h hlarge => decode_encode_of_large h hlarge, fun x b => decode_eq_ok_iff, ?_, ?_, ?_⟩
  · intro x b h
    have hshortens := encode_shortens (decode_eq_ok_iff.mp h)
    exact ⟨hshortens.length_le, hshortens.length_eq_iff⟩
  · rintro x b front h ⟨more, rfl⟩ hne
    refine decode_of_cut (decode_eq_ok_iff.mp h) ?_
    rintro rfl
    exact hne (List.append_nil front).symm
  · intro x b more h hmore
    exact decode_of_trailing (decode_eq_ok_iff.mp h) hmore

end Block

end HeaderChain
