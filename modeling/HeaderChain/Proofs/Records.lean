import HeaderChain.Proofs.Reading
import HeaderChain.Proofs.RecordForms
import HeaderChain.Proofs.Route

/-!
# Records under their keys

Keys of different records are different, so that a record which is put under its key or erased there
leaves the others as they are. Whatever is read from a store has heights of 64 bits.
-/

namespace HeaderChain

/-- A key that stands for one record only: the best chain has no heights out of range. -/
def Key.Proper : Key → Prop
  | .best height => 0 ≤ height ∧ height ≤ Height.greatest
  | _ => True

/-- A key whose height has 64 bits, if it has one: two such keys have different bytes. -/
def Key.Fits : Key → Prop
  | .best height => height.Fits
  | _ => True

variable {height height' : Height} {k l : Key} {n w : ℕ}

/-! ## Keys -/

theorem littleEndian_inj {m : ℕ} (hn : n < Bytes.capacity w) (hm : m < Bytes.capacity w)
    (h : Bytes.littleEndian w n = Bytes.littleEndian w m) : n = m := by
  have hread := congrArg Bytes.toNat h
  rwa [Bytes.toNat_littleEndian_of_lt hn, Bytes.toNat_littleEndian_of_lt hm] at hread

theorem bigEndian_residue_inj (hf : height.Fits) (hf' : height'.Fits)
    (h : Bytes.bigEndian 8 (Bytes.residue 8 height) = Bytes.bigEndian 8 (Bytes.residue 8 height')) :
    height = height' := by
  have hres := littleEndian_inj (Bytes.residue_lt 8 height) (Bytes.residue_lt 8 height')
    (List.reverse_injective h)
  rw [← signed_residue_of_fits hf, hres, signed_residue_of_fits hf']

theorem Edge.bytes_inj {a b : Edge} (h : a.bytes = b.bytes) : a = b := by
  have hread := congrArg Edge.ofBytes? h
  simpa using hread

theorem Key.labels : headers = [104, 100, 114, 58] ∧ bests = [98, 115, 116, 58] ∧
    edges = [100, 105, 115, 58] ∧ siblings = [115, 105, 98, 58] ∧
    singles = [109, 101, 116, 97, 58] := by
  decide

theorem Key.Proper.fits (hk : k.Proper) : k.Fits := by
  cases k with
  | best height => exact Height.Fits.of_nonneg hk.1 hk.2
  | _ => trivial

/-- The first byte of a key tells which table it belongs to. -/
theorem Key.bytes_inj (hk : k.Fits) (hl : l.Fits) : k.bytes = l.bytes ↔ k = l := by
  constructor
  · intro h
    cases k <;> cases l <;> simp [Key.bytes, labels, label] at h ⊢
    case header.header => exact Hash.ext h
    case best.best => exact bigEndian_residue_inj hk hl h
    case edge.edge => exact Edge.bytes_inj h
    case sibling.sibling => exact Hash.ext h
  · rintro rfl
    rfl

/-! ## Stores -/

namespace Store

variable {s : Store} {v : Bytes}

theorem get?_put_eq (hl : l.Proper) (hk : k.Proper) :
    (s.put l v).get? k = if l = k then some v else s.get? k := by
  split_ifs with h
  · rw [h, get?_put]
  · exact get?_put_of_ne fun hb => h ((Key.bytes_inj hl.fits hk.fits).mp hb)

theorem get?_erase_eq (hl : l.Proper) (hk : k.Proper) :
    (s.erase l).get? k = if l = k then none else s.get? k := by
  split_ifs with h
  · rw [h, get?_erase]
  · exact get?_erase_of_ne fun hb => h ((Key.bytes_inj hl.fits hk.fits).mp hb)

theorem storable_of_header? {k : Hash} {h : Header} (hk : s.header? k = some h) : h.Storable := by
  unfold header? load at hk
  cases hrecord : s.get? (.header k) with
  | none => simp [hrecord, Except.toOption] at hk
  | some record =>
    cases hread : Header.ofRecord record with
    | error cause => simp [hrecord, hread, Except.toOption] at hk
    | ok x =>
      obtain rfl : x = h := by simpa [hrecord, hread, Except.toOption] using hk
      exact Header.storable_of_ofRecord hread

theorem fits_of_heightOfRecord? {record : Bytes} (h : heightOfRecord? record = some height) :
    height.Fits := by
  unfold heightOfRecord? at h
  split_ifs at h
  rw [← Option.some.inj h]
  exact Height.fits_signed _

theorem fits_tipHeight (s : Store) : s.tipHeight.Fits := by
  unfold tipHeight
  cases hread : (s.get? .tip).bind heightOfRecord? with
  | none => exact Height.fits_blank
  | some height =>
    obtain ⟨record, -, hrecord⟩ := Option.bind_eq_some_iff.mp hread
    exact fits_of_heightOfRecord? hrecord

theorem heightOfRecord?_heightRecord (hf : height.Fits) :
    heightOfRecord? (heightRecord height) = some height := by
  have hlt := Bytes.residue_lt 8 height
  rw [heightOfRecord?, heightRecord, if_pos (Bytes.length_bigEndian 8 _), Bytes.bigEndian,
    List.reverse_reverse, Bytes.toNat_littleEndian_of_lt hlt, signed_residue_of_fits hf]

end Store

end HeaderChain
