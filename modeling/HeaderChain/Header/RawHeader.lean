import HeaderChain.Encoding.Cursor
import HeaderChain.Hash

/-!
# Raw headers

The six fields of a header as they travel: 80 bytes, integers least significant byte first. A
header is named by the hash of these bytes.
-/

namespace HeaderChain

structure RawHeader where
  version : UInt32
  previous : Hash
  merkleRoot : Hash
  timestamp : UInt32
  bits : UInt32
  nonce : UInt32
deriving DecidableEq

namespace RawHeader

def wordBytes (w : UInt32) : Bytes := Bytes.littleEndian 4 w.toNat

def ofWordBytes (bytes : Bytes) : UInt32 := UInt32.ofNat (Bytes.toNat bytes)

def encode (r : RawHeader) : Bytes :=
  wordBytes r.version ++ r.previous.bytes ++ r.merkleRoot.bytes ++
    wordBytes r.timestamp ++ wordBytes r.bits ++ wordBytes r.nonce

def decode (bytes : Bytes) : Except DecodeError RawHeader :=
  if h : bytes.length = 80 then
    .ok {
      version := ofWordBytes (bytes.take 4)
      previous := ⟨(bytes.drop 4).take 32, by simp [h]⟩
      merkleRoot := ⟨(bytes.drop 36).take 32, by simp [h]⟩
      timestamp := ofWordBytes ((bytes.drop 68).take 4)
      bits := ofWordBytes ((bytes.drop 72).take 4)
      nonce := ofWordBytes ((bytes.drop 76).take 4) }
  else .error (.headerSize bytes.length)

/-- The name of a header. -/
def hash (r : RawHeader) : Hash := Hash.ofData r.encode

@[simp] theorem length_wordBytes (w : UInt32) : (wordBytes w).length = 4 := by
  simp [wordBytes]

@[simp] theorem ofWordBytes_wordBytes (w : UInt32) : ofWordBytes (wordBytes w) = w := by
  have h : w.toNat < Bytes.capacity 4 := w.toNat_lt
  simp [ofWordBytes, wordBytes, Bytes.toNat_littleEndian_of_lt h]

@[simp] theorem length_encode (r : RawHeader) : r.encode.length = 80 := by
  simp [encode, Hash.length_bytes]

theorem decode_encode (r : RawHeader) : decode r.encode = .ok r := by
  obtain ⟨version, ⟨previous, hp⟩, ⟨merkleRoot, hm⟩, timestamp, bits, nonce⟩ := r
  have past {n : Nat} {bytes : Bytes} (h : bytes.length ≤ n) : bytes.drop n = [] :=
    List.drop_eq_nil_of_le h
  have whole (w : UInt32) : (wordBytes w).take 4 = wordBytes w :=
    List.take_of_length_le (by simp)
  unfold decode
  rw [dif_pos (length_encode _)]
  simp [encode, List.drop_append, hp, hm, past, whole]

end RawHeader

end HeaderChain
