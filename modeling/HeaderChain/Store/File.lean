import HeaderChain.Encoding.CompactSize
import HeaderChain.Store

/-!
# Stores as files

A store is kept as one byte string: all records in the order of their keys, each as its key and its
value with their lengths in front.
-/

namespace HeaderChain.Store

/-- A byte string with its length in front. -/
def sized (bytes : Bytes) : Bytes := CompactSize.write (UInt64.ofNat bytes.length) ++ bytes

def encode (s : Store) : Bytes :=
  s.records.toList.flatMap fun (key, value) => sized key ++ sized value

def readSized (c : Cursor) : Except DecodeError (Bytes × Cursor) := do
  let (size, c) ← CompactSize.read c
  c.take size.toNat

/-- Reads records up to the end, `bound` at most. -/
def readRecords (s : Store) : (bound : Nat) → Cursor → Except DecodeError Store
  | 0, _ => .ok s
  | bound + 1, c =>
    if c.rest.isEmpty then .ok s
    else do
      let (key, c) ← readSized c
      let (value, c) ← readSized c
      readRecords ⟨s.records.insert key value⟩ bound c

def decode (bytes : Bytes) : Except DecodeError Store :=
  readRecords {} bytes.length (Cursor.seek bytes 0)

end HeaderChain.Store
