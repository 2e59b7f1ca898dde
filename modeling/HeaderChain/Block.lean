import HeaderChain.Encoding.CompactSize
import HeaderChain.Hash.Merkle
import HeaderChain.Header.RawHeader

/-!
# Blocks

A block is a header, a compact size with the number of transactions, and each transaction after
the compact size of its length. Transactions are opaque; only their hashes matter. Counts and
lengths above `limit` are refused before the bytes are looked for.
-/

namespace HeaderChain

structure Transaction where
  bytes : Bytes
deriving DecidableEq

def Transaction.id (t : Transaction) : Hash := Hash.ofData t.bytes

/-- A header with the transactions that belong to it. -/
structure Block where
  header : RawHeader
  transactions : List Transaction
deriving DecidableEq

namespace Block

/-- The largest count or length that is read. -/
def limit : Nat := 32 * 1024 * 1024

/-- The root that the transactions ask for. -/
def merkleRoot (b : Block) : Hash := Merkle.root (b.transactions.map Transaction.id)

def isCommitted (b : Block) : Bool := b.header.merkleRoot == b.merkleRoot

/-- The block whose header is made to commit to the transactions. -/
def assemble (header : RawHeader) (transactions : List Transaction) : Block :=
  { header := { header with merkleRoot := Merkle.root (transactions.map Transaction.id) }
    transactions }

def hash (b : Block) : Hash := b.header.hash

/-- A transaction after the compact size of its length. -/
def encodeTransaction (t : Transaction) : Bytes :=
  CompactSize.write (UInt64.ofNat t.bytes.length) ++ t.bytes

def encode (b : Block) : Bytes :=
  b.header.encode ++ CompactSize.write (UInt64.ofNat b.transactions.length) ++
    b.transactions.flatMap encodeTransaction

/-- Reads a compact size that is within the limit. -/
def readSize (c : Cursor) : Except DecodeError (Nat × Cursor) := do
  let (value, c) ← CompactSize.read c
  if value.toNat > limit then throw (.tooLarge value.toNat)
  return (value.toNat, c)

def readTransaction (c : Cursor) : Except DecodeError (Transaction × Cursor) := do
  let (length, c) ← readSize c
  let (bytes, c) ← c.take length
  return (⟨bytes⟩, c)

/-- Reads `n` more transactions, after those already read, newest first. -/
def readTransactions :
    Nat → List Transaction → Cursor → Except DecodeError (List Transaction × Cursor)
  | 0, newest, c => .ok (newest.reverse, c)
  | n + 1, newest, c => do
    let (t, c) ← readTransaction c
    readTransactions n (t :: newest) c

def decode (bytes : Bytes) : Except DecodeError Block := do
  let front := bytes.take 80
  let header ← RawHeader.decode front
  let (count, c) ← readSize (.seek bytes 80)
  let (transactions, c) ← readTransactions count [] c
  if c.rest ≠ [] then throw (.trailingBytes c.rest.length)
  return { header, transactions }

@[simp] theorem isCommitted_assemble (header : RawHeader) (transactions : List Transaction) :
    (assemble header transactions).isCommitted = true := by
  simp [assemble, isCommitted, merkleRoot]

end Block

end HeaderChain
