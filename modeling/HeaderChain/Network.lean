import HeaderChain.Header

/-!
# Networks

Every network has a name, a tag that marks its databases, and a genesis header. The first three
share the merkle root of one genesis transaction; the last is made up for tests, with the
difficulty of `regtest`.
-/

namespace HeaderChain

inductive Network where
  | bitcoin
  | testnet3
  | regtest
  | unittest
deriving DecidableEq, Repr

/-- A checkpoint with what a node needs to start from it. -/
structure Checkpoint where
  position : Position
  parent : Hash
  filterHeader : Hash
deriving DecidableEq

namespace Network

def all : List Network := [.bitcoin, .testnet3, .regtest, .unittest]

def name : Network → String
  | .bitcoin => "bitcoin"
  | .testnet3 => "testnet3"
  | .regtest => "regtest"
  | .unittest => "unittest"

/-- The byte that marks the databases of a network. -/
def tag : Network → UInt8
  | .bitcoin => 1
  | .testnet3 => 2
  | .regtest => 3
  | .unittest => 0xff

def ofName? (text : String) : Option Network := all.find? fun n => n.name == text

structure UnknownName where
  text : String
deriving DecidableEq, Repr

def UnknownName.message (e : UnknownName) : String := "unknown chain '" ++ e.text ++ "'"

/-- The network with this name, where ASCII capitals count as small letters. -/
def parse (text : String) : Except UnknownName Network :=
  match ofName? text.toLower with
  | none => .error ⟨text⟩
  | some n => .ok n

/-- The merkle root of the genesis transaction. -/
def genesisRoot : Hash where
  bytes := [
    0x3b, 0xa3, 0xed, 0xfd, 0x7a, 0x7b, 0x12, 0xb2, 0x7a, 0xc7, 0x2c, 0x3e, 0x67, 0x76, 0x8f, 0x61,
    0x7f, 0xc8, 0x1b, 0xc3, 0x88, 0x8a, 0x51, 0x32, 0x3a, 0x9f, 0xb8, 0xaa, 0x4b, 0x1e, 0x5e, 0x4a]
  length_bytes := rfl

def genesisRaw : Network → RawHeader
  | .bitcoin => ⟨1, .zero, genesisRoot, 1231006505, 0x1d00ffff, 2083236893⟩
  | .testnet3 => ⟨1, .zero, genesisRoot, 1296688602, 0x1d00ffff, 414098458⟩
  | .regtest => ⟨1, .zero, genesisRoot, 1296688602, 0x207fffff, 2⟩
  | .unittest => ⟨1, .zero, .zero, 1600000000, 0x207fffff, 0⟩

def genesisHash (n : Network) : Hash := n.genesisRaw.hash

/-- The genesis header, at height zero with its own work. -/
def genesis (n : Network) : Header :=
  { raw := n.genesisRaw, hash := n.genesisHash, height := 0
    work := (Target.workOfBits n.genesisRaw.bits).getD 0, own := .normal, inherited := .normal }

/-- The checkpoint that a network comes with: genesis, which is too low to be set. -/
def defaultCheckpoint (n : Network) : Checkpoint := ⟨⟨0, n.genesisHash⟩, .zero, .zero⟩

theorem genesis_eq (n : Network) : Header.genesis n.genesisRaw = .ok n.genesis := by
  cases n <;> rfl

end Network

end HeaderChain
