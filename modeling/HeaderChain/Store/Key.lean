import HeaderChain.Position
import HeaderChain.Store.Edge

/-!
# Keys of stored records

All records of a chain share one ordered map, whose keys start with the label of a table. Headers,
waiting edges and siblings are found by their bytes, the best chain by height, most significant
byte first, so that its keys are ordered as its heights are. Three records stand alone.
-/

namespace HeaderChain

/-- What a stored record is about. -/
inductive Key where
  | header (hash : Hash)
  | best (height : Height)
  | edge (edge : Edge)
  | sibling (hash : Hash)
  | tip
  | checkpoint
  | network
deriving DecidableEq

namespace Key

/-- The bytes of characters below 256. -/
def label (cs : List Char) : Bytes := cs.map Char.toUInt8

def headers : Bytes := label ['h', 'd', 'r', ':']

def bests : Bytes := label ['b', 's', 't', ':']

def edges : Bytes := label ['d', 'i', 's', ':']

def siblings : Bytes := label ['s', 'i', 'b', ':']

/-- The label of the records that stand alone. -/
def singles : Bytes := label ['m', 'e', 't', 'a', ':']

def bytes : Key → Bytes
  | header h => headers ++ h.bytes
  | best height => bests ++ Bytes.bigEndian 8 (Bytes.residue 8 height)
  | edge e => edges ++ e.bytes
  | sibling h => siblings ++ h.bytes
  | tip => singles ++ label ['t', 'i', 'p']
  | checkpoint => singles ++ label ['c', 'h', 'e', 'c', 'k', 'p', 'o', 'i', 'n', 't']
  | network => singles ++ label ['c', 'h', 'a', 'i', 'n']

end Key

end HeaderChain
