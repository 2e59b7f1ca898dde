import HeaderChain.Hash

/-!
# Positions

A position names a block by its height and its hash. Genesis has height zero; the height -1 marks
what has no place in a chain.
-/

namespace HeaderChain

/-- The distance of a block from genesis, or -1 for a block that has none. -/
abbrev Height := Int

/-- The height of what has no place in a chain. -/
def Height.blank : Height := -1

/-- The greatest height there is: heights have 64 bits, one of them for the sign. -/
def Height.greatest : Height := 0x7fffffffffffffff

structure Position where
  height : Height
  hash : Hash
deriving DecidableEq, Inhabited

namespace Position

/-- Stands where there is no block. -/
def blank : Position := ⟨Height.blank, .zero⟩

def isBlank (p : Position) : Bool := p == blank

/-- The height and the first sixteen digits of the hash. -/
def summary (p : Position) : String := toString p.height ++ ":" ++ p.hash.short

@[simp] theorem isBlank_blank : blank.isBlank = true := by simp [isBlank]

theorem isBlank_iff {p : Position} : p.isBlank = true ↔ p = blank := by simp [isBlank]

end Position

end HeaderChain
