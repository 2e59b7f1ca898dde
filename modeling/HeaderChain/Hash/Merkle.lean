import HeaderChain.Hash

/-!
# Merkle roots

The transactions of a block are committed to by the root of a binary tree of hashes. Every level
pairs up the hashes of the one below; a level of odd size pairs its last hash with itself.
-/

namespace HeaderChain.Merkle

/-- The hash of two neighbouring hashes. -/
def parent (left right : Hash) : Hash := Hash.ofData (left.bytes ++ right.bytes)

def pairUp : List Hash → List Hash
  | [] => []
  | [last] => [parent last last]
  | a :: b :: rest => parent a b :: pairUp rest

theorem length_pairUp : ∀ level, (pairUp level).length = (level.length + 1) / 2
  | [] => rfl
  | [_] => by simp [pairUp]
  | a :: b :: rest => by
    simp only [pairUp, List.length_cons, length_pairUp rest]
    omega

/-- The root over a level; no hashes at all have the zero hash as their root. -/
def root : List Hash → Hash
  | [] => .zero
  | [h] => h
  | a :: b :: rest => root (pairUp (a :: b :: rest))
termination_by level => level.length
decreasing_by
  simp only [length_pairUp, List.length_cons]
  omega

@[simp] theorem root_nil : root [] = .zero := by unfold root; rfl

@[simp] theorem root_singleton (h : Hash) : root [h] = h := by unfold root; rfl

theorem root_pairUp (a b : Hash) (rest : List Hash) :
    root (a :: b :: rest) = root (pairUp (a :: b :: rest)) := by
  rw [root]

end HeaderChain.Merkle
