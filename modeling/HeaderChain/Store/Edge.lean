import HeaderChain.Hash

/-!
# Waiting edges

A header whose parent has no place in the tree yet waits under it. An edge names the two; edges
are ordered by parent and then by child, which is also the order of their 64 bytes.
-/

namespace HeaderChain

/-- A header that waits, and the parent that it waits for. -/
structure Edge where
  parent : Hash
  child : Hash
deriving DecidableEq

namespace Edge

def bytes (e : Edge) : Bytes := e.parent.bytes ++ e.child.bytes

def ofBytes? (bytes : Bytes) : Option Edge :=
  if h : bytes.length = 64 then
    some ⟨⟨bytes.take 32, by simp [h]⟩, ⟨bytes.drop 32, by simp [h]⟩⟩
  else none

instance : Ord Edge := ⟨compareLex (compareOn Edge.parent) (compareOn Edge.child)⟩

theorem compare_def (a b : Edge) :
    compare a b = (compare a.parent b.parent).then (compare a.child b.child) := rfl

theorem ext {a b : Edge} (hp : a.parent = b.parent) (hc : a.child = b.child) : a = b := by
  cases a; cases b; cases hp; cases hc; rfl

instance : Std.TransOrd Edge :=
  inferInstanceAs (Std.TransCmp (compareLex (compareOn Edge.parent) (compareOn Edge.child)))

instance : Std.LawfulEqOrd Edge where
  eq_of_compare h := by
    rw [compare_def, Ordering.then_eq_eq] at h
    exact ext (Std.LawfulEqOrd.eq_of_compare h.1) (Std.LawfulEqOrd.eq_of_compare h.2)

@[simp] theorem length_bytes (e : Edge) : e.bytes.length = 64 := by
  simp [bytes, Hash.length_bytes]

@[simp] theorem ofBytes?_bytes (e : Edge) : ofBytes? e.bytes = some e := by
  obtain ⟨⟨parent, hp⟩, ⟨child, hc⟩⟩ := e
  simp [ofBytes?, bytes, hp, hc]

end Edge

end HeaderChain
