import Std.Data.TreeSet

/-!
# Changes to a set

What is to be added to a set and what is to be removed from it. A later change to a member
replaces an earlier one, so the two never share a member.
-/

namespace HeaderChain

structure Changes (α : Type) [Ord α] where
  added : Std.TreeSet α := ∅
  removed : Std.TreeSet α := ∅

namespace Changes

variable {α : Type} [Ord α]

def add (c : Changes α) (x : α) : Changes α := ⟨c.added.insert x, c.removed.erase x⟩

def remove (c : Changes α) (x : α) : Changes α := ⟨c.added.erase x, c.removed.insert x⟩

/-- Whether `x` is a member after the changes, when `before` says whether it was one. -/
def holds (c : Changes α) (x : α) (before : Bool) : Bool :=
  c.added.contains x || (!c.removed.contains x && before)

/-- The members after the changes in ascending order, when `before` lists those before them. -/
def apply (c : Changes α) (before : List α) : List α :=
  (c.added.insertMany (before.filter fun x => !c.removed.contains x)).toList

@[simp] theorem holds_empty (x : α) (before : Bool) :
    (⟨∅, ∅⟩ : Changes α).holds x before = before := by
  simp [holds]

variable [DecidableEq α] [Std.TransOrd α] [Std.LawfulEqOrd α]

theorem holds_add (c : Changes α) (x y : α) (before : Bool) :
    (c.add x).holds y before = if x = y then true else c.holds y before := by
  by_cases h : x = y
  · simp [holds, add, h]
  · have hc : (compare x y == .eq) = false := by simpa using h
    simp [holds, add, Std.TreeSet.contains_insert, h, hc, bne]

theorem holds_remove (c : Changes α) (x y : α) (before : Bool) :
    (c.remove x).holds y before = if x = y then false else c.holds y before := by
  by_cases h : x = y
  · simp [holds, remove, h]
  · have hc : (compare x y == .eq) = false := by simpa using h
    simp [holds, remove, Std.TreeSet.contains_insert, h, hc, bne]

theorem mem_apply (c : Changes α) (x : α) (before : List α) :
    x ∈ c.apply before ↔ x ∈ c.added ∨ (x ∈ before ∧ x ∉ c.removed) := by
  simp [apply, ← Std.TreeSet.contains_iff_mem]

end Changes

end HeaderChain
