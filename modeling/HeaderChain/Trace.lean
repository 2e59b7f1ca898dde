import HeaderChain.Header

/-!
# Walks over parents

A trace goes from a header to its parent again and again and keeps the positions that it leaves
behind, highest first. It ends at the first header where it is told to stop. How many headers
there can be bounds its length: one that goes on after that has met a header twice and would never
end, which is an error.
-/

namespace HeaderChain

/-- Whether a header has no parent in the tree. -/
def Header.isRoot (h : Header) : Bool := h.height ≤ 0 || h.isDisconnected

/-- Where a trace ended, and the positions before that, highest first. -/
structure Trace where
  passed : List Position
  last : Header

namespace Trace

/-- Walks from `cursor` to the first header where `stop` holds. Parents come from `read`. A walk that
is still on its way after `bound` parents fails as `endless`. -/
def run {ε : Type} (endless : ε) (read : Hash → Except ε Header) (stop : Header → Bool) :
    (bound : Nat) → (cursor : Header) → Except ε Trace
  | 0, cursor => if stop cursor then .ok ⟨[], cursor⟩ else .error endless
  | bound + 1, cursor =>
    if stop cursor then .ok ⟨[], cursor⟩
    else do
      let parent ← read cursor.parent
      let t ← run endless read stop bound parent
      return { t with passed := cursor.position :: t.passed }

variable {ε : Type} {endless : ε} {read : Hash → Except ε Header} {stop : Header → Bool}

theorem run_of_stop {bound : Nat} {cursor : Header} (h : stop cursor = true) :
    run endless read stop bound cursor = .ok ⟨[], cursor⟩ := by
  cases bound <;> simp [run, h]

/-- A trace that ends has reached a header where it was told to stop. -/
theorem stop_last {bound : Nat} {cursor : Header} {t : Trace}
    (h : run endless read stop bound cursor = .ok t) : stop t.last = true := by
  induction bound generalizing cursor t with
  | zero =>
    unfold run at h
    split at h
    · cases h
      assumption
    · cases h
  | succ bound ih =>
    unfold run at h
    split at h
    · cases h
      assumption
    · cases hparent : read cursor.parent with
      | error e => simp [hparent, bind, Except.bind] at h
      | ok parent =>
        cases hrest : run endless read stop bound parent with
        | error e => simp [hparent, hrest, bind, Except.bind] at h
        | ok rest =>
          simp only [hparent, hrest, bind, Except.bind, pure, Except.pure] at h
          cases h
          exact ih (t := rest) hrest

end Trace

end HeaderChain
