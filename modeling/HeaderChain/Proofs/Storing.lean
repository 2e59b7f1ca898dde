import HeaderChain.Proofs.Sound
import HeaderChain.Proofs.Writing

/-!
# Storing a draft

What a draft shows is what its commit stores: under every key lies the record of what the draft
shows there, and there are no other records. A store that shows what a sound draft shows is sound
itself, and its records are determined by what it shows.
-/

namespace HeaderChain

/-- The record that is stored under a key for what a draft shows. -/
def Draft.record? (d : Draft) (n : Network) : Key → Option Bytes
  | .header k => (d.header? k).map Header.toRecord
  | .best height => (d.bestAt? height).map Hash.bytes
  | .edge e => if d.isWaiting e = true then some [] else none
  | .sibling k => if d.isSibling k = true then some [] else none
  | .tip => some (Store.heightRecord d.tipHeight)
  | .checkpoint =>
    if d.currentCheckpoint.isBlank = true then none else some d.currentCheckpoint.toRecord
  | .network => some [n.tag]

/-- The store has the records for what a draft shows, and no others. -/
structure Store.Holds (s : Store) (d : Draft) (n : Network) : Prop where
  keyed : s.Keyed
  get? : ∀ k : Key, k.Proper → s.get? k = d.record? n k

/-- The records of the store are those for what it shows. -/
def Store.Canonical (s : Store) (n : Network) : Prop := s.Holds { base := s } n

variable {s s' : Store} {d e : Draft} {n : Network} {g : Hash} {b : List Link}

/-! ## What a store shows -/

structure Draft.Fits (d : Draft) : Prop where
  header : ∀ k h, d.header? k = some h → h.Storable
  tip : d.tipHeight ≤ Height.greatest
  checkpoint : d.currentCheckpoint.height.Fits

structure Store.Shows (s : Store) (d : Draft) : Prop where
  header? : s.header? = d.header?
  bestAt? : s.bestAt? = d.bestAt?
  isWaiting : s.isWaiting = d.isWaiting
  isSibling : s.isSibling = d.isSibling
  tipHeight : s.tipHeight = d.tipHeight
  checkpoint : s.checkpoint = d.currentCheckpoint

theorem Store.Holds.readable (h : s.Holds d n) (hs : s.Shows d) : s.Readable := by
  intro k hk
  rw [hs.header?]
  rw [Store.hasHeader, Store.contains_eq, h.get? (.header k) trivial] at hk
  simpa [Draft.record?] using hk

namespace Store.Shows

theorem refl (s : Store) : s.Shows { base := s } := by
  constructor
  case header? => rw [Draft.header?_mk]
  case bestAt? => rw [Draft.bestAt?_mk]
  case isWaiting =>
    funext e
    exact (Changes.holds_empty e _).symm
  case isSibling =>
    funext k
    exact (Changes.holds_empty k _).symm
  case tipHeight => rw [Draft.tipHeight_mk]
  case checkpoint => rfl

theorem siblings (h : s.Shows d) : s.siblings = d.allSiblings :=
  s.ascending_siblings.ext d.ascending_allSiblings fun k => by
    rw [mem_siblings, Draft.mem_allSiblings, h.isSibling]

theorem waiting (h : s.Shows d) : s.waiting = d.waiting :=
  s.ascending_waiting.ext d.ascending_waiting fun edge => by
    rw [mem_waiting, Draft.mem_waiting, h.isWaiting]

theorem waitingFor (h : s.Shows d) (parent : Hash) : s.waitingFor parent = d.waitingFor parent :=
  (s.ascending_waitingFor parent).ext (d.ascending_waitingFor parent) fun child => by
    rw [mem_waitingFor, Draft.mem_waitingFor, h.isWaiting]

theorem blank_header? (h : s.Shows d) : ({ base := s } : Draft).header? = d.header? := by
  rw [Draft.header?_mk, h.header?]

theorem blank_bestAt? (h : s.Shows d) : ({ base := s } : Draft).bestAt? = d.bestAt? := by
  rw [Draft.bestAt?_mk, h.bestAt?]

theorem blank_isWaiting (h : s.Shows d) : ({ base := s } : Draft).isWaiting = d.isWaiting := by
  funext e
  rw [← h.isWaiting]
  exact Changes.holds_empty e _

theorem blank_isSibling (h : s.Shows d) : ({ base := s } : Draft).isSibling = d.isSibling := by
  funext k
  rw [← h.isSibling]
  exact Changes.holds_empty k _

theorem record?_eq (h : s.Shows d) : ({ base := s } : Draft).record? n = d.record? n := by
  have hcheckpoint : ({ base := s } : Draft).currentCheckpoint = d.currentCheckpoint := h.checkpoint
  funext k
  cases k <;> simp only [Draft.record?, h.blank_header?, h.blank_bestAt?, h.blank_isWaiting,
    h.blank_isSibling, Draft.tipHeight_mk, h.tipHeight, hcheckpoint]

theorem continuous (h : s.Shows d) (hd : d.Continuous) : s.Continuous := by
  obtain ⟨h₀, h₁⟩ := hd.keptHeight_le
  constructor
  · rw [h.tipHeight]
    exact h₀.trans h₁
  · intro height
    rw [h.bestAt?, h.tipHeight]
    exact hd.isSome_bestAt?

theorem follows (h : s.Shows d) (hd : d.Follows b) : ({ base := s } : Draft).Follows b := by
  constructor
  · exact Draft.continuous_mk (h.continuous hd.continuous)
  · rw [h.blank_bestAt?]
    exact hd.bestAt

/-- A draft over a store that shows a sound draft is sound. -/
theorem sound (h : s.Shows d) (hs : s.Readable) (hd : d.Sound g b) :
    ({ base := s } : Draft).Sound g b := by
  have hcheckpoint : ({ base := s } : Draft).currentCheckpoint = d.currentCheckpoint := h.checkpoint
  constructor
  case readable => exact hs
  case exact =>
    rw [h.blank_header?, hcheckpoint]
    exact hd.exact
  case edges =>
    unfold Draft.EdgesExact
    rw [h.blank_header?, h.blank_isWaiting]
    exact hd.edges
  case follows => exact h.follows hd.follows
  case optimal =>
    rw [h.blank_header?, hcheckpoint]
    exact hd.optimal
  case siblings =>
    rw [h.blank_header?, h.blank_isSibling]
    exact hd.siblings

end Store.Shows

end HeaderChain
