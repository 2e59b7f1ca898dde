import HeaderChain.Proofs.Choosing
import HeaderChain.Proofs.Joining

/-!
# Sound drafts

What holds of a draft between operations: the chain state of headers is exact, the edges are those
from headers without a place, the best chain is an optimal route, and the siblings are the losing
leaves. A header that has to wait changes the table and the edges only.
-/

namespace HeaderChain

/-- The forest after a link was brought: the first link for a hash stays. -/
def accept (f : Forest) (x : Link) : Forest := if (f x.hash).isSome then f else plant f x

def Store.Readable (s : Store) : Prop := ∀ k, s.hasHeader k = true → (s.header? k).isSome

/-- What holds of a draft between operations. -/
structure Draft.Sound (d : Draft) (g : Hash) (b : List Link) : Prop where
  readable : d.base.Readable
  exact : Exact d.header? g d.currentCheckpoint
  edges : d.EdgesExact
  follows : d.Follows b
  optimal : Optimal (forestOf d.header?) g d.currentCheckpoint b
  siblings : ∀ k, d.isSibling k = true ↔ Losing (forestOf d.header?) g b k

variable {f f' : Forest} {g k : Hash} {c : Position} {b r : List Link} {x : Link}

theorem accept_of_some {y : Link} (h : f x.hash = some y) : accept f x = f := by
  simp [accept, h]

theorem accept_of_none (h : f x.hash = none) : accept f x = plant f x := by
  simp [accept, h]

/-! ## Forests with the same routes -/

theorem Optimal.congr (hf : ∀ k r, Route f' g k r ↔ Route f g k r) (h : Optimal f g c b) :
    Optimal f' g c b := by
  constructor
  case route =>
    obtain ⟨k, hk⟩ := h.route
    exact ⟨k, (hf k b).mpr hk⟩
  case clear => exact h.clear
  case maximal =>
    intro k r hr
    exact h.maximal k r ((hf k r).mp hr)

/-- A leaf stays one when something is planted elsewhere. -/
theorem leaf_plant_iff (hx : f x.hash = none) (hr : Route f g k r) (hk : x.parent ≠ k) :
    Leaf (plant f x) g k ↔ Leaf f g k := by
  constructor
  · rintro ⟨-, hleaf⟩
    refine ⟨⟨r, hr⟩, ?_⟩
    intro a y ha
    exact hleaf a y (plant_of_some hx ha)
  · rintro ⟨-, hleaf⟩
    refine ⟨⟨r, hr.plant hx⟩, ?_⟩
    intro a y ha hy
    by_cases hax : a = x.hash
    · subst hax
      rw [plant_self] at ha
      cases ha
      exact absurd hy hk
    · rw [plant_of_ne hax] at ha
      exact hleaf a y ha hy

namespace Draft

variable {d e : Draft} {h : Header}

theorem hasHeader_iff (hd : d.base.Readable) : d.hasHeader k = true ↔ (d.header? k).isSome := by
  unfold hasHeader header?
  rw [Std.TreeMap.contains_eq_isSome_getElem?]
  cases d.headers[k]? with
  | some h => simp
  | none =>
    simp only [Option.isSome_none, Bool.false_or]
    refine ⟨hd k, fun hk => ?_⟩
    rw [Store.hasHeader, Store.contains_eq]
    exact Store.isSome_get?_of_header? hk

theorem Sound.best_unique {b' : List Link} (hd : d.Sound g b) (hd' : d.Sound g b') : b = b' := by
  obtain ⟨k, hk⟩ := hd.optimal.route
  obtain ⟨j, hj⟩ := hd'.optimal.route
  obtain ⟨x, s, rfl⟩ := List.exists_cons_of_ne_nil hk.ne_nil
  obtain ⟨y, t, rfl⟩ := List.exists_cons_of_ne_nil hj.ne_nil
  have htip := hd.follows.tip_eq
  rw [hd'.follows.tip_eq, Except.ok.injEq, Position.mk.injEq] at htip
  rw [← hk.hash_eq hd.exact.named] at hk
  rw [← hj.hash_eq hd.exact.named, htip.2] at hj
  exact hk.unique hj

/-! ## Waiting -/

theorem header?_addWaiting (hx : d.header? h.hash = none) :
    (d.addWaiting h).header? k = if h.hash = k then some h.disconnect else d.header? k := by
  rw [addWaiting, stageNew_eq hx]
  exact header?_restage

theorem isWaiting_addWaiting {edge : Edge} : (d.addWaiting h).isWaiting edge =
    (decide (⟨h.parent, h.hash⟩ = edge) || d.isWaiting edge) := by
  rw [addWaiting, isWaiting_detach]
  rfl

theorem forest_addWaiting (hx : d.header? h.hash = none) :
    forestOf (d.addWaiting h).header? = plant (forestOf d.header?) h.link := by
  funext k
  rw [forestOf, header?_addWaiting hx]
  by_cases hk : h.hash = k
  · rw [if_pos hk, ← hk]
    exact plant_self.symm
  · have hne : k ≠ h.link.hash := Ne.symm hk
    rw [if_neg hk, plant_of_ne hne]
    rfl

theorem EdgesExact.addWaiting (hd : d.EdgesExact) (hx : d.header? h.hash = none) :
    (d.addWaiting h).EdgesExact := by
  intro edge
  rw [isWaiting_addWaiting, Bool.or_eq_true, decide_eq_true_eq, hd, header?_addWaiting hx]
  constructor
  · rintro (rfl | ⟨v, hv, hwaits, hparent⟩)
    · exact ⟨h.disconnect, by simp, rfl, rfl⟩
    · have hne : h.hash ≠ edge.child := by
        intro heq
        rw [← heq, hx] at hv
        cases hv
      exact ⟨v, by rw [if_neg hne, hv], hwaits, hparent⟩
  · rintro ⟨v, hv, hwaits, hparent⟩
    split_ifs at hv with heq
    · cases hv
      exact .inl (Edge.ext hparent heq)
    · exact .inr ⟨v, hv, hwaits, hparent⟩

/-- What has no place in a sound draft has no route, also when its parent is not stored. -/
theorem Sound.no_route (hd : d.Sound g b)
    (hp : ∀ p, d.header? k = some p → p.isDisconnected = true) :
    ∀ r, ¬ Route (forestOf d.header?) g k r := by
  intro r hr
  obtain ⟨y, s, rfl⟩ := List.exists_cons_of_ne_nil hr.ne_nil
  obtain ⟨p, hk, -⟩ := forestOf_eq_some.mp hr.found
  exact (hd.exact.isDisconnected_iff hk).mp (hp p hk) _ hr

section Waiting

variable (hd : d.Sound g b) (hx : d.header? h.hash = none)
variable (hp : ∀ p, d.header? h.parent = some p → p.isDisconnected = true)

include hd hx hp

theorem Sound.route_addWaiting :
    Route (forestOf (d.addWaiting h).header?) g k r ↔ Route (forestOf d.header?) g k r := by
  have hnew : forestOf d.header? h.link.hash = none := forestOf_eq_none.mpr hx
  rw [forest_addWaiting hx]
  constructor
  · intro hr
    exact hr.of_plant_unrooted hnew hd.exact.rooted (hd.no_route hp)
  · intro hr
    exact hr.plant hnew

theorem Sound.exact_addWaiting : Exact (d.addWaiting h).header? g d.currentCheckpoint := by
  constructor
  case named =>
    rw [forest_addWaiting hx]
    exact hd.exact.named.plant
  case rooted =>
    obtain ⟨y, hy⟩ := hd.exact.genesis_route
    rw [((hd.route_addWaiting hx hp).mpr hy).found]
    rfl
  case placed =>
    intro k y r hr
    rw [hd.route_addWaiting hx hp] at hr
    have hold := hd.exact.placed hr
    have hne : h.hash ≠ k := by
      rintro rfl
      rw [hx] at hold
      cases hold
    rw [header?_addWaiting hx, if_neg hne, hold]
  case waiting =>
    intro k v hk hnone
    rw [header?_addWaiting hx] at hk
    split_ifs at hk with heq
    · cases hk
      rfl
    · exact hd.exact.waiting hk fun r hr => hnone r ((hd.route_addWaiting hx hp).mpr hr)

theorem Sound.losing_addWaiting :
    Losing (forestOf (d.addWaiting h).header?) g b k ↔ Losing (forestOf d.header?) g b k := by
  have hnew : forestOf d.header? h.link.hash = none := forestOf_eq_none.mpr hx
  have hleaf {r : List Link} (hr : Route (forestOf d.header?) g k r) :
      Leaf (forestOf (d.addWaiting h).header?) g k ↔ Leaf (forestOf d.header?) g k := by
    rw [forest_addWaiting hx]
    apply leaf_plant_iff hnew hr
    rintro rfl
    exact hd.no_route hp r hr
  constructor
  · rintro ⟨hk, hoff⟩
    obtain ⟨r, hr⟩ := hk.route
    exact ⟨(hleaf ((hd.route_addWaiting hx hp).mp hr)).mp hk, hoff⟩
  · rintro ⟨hk, hoff⟩
    obtain ⟨r, hr⟩ := hk.route
    exact ⟨(hleaf hr).mpr hk, hoff⟩

theorem Sound.addWaiting : (d.addWaiting h).Sound g b := by
  constructor
  case readable => exact hd.readable
  case exact => exact hd.exact_addWaiting hx hp
  case edges => exact hd.edges.addWaiting hx
  case follows => exact hd.follows.congr rfl rfl rfl
  case optimal => exact hd.optimal.congr fun k r => hd.route_addWaiting hx hp
  case siblings =>
    intro k
    rw [hd.losing_addWaiting hx hp]
    exact hd.siblings k

end Waiting

/-! ## Choosing -/

/-- Fork choice makes a draft sound whose table and edges are exact. -/
theorem Chosen.sound {b' : List Link} (hc : d.Chosen g r b' e) (hreadable : d.base.Readable)
    (hexact : Exact d.header? g d.currentCheckpoint) (hedges : d.EdgesExact) : e.Sound g b' := by
  obtain ⟨htree, hfollows, hoptimal, -, hsiblings⟩ := hc
  constructor
  case readable =>
    rw [htree.base]
    exact hreadable
  case exact =>
    rw [htree.header?, htree.currentCheckpoint]
    exact hexact
  case edges =>
    unfold EdgesExact
    rw [htree.header?, htree.isWaiting]
    exact hedges
  case follows => exact hfollows
  case optimal =>
    rw [htree.header?, htree.currentCheckpoint]
    exact hoptimal
  case siblings =>
    rw [htree.header?]
    exact hsiblings

end Draft

end HeaderChain
