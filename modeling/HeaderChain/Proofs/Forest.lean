import HeaderChain.Proofs.Route

/-!
# Growing forests

A link that is planted in a forest gives routes to itself and to all that hangs on it, and changes
no other route. A leaf is a header with a route that no other link hangs on; where the length of
routes is bounded, every route can be followed upward to a leaf.
-/

namespace HeaderChain

def plant (f : Forest) (x : Link) : Forest := fun k => if k = x.hash then some x else f k

/-- A header with a route that is the parent of none; genesis has no parent. -/
def Leaf (f : Forest) (g k : Hash) : Prop :=
  (∃ r, Route f g k r) ∧ ∀ a y, f a = some y → y.parent = k → a = g

variable {f : Forest} {g k : Hash} {r : List Link} {x : Link}

theorem plant_self : plant f x x.hash = some x := by simp [plant]

theorem plant_of_ne (h : k ≠ x.hash) : plant f x k = f k := by simp [plant, h]

theorem plant_of_some {y : Link} (hx : f x.hash = none) (h : f k = some y) :
    plant f x k = some y := by
  rw [plant_of_ne, h]
  rintro rfl
  simp [hx] at h

theorem Named.plant (hn : Named f) : Named (plant f x) := by
  intro k y h
  by_cases hk : k = x.hash
  · subst hk
    rw [plant_self] at h
    cases h
    rfl
  · rw [plant_of_ne hk] at h
    exact hn k y h

theorem Route.plant (hx : f x.hash = none) (h : Route f g k r) : Route (plant f x) g k r :=
  h.mono fun _ _ => plant_of_some hx

/-- A route in the larger forest is an old one, or goes through the new link. -/
theorem Route.of_plant (hx : f x.hash = none) (hg : (f g).isSome)
    (h : Route (HeaderChain.plant f x) g k r) :
    Route f g k r ∨ ∃ base, Route f g x.parent base ∧ x :: base <:+ r := by
  have hne : x.hash ≠ g := by
    rintro rfl
    simp [hx] at hg
  induction h with
  | genesis found =>
    rw [plant_of_ne hne.symm] at found
    exact .inl (.genesis found)
  | @child k y rest other found up ih =>
    rcases ih with hold | ⟨base, hbase, hs⟩
    · by_cases hk : k = x.hash
      · subst hk
        rw [plant_self] at found
        cases found
        exact .inr ⟨rest, hold, List.suffix_refl _⟩
      · rw [plant_of_ne hk] at found
        exact .inl (.child other found hold)
    · exact .inr ⟨base, hbase, hs.trans (List.suffix_cons _ _)⟩

/-- Nothing new gets a route from a link whose parent has none. -/
theorem Route.of_plant_unrooted (hx : f x.hash = none) (hg : (f g).isSome)
    (hp : ∀ base, ¬ Route f g x.parent base) (h : Route (HeaderChain.plant f x) g k r) :
    Route f g k r := by
  rcases h.of_plant hx hg with h | ⟨base, hbase, _⟩
  · exact h
  · exact absurd hbase (hp base)

/-! ## Leaves -/

theorem Leaf.route (h : Leaf f g k) : ∃ r, Route f g k r := h.1

/-- On a route, only the first link can be a leaf. -/
theorem Leaf.eq_of_mem (hn : Named f) (h : Leaf f g x.hash) {s : List Link}
    (hr : Route f g k r) (hs : x :: s <:+ r) : r = x :: s := by
  induction hr with
  | genesis found =>
    rcases List.suffix_cons_iff.mp hs with heq | hs
    · exact heq.symm
    · simp at hs
  | @child k y rest other found up ih =>
    rcases List.suffix_cons_iff.mp hs with heq | hs
    · exact heq.symm
    · have hrest := ih hs
      have hparent : y.parent = x.hash := by
        rw [hrest] at up
        exact (up.hash_eq hn).symm
      exact absurd (h.2 k y found hparent) other

theorem Leaf.eq_of_suffix {j : Hash} {s : List Link} (hn : Named f) (h : Leaf f g k)
    (hk : Route f g k s) (hr : Route f g j r) (hs : s <:+ r) : k = j ∧ r = s := by
  obtain ⟨x, s, rfl⟩ := List.exists_cons_of_ne_nil hk.ne_nil
  have hsame := Leaf.eq_of_mem hn (hk.hash_eq hn ▸ h) hr hs
  subst hsame
  exact ⟨hk.target_unique hn hr, rfl⟩

theorem Route.exists_leaf {n : ℕ} (hn : ∀ k r, Route f g k r → r.length ≤ n)
    (h : Route f g k r) : ∃ b s, Route f g b s ∧ Leaf f g b ∧ r <:+ s := by
  -- The longer a route is, the fewer links can still follow it.
  induction hm : n - r.length generalizing k r with
  | zero =>
    refine ⟨k, r, h, ⟨⟨r, h⟩, ?_⟩, List.suffix_refl r⟩
    intro a y found hy
    by_contra hne
    subst hy
    have hlen := hn _ _ (.child hne found h)
    simp only [List.length_cons] at hlen
    omega
  | succ m ih =>
    by_cases hleaf : Leaf f g k
    · exact ⟨k, r, h, hleaf, List.suffix_refl r⟩
    · have : ∃ a y, f a = some y ∧ y.parent = k ∧ a ≠ g := by
        by_contra hnone
        push Not at hnone
        exact hleaf ⟨⟨r, h⟩, hnone⟩
      obtain ⟨a, y, found, rfl, hne⟩ := this
      have hup : Route f g a (y :: r) := .child hne found h
      obtain ⟨b, s, hs, hb, hsuffix⟩ := ih hup (by rw [List.length_cons]; omega)
      exact ⟨b, s, hs, hb, (List.suffix_cons y r).trans hsuffix⟩

end HeaderChain
