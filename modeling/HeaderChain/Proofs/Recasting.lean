import HeaderChain.Proofs.Sound

/-!
# Recasting candidates

A checkpoint says something about one height only, so chain state below that height is the same
with and without it. When it changes, the candidate of every tip is walked down to below the
checkpoint, and the headers on the candidates are connected again from there upward. Each of them
then has the chain state that its route and the new checkpoint give it.
-/

namespace HeaderChain

open Contest

/-! ## Below the checkpoint -/

/-- The checkpoint says something about no height but `n`. -/
def Position.Concerns (c : Position) (n : ℕ) : Prop := c.height < 0 ∨ c.height = n

variable {c c' : Position} {n : ℕ} {x y z : Link} {b r s R : List Link} {g k l : Hash}

theorem standing_of_ne (h : c.height ≠ s.length) : x.standing s.length c = .normal := if_pos h

theorem conflicts_iff : conflicts c r = true ↔
    ∃ z t, z :: t <:+ r ∧ z.standing t.length c = .banned := by
  induction r with
  | nil => simp [conflicts]
  | cons x r ih =>
    simp only [conflicts, Bool.or_eq_true, beq_iff_eq, ih, List.suffix_cons_iff]
    constructor
    · rintro (hx | ⟨z, t, hs, hz⟩)
      · exact ⟨x, r, .inl rfl, hx⟩
      · exact ⟨z, t, .inr hs, hz⟩
    · rintro ⟨z, t, heq | hs, hz⟩
      · cases heq
        exact .inl hz
      · exact .inr ⟨z, t, hs, hz⟩

theorem height_of_banned (h : z.standing n c = .banned) : c.height = n := by
  by_contra hne
  rw [Link.standing, if_pos hne] at h
  cases h

theorem Position.Concerns.clear (hc : c.Concerns n) (hr : r.length ≤ n) :
    conflicts c r = false := by
  by_contra h
  rw [Bool.not_eq_false, conflicts_iff] at h
  obtain ⟨z, t, hs, hz⟩ := h
  have hheight := height_of_banned hz
  have hlen := hs.length_le
  rw [List.length_cons] at hlen
  rcases hc with hneg | heq <;> lia

theorem Position.Concerns.placed_eq (hc : c.Concerns n) (hc' : c'.Concerns n) (hr : r.length < n) :
    x.placed c r = x.placed c' r := by
  have hne {c : Position} (hc : c.Concerns n) : c.height ≠ r.length := by
    rcases hc with hneg | heq <;> lia
  simp only [Link.placed, standing_of_ne (hne hc), standing_of_ne (hne hc'), hc.clear hr.le,
    hc'.clear hr.le]

/-! ## Walking down -/

/-- The parts of a route on which a candidate stands that starts above the part `R` of the best
chain: what the route shares with `R`, and what it has on top of that. -/
structure Stands (f : Forest) (g : Hash) (R : List Link) (k : Hash) (part : List Link × List Link) :
    Prop where
  route : Route f g k (part.2.reverse ++ part.1)
  suffix : part.1 <:+ R
  ne_nil : part.1 ≠ []
  longest : ∀ s, s <:+ part.2.reverse ++ part.1 → s <:+ R → s <:+ part.1

def Covers (f : Forest) (g : Hash) (R : List Link) : (ks : List Hash) →
    (parts : List (List Link × List Link)) → Prop := List.Forall₂ (Stands f g R)

section Covers

variable {f : Forest} {ks : List Hash} {part part' : List Link × List Link}
variable {parts parts' : List (List Link × List Link)}

theorem Stands.unique (h : Stands f g R k part) (h' : Stands f g R k part') : part = part' := by
  have hsame := h.route.unique h'.route
  have hforks : Forks (part.2.reverse ++ part.1) R part.2 part.1 := ⟨rfl, h.suffix, h.longest⟩
  have hforks' : Forks (part.2.reverse ++ part.1) R part'.2 part'.1 :=
    ⟨hsame, h'.suffix, hsame ▸ h'.longest⟩
  obtain ⟨hup, hbase⟩ := hforks.unique hforks'
  exact Prod.ext hbase hup

theorem Covers.unique (h : Covers f g R ks parts) (h' : Covers f g R ks parts') :
    parts = parts' := by
  have hunique : Relator.RightUnique (Stands f g R) := fun _ _ _ hpart hpart' => hpart.unique hpart'
  exact hunique.forall₂ h h'

theorem Covers.exists_part (h : Covers f g R ks parts) (hk : k ∈ ks) :
    ∃ part ∈ parts, Stands f g R k part := by
  induction h with
  | nil => cases hk
  | @cons j part ks parts hpart _ ih =>
    rcases List.mem_cons.mp hk with rfl | hk
    · exact ⟨part, List.mem_cons_self, hpart⟩
    · obtain ⟨part', hmem, hstands⟩ := ih hk
      exact ⟨part', List.mem_cons_of_mem part hmem, hstands⟩

theorem Covers.exists_tip (h : Covers f g R ks parts) (hpart : part ∈ parts) :
    ∃ k ∈ ks, Stands f g R k part := by
  induction h with
  | nil => cases hpart
  | @cons j part₀ ks parts hstands _ ih =>
    rcases List.mem_cons.mp hpart with rfl | hpart
    · exact ⟨j, List.mem_cons_self, hstands⟩
    · obtain ⟨k, hmem, hk⟩ := ih hpart
      exact ⟨k, List.mem_cons_of_mem j hmem, hk⟩

end Covers

/-- The candidate of a part before its flag is known. -/
def unflagged (part : List Link × List Link) : Candidate := ⟨false, (ascend part.1 part.2).reverse⟩

def flagged (c : Position) (part : List Link × List Link) : Candidate :=
  ⟨!part.2.isEmpty && conflicts c (part.2.reverse ++ part.1), (ascend part.1 part.2).reverse⟩

theorem Stands.branches {f : Forest} {part : List Link × List Link} (h : Stands f g R k part) :
    (flagged c part).Branches f g c R part.1 part.2 := by
  refine ⟨⟨k, h.route⟩, h.suffix, h.ne_nil, List.reverse_reverse _, ?_⟩
  intro hne
  simp [flagged, hne]

namespace Draft

variable {d e : Draft}

theorem candidateBelow_spec (ht : Exact d.header? g c) (hb : Route (forestOf d.header?) g l b)
    (hfollows : d.Follows b) (hR : R <:+ b) (hne : R ≠ [])
    (hk : Route (forestOf d.header?) g k r) :
    ∃ part, d.candidateBelow k R.length = .ok (unflagged part) ∧
      Stands (forestOf d.header?) g R k part := by
  obtain ⟨y, r, rfl⟩ := List.exists_cons_of_ne_nil hk.ne_nil
  have hpos : 0 < R.length := List.length_pos_of_ne_nil hne
  obtain ⟨w, hw, ⟨up, base, z, hsplit, hpassed, hlast, hmet, habove⟩⟩ :=
    trace_route ht (fun h => decide (h.height < R.length) && d.onBest h.position || h.isRoot)
      (by simp) hk
  have honBest {x : Link} {s : List Link} (hs : x :: s <:+ y :: r) :
      d.onBest ⟨s.length, x.hash⟩ = true ↔ x :: s <:+ b := by
    rw [hfollows.onBest_iff, (hk.of_suffix ht.named hs).mem_positions_iff ht.named hb]
  have hbase : z :: base <:+ y :: r := ⟨_, hsplit.symm⟩
  have hz : Route (forestOf d.header?) g z.hash (z :: base) := hk.of_suffix ht.named hbase
  have hon := honBest hbase
  have hmeets : base.length < R.length ∧ z :: base <:+ b := by
    rw [hlast] at hmet
    simp only [height_placed, position_placed, isRoot_placed, Bool.or_eq_true, Bool.and_eq_true,
      decide_eq_true_eq, Nat.cast_lt, List.isEmpty_iff, hon] at hmet
    rcases hmet with hmet | rfl
    · exact hmet
    · -- The walk has come down to genesis.
      exact ⟨hpos, hz.singleton_suffix hb⟩
  refine ⟨(z :: base, up), ?_, ?_, ?_, List.cons_ne_nil z base, ?_⟩
  · simp only [candidateBelow, header_eq (ht.placed hk), bind, Except.bind, hw, hlast,
      height_placed, position_placed]
    have hlt : (base.length : Height) < R.length := Nat.cast_lt.mpr hmeets.1
    rw [if_pos (by simp [hlt, hon.mpr hmeets.2])]
    simp [unflagged, hpassed]
    rfl
  · rw [← hsplit]
    exact hk
  · exact List.suffix_of_suffix_length_le hmeets.2 hR hmeets.1
  · intro s hs hsR
    rw [← hsplit] at hs
    cases s with
    | nil => exact List.nil_suffix
    | cons x s =>
      have hle : s.length ≤ base.length := by
        by_contra hlt
        have hoff := habove x s hs (not_le.mp hlt)
        have hlen : (s.length : Height) < R.length := Nat.cast_lt.mpr hsR.length_le
        simp [hlen, (honBest hs).mpr (hsR.trans hR)] at hoff
      exact List.suffix_of_suffix_length_le hs hbase (by simpa using hle)

/-- All tips have candidates. -/
theorem siblingCandidates_spec (ht : Exact d.header? g c) (hb : Route (forestOf d.header?) g l b)
    (hfollows : d.Follows b) (hR : R <:+ b) (hne : R ≠ []) {ks : List Hash}
    (hks : ∀ k ∈ ks, ∃ r, Route (forestOf d.header?) g k r) :
    ∃ parts, d.siblingCandidates R.length ks = .ok (parts.map unflagged) ∧
      Covers (forestOf d.header?) g R ks parts := by
  induction ks with
  | nil => exact ⟨[], rfl, .nil⟩
  | cons k ks ih =>
    obtain ⟨r, hr⟩ := hks k (by simp)
    obtain ⟨part, hpart, hstands⟩ := candidateBelow_spec ht hb hfollows hR hne hr
    obtain ⟨parts, hparts, hall⟩ := ih fun k hk => hks k (List.mem_cons_of_mem _ hk)
    refine ⟨part :: parts, ?_, .cons hstands hall⟩
    rw [siblingCandidates, hpart]
    simp only [hparts, bind, Except.bind]
    rfl

/-! ## Connecting again -/

/-- The headers `ks` have the chain state of their routes now, and the others are as they were. -/
structure Recast (d : Draft) (g : Hash) (ks : Hash → Prop) (e : Draft) : Prop where
  frame : ∃ headers, e = { d with headers }
  same : ∀ k, ¬ ks k → e.header? k = d.header? k
  placed : ∀ k x r, ks k → Route (forestOf d.header?) g k (x :: r) →
    e.header? k = some (x.placed d.currentCheckpoint r)
  routed : ∀ k, ks k → ∃ r, Route (forestOf d.header?) g k r

variable {ks ks' : Hash → Prop}

theorem Recast.refl (d : Draft) (g : Hash) : d.Recast g (fun _ => False) d :=
  ⟨⟨_, rfl⟩, fun _ _ => rfl, fun _ _ _ h => h.elim, fun _ h => h.elim⟩

theorem Recast.currentCheckpoint (h : d.Recast g ks e) :
    e.currentCheckpoint = d.currentCheckpoint := by
  obtain ⟨_, rfl⟩ := h.frame
  rfl

theorem Recast.forest (h : d.Recast g ks e) : forestOf e.header? = forestOf d.header? := by
  funext k
  by_cases hk : ks k
  · obtain ⟨r, hr⟩ := h.routed k hk
    obtain ⟨x, r, rfl⟩ := List.exists_cons_of_ne_nil hr.ne_nil
    rw [hr.found, forestOf, h.placed k x r hk hr]
    rfl
  · rw [forestOf, h.same k hk, forestOf]

theorem Recast.trans {e' : Draft} (h : d.Recast g ks e) (h' : e.Recast g ks' e') :
    d.Recast g (fun k => ks k ∨ ks' k) e' := by
  have hforest := h.forest
  constructor
  case frame =>
    obtain ⟨_, he⟩ := h.frame
    obtain ⟨_, he'⟩ := h'.frame
    exact ⟨_, by rw [he', he]⟩
  case same =>
    intro k hk
    rw [not_or] at hk
    rw [h'.same k hk.2, h.same k hk.1]
  case placed =>
    intro k x r hk hr
    by_cases hks' : ks' k
    · rw [h'.placed k x r hks' (hforest ▸ hr), h.currentCheckpoint]
    · rw [h'.same k hks']
      exact h.placed k x r (hk.resolve_right hks') hr
  case routed =>
    intro k hk
    rcases hk with hk | hk
    · exact h.routed k hk
    · rw [← hforest]
      exact h'.routed k hk

theorem Recast.congr (h : d.Recast g ks e) (hks : ∀ k, ks k ↔ ks' k) : d.Recast g ks' e := by
  have heq : ks = ks' := funext fun k => propext (hks k)
  exact heq ▸ h

/-- Connecting the link above a route again. -/
theorem recast_restage (hx : Route (forestOf d.header?) g x.hash (x :: r)) :
    d.Recast g (fun k => k = x.hash) (d.restage x.hash (x.placed d.currentCheckpoint r)) := by
  constructor
  case frame => exact ⟨_, rfl⟩
  case same =>
    intro k hk
    rw [header?_restage, if_neg (Ne.symm hk)]
  case placed =>
    rintro k y s rfl hr
    cases hx.unique hr
    rw [header?_restage, if_pos rfl]
  case routed =>
    rintro k rfl
    exact ⟨_, hx⟩

end Draft

namespace Contest

variable {d : Draft}

/-- Connecting the links above a route again puts all of them on it. -/
theorem reapply_spec (done : Candidate) (hn : Named (forestOf d.header?))
    (hr : Route (forestOf d.header?) g k (up.reverse ++ y :: s)) :
    ∃ e banned, reapply d (y.placed d.currentCheckpoint s) done (ascend (y :: s) up) =
        (e, ⟨banned, (ascend (y :: s) up).reverse ++ done.chain⟩, none) ∧
      (up = [] → banned = done.banned) ∧
      (up ≠ [] → banned = conflicts d.currentCheckpoint (up.reverse ++ y :: s)) ∧
      d.Recast g (fun k => ∃ x ∈ up, x.hash = k) e := by
  induction up generalizing d y s done with
  | nil =>
    exact ⟨d, done.banned, rfl, fun _ => rfl, by simp, (Draft.Recast.refl d g).congr (by simp)⟩
  | cons x up ih =>
    have hsame : (x :: up).reverse ++ y :: s = up.reverse ++ x :: y :: s := by simp
    rw [hsame] at hr ⊢
    have hx : Route (forestOf d.header?) g x.hash (x :: y :: s) :=
      hr.of_suffix hn (List.suffix_append _ _)
    obtain ⟨u, hu, rfl⟩ := forestOf_eq_some.mp hx.found
    have hfirst := Draft.recast_restage hx
    have hforest := hfirst.forest
    obtain ⟨e, banned, he, hnil, hcons, hrest⟩ :=
      ih (done.extend (u.link.placed d.currentCheckpoint (y :: s))) (hforest ▸ hn) (hforest ▸ hr)
    refine ⟨e, banned, ?_, by simp, ?_, (hfirst.trans hrest).congr ?_⟩
    · rw [ascend, reapply, Draft.connect_eq hu, connect_placed]
      refine he.trans ?_
      simp [Candidate.extend]
    · intro _
      by_cases hup : up = []
      · rw [hnil hup, hup]
        exact isBanned_placed
      · exact hcons hup
    · intro k
      simp only [List.mem_cons, exists_eq_or_imp, eq_comm]

/-- The headers on the part `R` of the best chain have the chain state of their routes. -/
def Grounded (d : Draft) (g : Hash) (R : List Link) : Prop :=
  ∀ y s, y :: s <:+ R → Route (forestOf d.header?) g y.hash (y :: s) ∧
    d.header? y.hash = some (y.placed d.currentCheckpoint s)

theorem Grounded.recast {ks : Hash → Prop} {e : Draft} (h : Grounded d g R) (he : d.Recast g ks e) :
    Grounded e g R := by
  intro y s hs
  obtain ⟨hr, hheader⟩ := h y s hs
  rw [he.forest, he.currentCheckpoint]
  refine ⟨hr, ?_⟩
  by_cases hk : ks y.hash
  · exact he.placed _ y s hk hr
  · rw [he.same _ hk, hheader]

theorem reconnect_spec {c : Contest} {i : ℕ} {part : List Link × List Link}
    (hn : Named (forestOf c.draft.header?)) (hlow : Grounded c.draft g R)
    (hslot : c.candidates[i]? = some (unflagged part))
    (hpart : Stands (forestOf c.draft.header?) g R k part) :
    ∃ c', c.perform (reconnect i) = (.ok (), c') ∧ c'.candidates.toList =
        c.candidates.toList.set i (flagged c.draft.currentCheckpoint part) ∧
      c.draft.Recast g (fun k => ∃ x ∈ part.2, x.hash = k) c'.draft := by
  obtain ⟨base, up⟩ := part
  obtain ⟨y, s, rfl⟩ := List.exists_cons_of_ne_nil hpart.ne_nil
  rw [reconnect, perform_bind, perform_get]
  simp only [hslot, unflagged, List.reverse_reverse]
  cases up with
  | nil =>
    refine ⟨c, rfl, ?_, (Draft.Recast.refl c.draft g).congr (by simp)⟩
    obtain ⟨hi, hget⟩ := Array.getElem?_eq_some_iff.mp hslot
    have hflag : flagged c.draft.currentCheckpoint (y :: s, []) = c.candidates.toList[i] := by
      rw [Array.getElem_toList, hget]
      rfl
    rw [hflag, List.set_getElem_self]
  | cons x up =>
    have hr := hpart.route
    have hx : Route (forestOf c.draft.header?) g x.hash (x :: y :: s) :=
      hr.of_suffix hn (by simp)
    obtain ⟨u, hu, rfl⟩ := forestOf_eq_some.mp hx.found
    have hparent : u.parent = y.hash := (hx.parent.2.hash_eq hn).symm
    obtain ⟨-, hy⟩ := hlow y s hpart.suffix
    obtain ⟨e, banned, he, -, hflag, hrecast⟩ := reapply_spec ⟨false, []⟩ hn hr
    have hfirst : c.draft.header u.link.hash = .ok u := Draft.header_eq hu
    have hbelow : c.draft.header u.parent = .ok (y.placed c.draft.currentCheckpoint s) := by
      rw [hparent]
      exact Draft.header_eq hy
    refine ⟨⟨e, c.candidates.setIfInBounds i ⟨banned, (ascend (y :: s) (u.link :: up)).reverse⟩⟩,
      ?_, ?_, hrecast⟩
    · simp only [ascend] at he ⊢
      simp only [perform_bind, perform_liftExcept, hfirst, hbelow, he, perform_set]
      simp
    · rw [hflag (List.cons_ne_nil _ _), Array.toList_setIfInBounds]
      rfl

/-- All candidates are connected again, one after the other. -/
theorem reconnectAll_spec (before parts : List (List Link × List Link)) {c : Contest}
    (hn : Named (forestOf c.draft.header?)) (hlow : Grounded c.draft g R)
    (hcands : c.candidates.toList =
      before.map (flagged c.draft.currentCheckpoint) ++ parts.map unflagged)
    (hparts : ∀ part ∈ parts, ∃ k, Stands (forestOf c.draft.header?) g R k part) :
    ∃ c', c.perform ((List.range' before.length parts.length).forM reconnect) = (.ok (), c') ∧
      c'.candidates.toList = (before ++ parts).map (flagged c.draft.currentCheckpoint) ∧
      c.draft.Recast g (fun k => ∃ part ∈ parts, ∃ x ∈ part.2, x.hash = k) c'.draft := by
  induction parts generalizing c before with
  | nil => exact ⟨c, rfl, by simpa using hcands, (Draft.Recast.refl c.draft g).congr (by simp)⟩
  | cons part parts ih =>
    obtain ⟨k, hpart⟩ := hparts part (by simp)
    have hslot : c.candidates[before.length]? = some (unflagged part) := by
      rw [← Array.getElem?_toList, hcands]
      simp
    obtain ⟨c₁, hperform, hset, hfirst⟩ := reconnect_spec hn hlow hslot hpart
    have hforest := hfirst.forest
    have hcheckpoint := hfirst.currentCheckpoint
    have hcands₁ : c₁.candidates.toList =
        (before ++ [part]).map (flagged c₁.draft.currentCheckpoint) ++ parts.map unflagged := by
      rw [hset, hcands, hcheckpoint, List.map_cons]
      simp
    obtain ⟨c₂, hrest, hdone, hrecast⟩ :=
      ih (before ++ [part]) (hforest ▸ hn) (hlow.recast hfirst) hcands₁
      (fun part hmem => hforest ▸ hparts part (List.mem_cons_of_mem _ hmem))
    refine ⟨c₂, ?_, ?_, (hfirst.trans hrecast).congr (by simp)⟩
    · rw [List.length_append, List.length_singleton] at hrest
      rw [List.length_cons, List.range'_succ, List.forM, perform_bind, hperform]
      exact hrest
    · rw [hdone, hcheckpoint]
      simp

end Contest

end HeaderChain
