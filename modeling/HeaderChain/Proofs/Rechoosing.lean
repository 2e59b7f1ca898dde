import HeaderChain.Proofs.Recasting

/-!
# Choosing again after a checkpoint

The tip of the best chain and the siblings are all leaves there are, so a header with a route is on
the way down from one of them. What is as high as the checkpoint is thus recast when it changes.
Fork choice then compares these tips from the header below the checkpoint upward.
-/

namespace HeaderChain

open Contest

variable {g k m : Hash} {n : ℕ} {x : Link} {b r s u base R : List Link}

theorem mem_of_suffix_append (h : x :: r <:+ u ++ base) (hlen : base.length ≤ r.length) :
    x ∈ u := by
  have hr : r <:+ u ++ base := (List.suffix_cons x r).trans h
  obtain ⟨v, rfl⟩ := List.suffix_of_suffix_length_le (List.suffix_append u base) hr hlen
  obtain ⟨w, hw⟩ := h
  have hu : w ++ x :: v = u := List.append_cancel_right (by simpa using hw)
  rw [← hu]
  simp

namespace Draft

variable {d e : Draft} {parts : List (List Link × List Link)} {change : CheckpointChange}

theorem Sound.leaf_cases (hd : d.Sound g (x :: s)) (hm : Leaf (forestOf d.header?) g m) :
    m ∈ x.hash :: d.allSiblings := by
  by_cases hoff : ∀ z ∈ x :: s, z.hash ≠ m
  · exact List.mem_cons_of_mem _ (mem_allSiblings.mpr ((hd.siblings m).mpr ⟨hm, hoff⟩))
  · push Not at hoff
    obtain ⟨z, hz, rfl⟩ := hoff
    obtain ⟨l, hl⟩ := hd.optimal.route
    obtain ⟨t, u, hsplit⟩ := List.append_of_mem hz
    have htop := Leaf.eq_of_mem hd.exact.named hm hl ⟨t, hsplit.symm⟩
    cases htop
    simp

/-- Every route is a part of the way down from a tip. -/
theorem Sound.covered (hd : d.Sound g (x :: s))
    (hc : Covers (forestOf d.header?) g R (x.hash :: d.allSiblings) parts)
    (hr : Route (forestOf d.header?) g k r) :
    ∃ part ∈ parts, ∃ m, Stands (forestOf d.header?) g R m part ∧
      r <:+ part.2.reverse ++ part.1 := by
  have hbound : ∀ k r, Route (forestOf d.header?) g k r → r.length ≤ d.bound :=
    fun k r hr => (length_route_lt hd.exact.named hr).le
  obtain ⟨m, t, ht, hleaf, hup⟩ := hr.exists_leaf hbound
  obtain ⟨part, hmem, hstands⟩ := hc.exists_part (hd.leaf_cases hleaf)
  exact ⟨part, hmem, m, hstands, hstands.route.unique ht ▸ hup⟩

/-- A part of the best chain that reaches above the checkpoint is only offered as a whole. -/
theorem Sound.whole_recast (hd : d.Sound g (x :: s)) (hlen : R.length = min n (x :: s).length)
    {base up won : List Link} (hstands : Stands (forestOf d.header?) g R m (base, up))
    (hm : m ∈ x.hash :: d.allSiblings) {c' : Position} (hc' : c'.Concerns n)
    (hwon : won = clearing c' base up) (hsuffix : won.reverse ++ base <:+ x :: s)
    (hlong : R.length < (won.reverse ++ base).length) : won.reverse ++ base = x :: s := by
  have hle := hsuffix.length_le
  have hn : R.length = n := by omega
  have hbase : conflicts c' base = false := hc'.clear (hstands.suffix.length_le.trans hn.le)
  have hclear : conflicts c' (up.reverse ++ base) = false := by
    by_contra hbanned
    rw [Bool.not_eq_false, conflicts_iff] at hbanned
    obtain ⟨z, t, ht, hz⟩ := hbanned
    have hheight := height_of_banned hz
    have htn : t.length = n := by
      rcases hc' with hneg | heq <;> lia
    have hpart : won.reverse ++ base <:+ up.reverse ++ base := hwon ▸ clearing_suffix
    have hin := List.suffix_of_suffix_length_le ht hpart (by rw [List.length_cons]; omega)
    have hwonclear : conflicts c' ((clearing c' base up).reverse ++ base) = false :=
      conflicts_clearing hbase
    rw [← hwon] at hwonclear
    simp [conflicts_of_suffix hin (conflicts_iff.mpr ⟨z, t, List.suffix_refl _, hz⟩)] at hwonclear
  have hall : won = up := by
    rw [hwon]
    exact clearing_of_clear hclear
  subst hall
  obtain ⟨l, hl⟩ := hd.optimal.route
  rcases List.mem_cons.mp hm with rfl | hsib
  · exact hstands.route.unique (hl.of_suffix hd.exact.named (List.suffix_refl _))
  · obtain ⟨-, hoff⟩ := (hd.siblings m).mp (mem_allSiblings.mp hsib)
    obtain ⟨z, hz, heq⟩ := (hstands.route.exists_mem_iff hd.exact.named hl).mpr hsuffix
    exact absurd heq (hoff z hz)

section Recast

variable (hd : d.Sound g (x :: s)) (hR : R <:+ x :: s) (hlen : R.length ≤ n)
variable (hc : d.currentCheckpoint.Concerns n)
variable (hc' : ({ d with checkpoint := change } : Draft).currentCheckpoint.Concerns n)
variable (hcover : Covers (forestOf d.header?) g R (x.hash :: d.allSiblings) parts)
variable (hrecast : ({ d with checkpoint := change } : Draft).Recast g
  (fun k => ∃ part ∈ parts, ∃ z ∈ part.2, z.hash = k) e)

include hd hrecast

theorem Sound.edges_recast : e.EdgesExact := by
  intro edge
  have hwaiting : e.isWaiting edge = d.isWaiting edge := by
    obtain ⟨_, rfl⟩ := hrecast.frame
    rfl
  rw [hwaiting, hd.edges]
  by_cases hk : ∃ part ∈ parts, ∃ z ∈ part.2, z.hash = edge.child
  · obtain ⟨r, hr⟩ := hrecast.routed _ hk
    obtain ⟨y, r, rfl⟩ := List.exists_cons_of_ne_nil hr.ne_nil
    have hnew := hrecast.placed _ y r hk hr
    have hold := hd.exact.placed hr
    rw [hnew, hold]
    simp
  · rw [hrecast.same _ hk]
    rfl

include hlen hc hc' hcover

/-- All that is as high as the checkpoint is recast, and below it nothing has to be. -/
theorem Sound.exact_recast : Exact e.header? g e.currentCheckpoint := by
  have hforest : forestOf e.header? = forestOf d.header? := hrecast.forest
  rw [hrecast.currentCheckpoint]
  refine ⟨hforest ▸ hd.exact.named, hforest ▸ hd.exact.rooted, ?_, ?_⟩
  · intro k y r hr
    rw [hforest] at hr
    by_cases hk : ∃ part ∈ parts, ∃ z ∈ part.2, z.hash = k
    · exact hrecast.placed k y r hk hr
    · have hlow : r.length < n := by
        by_contra hge
        obtain ⟨part, hmem, m, hstands, hup⟩ := hd.covered hcover hr
        have hbase := hstands.suffix.length_le
        have hy := mem_of_suffix_append hup (by omega)
        exact hk ⟨part, hmem, y, List.mem_reverse.mp hy, hr.hash_eq hd.exact.named⟩
      rw [hrecast.same k hk, ← hc.placed_eq hc' hlow]
      exact hd.exact.placed hr
  · intro k v hk hnone
    rw [hforest] at hnone
    have hnot : ¬ ∃ part ∈ parts, ∃ z ∈ part.2, z.hash = k := by
      intro hmem
      obtain ⟨r, hr⟩ := hrecast.routed k hmem
      exact hnone r hr
    rw [hrecast.same k hnot] at hk
    exact hd.exact.waiting hk hnone

include hR

/-- The tips compete again with the best chain below the checkpoint. -/
theorem Sound.contested_recast (hRlen : R.length = min n (x :: s).length) (hne : R ≠ []) :
    e.Contested g (x :: s) R (parts.map (flagged e.currentCheckpoint)) := by
  have hforest : forestOf e.header? = forestOf d.header? := hrecast.forest
  have hcheckpoint := hrecast.currentCheckpoint
  have hn := hd.exact.named
  obtain ⟨l, hl⟩ := hd.optimal.route
  have hsibling (k : Hash) : e.isSibling k = d.isSibling k := by
    obtain ⟨_, rfl⟩ := hrecast.frame
    rfl
  have hfollows : e.Follows (x :: s) := by
    obtain ⟨_, rfl⟩ := hrecast.frame
    exact hd.follows.congr rfl rfl rfl
  constructor
  case exact => exact hd.exact_recast hlen hc hc' hcover hrecast
  case route =>
    rw [hforest]
    exact ⟨l, hl⟩
  case follows => exact hfollows
  case suffix => exact hR
  case ne_nil => exact hne
  case clear =>
    rw [hcheckpoint]
    exact hc'.clear hlen
  case branches =>
    intro a ha
    obtain ⟨part, hmem, rfl⟩ := List.mem_map.mp ha
    obtain ⟨m, hm, hstands⟩ := hcover.exists_tip hmem
    rw [hforest]
    refine ⟨part.1, part.2, hstands.branches, ?_⟩
    rw [hcheckpoint]
    exact hd.whole_recast hRlen hstands hm hc' rfl
  case siblings =>
    intro k hk
    rw [hsibling, hd.siblings] at hk
    rw [hforest]
    exact hk
  case leaves =>
    intro k hk
    rw [hforest, ← hd.siblings] at hk
    rw [hsibling]
    exact .inl hk
  case tips =>
    intro a ha p hp
    obtain ⟨part, hmem, rfl⟩ := List.mem_map.mp ha
    obtain ⟨m, hm, hstands⟩ := hcover.exists_tip hmem
    rw [hforest, hstands.branches.hash_tip hn hp hstands.route]
    rcases List.mem_cons.mp hm with rfl | hm
    · exact .inr (hl.of_suffix hn (List.suffix_refl _))
    · exact .inl ((hd.siblings m).mp (mem_allSiblings.mp hm)).1
  case contenders =>
    intro k y t hr hclear
    rw [hforest] at hr
    obtain ⟨part, hmem, m, hstands, hup⟩ := hd.covered hcover hr
    by_cases hlow : part.1.length ≤ t.length
    · right
      rw [hforest]
      have ht : part.1 <:+ t := List.suffix_of_suffix_length_le (List.suffix_append _ _)
        ((List.suffix_cons y t).trans hup) hlow
      exact ⟨_, List.mem_map_of_mem hmem, part.1, part.2, hstands.branches, ht, hup⟩
    · left
      have hbase : y :: t <:+ part.1 := List.suffix_of_suffix_length_le hup
        (List.suffix_append _ _) (by rw [List.length_cons]; omega)
      exact totalWork_le_of_suffix (hbase.trans hstands.suffix)

end Recast

/-! ## Applying a checkpoint -/

/-- The contest of all tips, from the part `R` of the best chain `b` upward, after the checkpoint of
the draft has become another one. -/
structure Rematch (d : Draft) (g : Hash) (b R : List Link) (parts : List (List Link × List Link))
    (c : Contest) : Prop where
  frame : ∃ headers, c.draft = { d with headers }
  edges : c.draft.EdgesExact
  forest : forestOf c.draft.header? = forestOf d.header?
  candidates : c.candidates.toList = parts.map (flagged c.draft.currentCheckpoint)
  contested : c.draft.Contested g b R c.candidates.toList

/-- When the checkpoint changes, all tips are connected again from the header `y` upward, where the
best chain is below the checkpoint, and they are ready for fork choice. -/
theorem Sound.reconnected {y : Link} {t : List Link} (hd : d.Sound g (x :: s))
    (hR : y :: t <:+ x :: s) (hlen : (y :: t).length = min n (x :: s).length)
    (hc : d.currentCheckpoint.Concerns n)
    (hc' : ({ d with checkpoint := change } : Draft).currentCheckpoint.Concerns n) :
    ∃ current others c parts,
      ({ d with checkpoint := change } : Draft).candidateBelow x.hash (y :: t).length =
        .ok current ∧
      ({ d with checkpoint := change } : Draft).siblingCandidates (y :: t).length d.allSiblings =
        .ok others ∧
      (⟨{ d with checkpoint := change }, (current :: others).toArray⟩ : Contest).perform
        ((List.range (current :: others).toArray.size).forM reconnect) = (.ok (), c) ∧
      Covers (forestOf d.header?) g (y :: t) (x.hash :: d.allSiblings) parts ∧
      ({ d with checkpoint := change } : Draft).Rematch g (x :: s) (y :: t) parts c := by
  obtain ⟨l, hl⟩ := hd.optimal.route
  have hn := hd.exact.named
  have hne : y :: t ≠ [] := List.cons_ne_nil y t
  have hlow : (y :: t).length ≤ n := by omega
  have hy : Route (forestOf d.header?) g y.hash (y :: t) := hl.of_suffix hn hR
  -- What the checkpoint change leaves alone is written for the changed draft.
  generalize hd₁ : ({ d with checkpoint := change } : Draft) = d₁ at *
  have hexact : Exact d₁.header? g d.currentCheckpoint := by
    subst hd₁
    exact hd.exact
  have hfollows : d₁.Follows (x :: s) := by
    subst hd₁
    exact hd.follows.congr rfl rfl rfl
  have hheaders : d₁.header? = d.header? := by
    subst hd₁
    rfl
  have hroutes : ∀ k ∈ d.allSiblings, ∃ r, Route (forestOf d₁.header?) g k r := by
    intro k hk
    rw [mem_allSiblings, hd.siblings] at hk
    rw [hheaders]
    exact hk.1.route
  rw [← hheaders] at hl hy hn
  rw [← hl.hash_eq hn] at hl
  obtain ⟨part, hpart, hstands⟩ := candidateBelow_spec hexact hl hfollows hR hne hl
  obtain ⟨parts, hparts, hothers⟩ := siblingCandidates_spec hexact hl hfollows hR hne hroutes
  have hcover : Covers (forestOf d₁.header?) g (y :: t) (x.hash :: d.allSiblings) (part :: parts) :=
    .cons hstands hothers
  have hgrounded : Grounded d₁ g (y :: t) := by
    intro z u hz
    have hle := hz.length_le
    rw [List.length_cons] at hle
    have hroute := hy.of_suffix hn hz
    refine ⟨hroute, ?_⟩
    rw [hexact.placed hroute, hc.placed_eq hc' (by omega)]
  obtain ⟨c, hperform, hcands, hrecast⟩ := reconnectAll_spec [] (part :: parts)
    (c := ⟨d₁, (unflagged part :: parts.map unflagged).toArray⟩) hn hgrounded rfl
    fun part' hmem => by
      obtain ⟨k, -, hk⟩ := hcover.exists_tip hmem
      exact ⟨k, hk⟩
  have hsize : (unflagged part :: parts.map unflagged).toArray.size = (part :: parts).length := by
    simp
  rw [List.length_nil, ← List.range_eq_range', ← hsize] at hperform
  rw [List.nil_append, ← hrecast.currentCheckpoint] at hcands
  refine ⟨_, _, c, part :: parts, hpart, hparts, hperform, hheaders ▸ hcover, ?_⟩
  constructor
  case frame => exact hrecast.frame
  case forest => exact hrecast.forest
  case candidates => exact hcands
  case edges =>
    subst hd₁
    exact hd.edges_recast hrecast
  case contested =>
    rw [hcands]
    subst hd₁
    exact hd.contested_recast hR hlow hc hc' hcover hrecast hlen hne

/-- What fork choice is asked after the checkpoint at this position has come or gone. -/
def checkpointBallot (d : Draft) (checkpoint : Position) : Except ChainError Ballot := do
  let tip ← d.tip
  let base := min (checkpoint.height - 1) tip.height
  match d.bestAt? base with
  | none => throw (.contradiction (.noBase base checkpoint))
  | some hash =>
    let reference ← d.header hash
    let current ← d.candidateBelow tip.hash (base + 1)
    let others ← d.siblingCandidates (base + 1) d.allSiblings
    let contest : Contest := { draft := d, candidates := (current :: others).toArray }
    let (result, contest) := contest.perform
      ((List.range contest.candidates.size).forM reconnect)
    result
    return ⟨contest.draft, reference, contest.candidates.toList⟩

theorem applyCheckpoint_eq (d : Draft) (checkpoint : Position) :
    d.applyCheckpoint checkpoint = d.checkpointBallot checkpoint >>= Ballot.chosen := by
  unfold applyCheckpoint checkpointBallot
  rw [bind_assoc]
  congr 1
  funext tip
  dsimp only
  cases d.bestAt? (min (checkpoint.height - 1) tip.height) with
  | none => rfl
  | some hash =>
    simp only [bind_assoc, pure_bind]
    rfl

/-- The best chain `b'` is picked among all tips, from where `b` is below the height `n`. -/
def Repicked (d : Draft) (g : Hash) (b : List Link) (n : ℕ) (b' : List Link) (e : Draft) : Prop :=
  ∃ k R parts, Route (forestOf d.header?) g k b ∧ R <:+ b ∧ R.length = min n b.length ∧
    Covers (forestOf d.header?) g R (k :: d.allSiblings) parts ∧
    (b' = R ∨ totalWork R < totalWork b') ∧
    e.Picked g R (parts.map (flagged e.currentCheckpoint)) b'

/-- The draft after fork choice from below the height `n`, where `d` is the draft with the changed
checkpoint. -/
structure Rechosen (d : Draft) (g : Hash) (b : List Link) (n : ℕ) (b' : List Link) (e : Draft) :
    Prop where
  sound : e.Sound g b'
  forest : forestOf e.header? = forestOf d.header?
  checkpoint : e.checkpoint = d.checkpoint
  base : e.base = d.base
  spares : d.Spares b b' e
  repicked : d.Repicked g b n b' e

/-- When the checkpoint changes at one height, all tips are put to fork choice with the highest
header of the best chain that is lower. -/
theorem Sound.checkpointBallot (hd : d.Sound g b) {p : Position} (hp : 1 ≤ n)
    (hheight : p.height = n) (hc : d.currentCheckpoint.Concerns n)
    (hc' : ({ d with checkpoint := change } : Draft).currentCheckpoint.Concerns n) :
    ∃ x s y t parts c, b = x :: s ∧ y :: t <:+ b ∧ (y :: t).length = min n b.length ∧
      Covers (forestOf d.header?) g (y :: t) (x.hash :: d.allSiblings) parts ∧
      ({ d with checkpoint := change } : Draft).Rematch g b (y :: t) parts c ∧
      ({ d with checkpoint := change } : Draft).checkpointBallot p =
        .ok ⟨c.draft, y.placed c.draft.currentCheckpoint t, c.candidates.toList⟩ := by
  obtain ⟨l, hl⟩ := hd.optimal.route
  obtain ⟨x, s, rfl⟩ := List.exists_cons_of_ne_nil hl.ne_nil
  -- The best chain up to the height below the checkpoint, or all of it.
  have hmin : min (n - 1) s.length < (x :: s).length := by
    rw [List.length_cons]
    omega
  obtain ⟨y, t, hR, ht⟩ := exists_suffix_of_lt hmin
  have hlen : (y :: t).length = min n (x :: s).length := by
    rw [List.length_cons, List.length_cons]
    omega
  obtain ⟨current, others, c, parts, hcurrent, hothers, hperform, hcover, hmatch⟩ :=
    hd.reconnected hR hlen hc hc'
  refine ⟨x, s, y, t, parts, c, rfl, hR, hlen, hcover, hmatch, ?_⟩
  have hcheckpoint : c.draft.currentCheckpoint =
      ({ d with checkpoint := change } : Draft).currentCheckpoint := by
    obtain ⟨headers, hframe⟩ := hmatch.frame
    rw [hframe]
    rfl
  have hreference : ({ d with checkpoint := change } : Draft).header y.hash =
      .ok (y.placed c.draft.currentCheckpoint t) := by
    have hy := hd.exact.placed (hl.of_suffix hd.exact.named hR)
    rw [hcheckpoint, ← hc.placed_eq hc' (by omega)]
    exact header_eq hy
  have hfollows : ({ d with checkpoint := change } : Draft).Follows (x :: s) :=
    hd.follows.congr rfl rfl rfl
  have hat : ({ d with checkpoint := change } : Draft).bestAt? t.length = some y.hash :=
    (hfollows.bestAt _ _).mpr (mem_positions.mpr ⟨y, t, hR, rfl⟩)
  have hlast : min (p.height - 1) (s.length : Height) = t.length := by
    rw [hheight, ht, Nat.cast_min, Nat.cast_sub hp, Nat.cast_one]
  have hnext : (t.length : Height) + 1 = (y :: t).length := by simp
  have hsiblings : ({ d with checkpoint := change } : Draft).allSiblings = d.allSiblings := rfl
  unfold Draft.checkpointBallot
  simp only [hfollows.tip_eq, bind, Except.bind, hlast, hat, hreference, hnext, hcurrent,
    hsiblings, hothers, hperform]
  rfl

/-- When the checkpoint changes at one height, fork choice from below that height succeeds and
makes the draft sound again. -/
theorem Sound.applyCheckpoint (hd : d.Sound g b) {p : Position} (hp : 1 ≤ n)
    (hheight : p.height = n) (hc : d.currentCheckpoint.Concerns n)
    (hc' : ({ d with checkpoint := change } : Draft).currentCheckpoint.Concerns n) :
    ∃ b' e, ({ d with checkpoint := change } : Draft).applyCheckpoint p = .ok e ∧
      ({ d with checkpoint := change } : Draft).Rechosen g b n b' e := by
  obtain ⟨l, hl⟩ := hd.optimal.route
  obtain ⟨x, s, y, t, parts, c, rfl, hR, hlen, hcover, hmatch, hballot⟩ :=
    hd.checkpointBallot hp hheight hc hc'
  obtain ⟨headers, hframe⟩ := hmatch.frame
  obtain ⟨b', e, hchoose, hchosen, hpicked, hspares⟩ := choose_spec hmatch.contested
  have htree := hchosen.sameTree
  refine ⟨b', e, ?_, ?_⟩
  · rw [applyCheckpoint_eq, hballot]
    exact hchoose
  constructor
  case sound =>
    refine hchosen.sound ?_ hmatch.contested.exact hmatch.edges
    rw [hframe]
    exact hd.readable
  case forest => rw [htree.header?, hmatch.forest]
  case checkpoint =>
    rw [htree.checkpoint, hframe]
  case base =>
    rw [htree.base, hframe]
  case spares =>
    apply hspares.congr
    rw [hframe]
  case repicked =>
    refine ⟨x.hash, y :: t, parts, hl.of_suffix hd.exact.named (List.suffix_refl _), hR, hlen,
      hcover, hchosen.heavier, ?_⟩
    rw [htree.currentCheckpoint, ← hmatch.candidates]
    exact hpicked.congr htree.header?.symm

end Draft

end HeaderChain
