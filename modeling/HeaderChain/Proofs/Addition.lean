import HeaderChain.Proofs.Sound

/-!
# Adding headers

A header that finds its parent is connected with all that waits for it, and every leaf that this
opens a route to becomes the tip of a candidate. These candidates and the old best chain are all
that can be best now, because each route in the grown forest is an old one or goes through the new
header.
-/

namespace HeaderChain

open Contest

namespace Contest

variable {c : Contest} {t : Table} {g k : Hash} {x y : Link} {s b : List Link} {h : Header}

/-- A new header that is put on top of its parent's route joins the forest. -/
theorem joining_restage {d : Draft} (ht : Exact t g d.currentCheckpoint) (hnew : t h.hash = none)
    (hedges : ∀ e, d.isWaiting e = true ↔
      ∃ u, t e.child = some u ∧ u.isDisconnected = true ∧ u.parent = e.parent)
    (hheader : ∀ k, d.header? k = if k = h.hash then some h else t k)
    (hparent : Route (forestOf t) g h.parent (y :: s)) :
    Joining t g h.link (y :: s)
      (d.restage h.hash (h.link.placed d.currentCheckpoint (y :: s))) := by
  have hname : h.link.hash = h.hash := rfl
  constructor
  case exact => exact ht
  case new => exact hnew
  case base => exact hparent
  case header? =>
    intro k
    rw [Draft.header?_restage, hheader, hname]
    by_cases hk : h.hash = k
    · rw [if_pos hk, if_pos hk.symm]
      rfl
    · rw [if_neg hk, if_neg (Ne.symm hk), if_neg (Ne.symm hk)]
  case edges =>
    intro e
    change d.isWaiting e = true ↔ _
    rw [hedges, Draft.header?_restage, hheader]
    by_cases hk : e.child = h.hash
    · rw [if_pos hk.symm, hk, hnew]
      simp
    · rw [if_neg (Ne.symm hk), if_neg hk]

/-- The walk down from the parent of a header that joins ends where its route forks off from the
best chain. -/
theorem trace_of_joining {d : Draft} (hd : Joining t g x (y :: s) d) (hb : Route (forestOf t) g k b)
    (hfollows : d.Follows b) :
    ∃ w z base up, d.trace (fun h => d.onBest h.position || h.isRoot)
        (y.placed d.currentCheckpoint s) = .ok w ∧ Forks (y :: s) b up (z :: base) ∧
      w.passed = (ascend (z :: base) up).reverse ∧ d.onBest w.last.position = true := by
  have hread : ∀ k x r, Route (forestOf t) g k (x :: r) →
      d.header k = .ok (x.placed d.currentCheckpoint r) := by
    intro k x' r hr
    refine Draft.header_eq ?_
    rw [hd.header?_of_ne, hd.exact.placed hr]
    rintro rfl
    have hx := hr.found
    rw [hd.new_forest] at hx
    cases hx
  have hlen : s.length ≤ d.bound := by
    have hroute := hd.base.plant hd.new_forest
    rw [← hd.forest] at hroute
    have hlt := Draft.length_route_lt (hd.forest ▸ hd.named) hroute
    rw [List.length_cons] at hlt
    omega
  obtain ⟨w, hw, hwalk⟩ :=
    Trace.run_route (.contradiction (.endless (y.placed d.currentCheckpoint s).position))
      (fun h => d.onBest h.position || h.isRoot) hread (fun x => by simp) hd.base hlen
  have honBest {z : Link} {r : List Link} (hr : z :: r <:+ y :: s) :
      d.onBest (z.placed d.currentCheckpoint r).position = true ↔ z :: r <:+ b := by
    have hz : Route (forestOf t) g z.hash (z :: r) := hd.base.of_suffix hd.exact.named hr
    rw [position_placed, ← hz.mem_positions_iff hd.exact.named hb, ← hfollows.onBest_iff]
  obtain ⟨up, base, z, hforks, hpassed, hlast⟩ := hwalk.forks (b := b) fun z r hr => by
    rw [Bool.or_eq_true, honBest hr, or_iff_left_iff_imp]
    -- At its lowest the walk is at genesis, which is on the best chain.
    intro hroot
    rw [isRoot_placed, List.isEmpty_iff] at hroot
    subst hroot
    exact (hd.base.of_suffix hd.exact.named hr).singleton_suffix hb
  refine ⟨w, z, base, up, hw, hforks, hpassed, ?_⟩
  rw [hlast]
  exact (honBest ⟨_, hforks.split.symm⟩).mpr hforks.suffix

/-- The candidate of a new link, which is on the route `s` and starts above `base`. -/
def newest (p : Position) (x : Link) (s up base : List Link) : Candidate :=
  ⟨(x.placed p s).isBanned, (ascend base (up ++ [x])).reverse⟩

theorem tip?_newest (p : Position) (x : Link) (s up base : List Link) :
    (newest p x s up base).tip? = some ⟨(up.reverse ++ base).length, x.hash⟩ := by
  rw [Candidate.tip?, newest, List.head?_reverse, Candidate.getLast?_ascend]

/-- A header that was just staged is put on top of its parent's route, and becomes the tip of a
candidate from the best chain upward. -/
theorem fork_spec (ht : Exact t g c.draft.currentCheckpoint) (hb : Route (forestOf t) g k b)
    (hfollows : c.draft.Follows b) (hnew : t h.hash = none)
    (hedges : ∀ e, c.draft.isWaiting e = true ↔
      ∃ u, t e.child = some u ∧ u.isDisconnected = true ∧ u.parent = e.parent)
    (hheader : ∀ k, c.draft.header? k = if k = h.hash then some h else t k)
    (hparent : Route (forestOf t) g h.parent (y :: s)) :
    ∃ d z base up, c.perform (fork (y.placed c.draft.currentCheckpoint s) h.hash) =
        (.ok (newest d.currentCheckpoint h.link (y :: s) up (z :: base)), { c with draft := d }) ∧
      (∃ headers, d = { c.draft with headers }) ∧ Joining t g h.link (y :: s) d ∧
      Forks (y :: s) b up (z :: base) := by
  have hfound : c.draft.header? h.hash = some h := by rw [hheader, if_pos rfl]
  have hconnect := perform_connect (y.placed c.draft.currentCheckpoint s) hfound
  rw [connect_placed] at hconnect
  have hjoining := joining_restage ht hnew hedges hheader hparent
  generalize hd : c.draft.restage h.hash (h.link.placed c.draft.currentCheckpoint (y :: s)) = d
    at hconnect hjoining
  have hcheckpoint : d.currentCheckpoint = c.draft.currentCheckpoint := by
    rw [← hd]
    rfl
  have hfollows' : d.Follows b := by
    rw [← hd]
    exact hfollows.congr rfl rfl rfl
  obtain ⟨w, z, base, up, hw, hforks, hpassed, hmeets⟩ := trace_of_joining hjoining hb hfollows'
  refine ⟨d, z, base, up, ?_, ⟨_, hd.symm⟩, hjoining, hforks⟩
  have hsplit := hforks.split
  rw [hcheckpoint] at hw
  rw [fork, perform_bind, hconnect]
  simp only [perform_bind, perform_get, perform_liftExcept, hw]
  rw [if_pos hmeets, perform_pure, hpassed, newest, ascend_append, hcheckpoint]
  simp [ascend, ← hsplit, Header.link]

end Contest

namespace Joining

variable {t : Table} {g k : Hash} {x y z : Link} {s b base up : List Link} {d : Draft}
variable {u : Header}
variable {climb chain : List Position} {c : Contest}

theorem leaf_iff (h : Joining t g x s d)
    (hk : Hangs d x.hash (x.placed d.currentCheckpoint s) k u climb) :
    Leaf (plant (forestOf t) x) g k ↔ ∀ j, d.isWaiting ⟨k, j⟩ = false := by
  obtain ⟨r, hr, hs⟩ := h.hangs_iff.mp ⟨u, climb, hk⟩
  constructor
  · rintro ⟨-, hleaf⟩ j
    by_contra hwaiting
    rw [Bool.not_eq_false, h.edges] at hwaiting
    obtain ⟨v, hv, hwaits, hparent⟩ := hwaiting
    have hj : plant (forestOf t) x j = some v.link :=
      h.forest ▸ forestOf_eq_some.mpr ⟨v, hv, rfl⟩
    obtain rfl := hleaf j v.link hj hparent
    rw [h.header?_of_ne h.ne_genesis.symm] at hv
    obtain ⟨y, hy⟩ := h.exact.genesis_route
    exact (h.exact.isDisconnected_iff hv).mp hwaits _ hy
  · intro hnone
    refine ⟨⟨r, hr⟩, ?_⟩
    intro a y ha hy
    by_contra hne
    have hroute : Route (plant (forestOf t) x) g a (y :: r) := .child hne ha (hy ▸ hr)
    have hax : a ≠ x.hash := by
      rintro rfl
      have hlen := congrArg List.length (hroute.unique h.route)
      have hle := hs.length_le
      simp only [List.length_cons] at hlen hle
      omega
    rw [← h.forest] at ha
    obtain ⟨v, hv, rfl⟩ := forestOf_eq_some.mp ha
    have hwaits : v.isDisconnected = true := by
      rw [h.exact.isDisconnected_iff (h.header?_of_ne hax ▸ hv)]
      intro r' hr'
      refine h.not_suffix_of_route hr' ?_
      rw [(hr'.plant h.new_forest).unique hroute]
      exact hs.trans (List.suffix_cons _ _)
    have hwaiting := (h.edges ⟨k, a⟩).mpr ⟨v, hv, hwaits, hy⟩
    simp [hnone a] at hwaiting

/-- The candidate that was entered for the new header, extended up to what hangs on it. -/
theorem branches (h : Joining t g x s d) (hsplit : s = up.reverse ++ z :: base)
    (hbest : z :: base <:+ b) (hchain : chain.reverse = ascend (z :: base) (up ++ [x]))
    (hk : Hangs d x.hash (x.placed d.currentCheckpoint s) k u climb) :
    ∃ above, (up ++ x :: above).reverse ++ z :: base = above.reverse ++ x :: s ∧
      Route (plant (forestOf t) x) g k (above.reverse ++ x :: s) ∧
      Candidate.Branches (plant (forestOf t) x) g d.currentCheckpoint b
        ⟨u.isBanned, climb ++ chain⟩ (z :: base) (up ++ x :: above) := by
  obtain ⟨above, y, rest, htop, hr, rfl, hclimb⟩ := h.route_of_hangs hk
  have hsame : (up ++ x :: above).reverse ++ z :: base = above.reverse ++ x :: s := by
    simp [hsplit]
  refine ⟨above, hsame, htop ▸ hr, ⟨k, ?_⟩, hbest, List.cons_ne_nil z base, ?_, ?_⟩
  · rw [hsame, htop]
    exact hr
  · have hbase : (up ++ [x]).reverse ++ z :: base = x :: s := by simp [hsplit]
    rw [List.reverse_append, hclimb, hchain, ← hbase, ← ascend_append]
    simp
  · intro _
    rw [hsame, htop, isBanned_placed]

section Contest

variable (h : Joining t g x s d) (hsplit : s = up.reverse ++ z :: base) (hbest : z :: base <:+ b)
variable (hchain : chain.reverse = ascend (z :: base) (up ++ [x]))
variable (ha : Attached d x.hash (x.placed d.currentCheckpoint s) chain
  #[⟨(x.placed d.currentCheckpoint s).isBanned, chain⟩] 0 c)

include h ha

theorem exists_hangs {a : Candidate} (hmem : a ∈ c.candidates.toList) :
    ∃ k u climb, Hangs d x.hash (x.placed d.currentCheckpoint s) k u climb ∧
      Leaf (plant (forestOf t) x) g k ∧ a = ⟨u.isBanned, climb ++ chain⟩ := by
  obtain ⟨i, hi, hslot⟩ := Array.mem_iff_getElem.mp (Array.mem_toList_iff.mp hmem)
  have hused : i = 0 ∨ 1 ≤ i := by omega
  obtain ⟨k, u, climb, hk, hleaf, hcand⟩ := ha.used i hi hused
  rw [Array.getElem?_eq_getElem hi, hslot] at hcand
  exact ⟨k, u, climb, hk, (h.leaf_iff hk).mpr hleaf, Option.some.inj hcand⟩

include hsplit hbest hchain

theorem exists_candidate {r : List Link} (hleaf : Leaf (plant (forestOf t) x) g k)
    (hr : Route (plant (forestOf t) x) g k r) (hs : x :: s <:+ r) :
    ∃ a ∈ c.candidates.toList, (∃ p, a.tip? = some p ∧ p.hash = k) ∧
      ∃ up, Candidate.Branches (plant (forestOf t) x) g d.currentCheckpoint b a (z :: base) up ∧
        up.reverse ++ z :: base = r := by
  obtain ⟨u, climb, hk⟩ := h.hangs_iff.mpr ⟨r, hr, hs⟩
  obtain ⟨above, hsame, hroute, hbranch⟩ := h.branches hsplit hbest hchain hk
  obtain ⟨i, ⟨-, hcand⟩, -⟩ := ha.leaves k u climb hk ((h.leaf_iff hk).mp hleaf)
  obtain ⟨hi, hslot⟩ := Array.getElem?_eq_some_iff.mp hcand
  have hchain' : climb ++ chain ≠ [] := by
    have hne := hbranch.chain
    intro hnil
    simp [hnil, ascend_append, ascend] at hne
  obtain ⟨p, hp⟩ : ∃ p, Candidate.tip? ⟨u.isBanned, climb ++ chain⟩ = some p := by
    rw [Candidate.tip?, ← Option.isSome_iff_exists, List.isSome_head?]
    exact hchain'
  refine ⟨_, Array.mem_toList_iff.mpr (hslot ▸ Array.getElem_mem hi), ⟨p, hp, ?_⟩, _, hbranch, ?_⟩
  · exact hbranch.hash_tip h.named hp (hsame ▸ hroute)
  · rw [hsame]
    exact hroute.unique hr

theorem exists_contender {r : List Link} (hr : Route (plant (forestOf t) x) g k (y :: r))
    (hs : x :: s <:+ y :: r) : ∃ a ∈ c.candidates.toList, ∃ base up,
      Candidate.Branches (plant (forestOf t) x) g d.currentCheckpoint b a base up ∧
        base <:+ r ∧ y :: r <:+ up.reverse ++ base := by
  have hbound : ∀ k r, Route (plant (forestOf t) x) g k r → r.length ≤ d.bound := by
    intro k r hr
    rw [← h.forest] at hr
    exact (Draft.length_route_lt (h.forest ▸ h.named) hr).le
  obtain ⟨m, r', hr', hleaf, hup⟩ := hr.exists_leaf hbound
  obtain ⟨a, hmem, -, up', hbranch, htop⟩ :=
    h.exists_candidate hsplit hbest hchain ha hleaf hr' (hs.trans hup)
  refine ⟨a, hmem, z :: base, up', hbranch, ?_, htop ▸ hup⟩
  have hbase : z :: base <:+ s := hsplit ▸ List.suffix_append _ _
  rcases List.suffix_cons_iff.mp hs with heq | hs
  · cases heq
    exact hbase
  · exact hbase.trans ((List.suffix_cons x s).trans hs)

theorem contested (hopt : Optimal (forestOf t) g d.currentCheckpoint b)
    (hcheckpoint : c.draft.currentCheckpoint = d.currentCheckpoint) (hfollows : c.draft.Follows b)
    (hsib : ∀ k, c.draft.isSibling k = true ↔ Losing (forestOf t) g b k ∧ x.parent ≠ k) :
    c.draft.Contested g b b c.candidates.toList := by
  have hforest := h.forest_attached ha
  have hnew := h.new_forest
  obtain ⟨l, hl⟩ := hopt.route
  have hleaf_of {k : Hash} (hk : Leaf (plant (forestOf t) x) g k) : x.parent ≠ k := by
    intro hparent
    exact h.ne_genesis (hk.2 x.hash x plant_self hparent)
  constructor
  case exact =>
    rw [hcheckpoint]
    exact h.exact_attached ha
  case route =>
    rw [hforest]
    exact ⟨l, hl.plant hnew⟩
  case follows => exact hfollows
  case suffix => exact List.suffix_refl b
  case ne_nil => exact hl.ne_nil
  case clear =>
    rw [hcheckpoint]
    exact hopt.clear
  case branches =>
    intro a hmem
    obtain ⟨k, u, climb, hk, -, rfl⟩ := h.exists_hangs ha hmem
    obtain ⟨above, -, -, hbranch⟩ := h.branches hsplit hbest hchain hk
    rw [hforest, hcheckpoint]
    refine ⟨_, _, hbranch, ?_⟩
    intro hsuffix hlong
    have hlen := hsuffix.length_le
    omega
  case siblings =>
    intro k hk
    obtain ⟨⟨hleaf, hoff⟩, hparent⟩ := (hsib k).mp hk
    obtain ⟨r, hr⟩ := hleaf.route
    rw [hforest]
    exact ⟨(leaf_plant_iff hnew hr hparent).mpr hleaf, hoff⟩
  case leaves =>
    intro k hk
    rw [hforest] at hk
    obtain ⟨hleaf, hoff⟩ := hk
    obtain ⟨r, hr⟩ := hleaf.route
    rcases h.route_iff.mp hr with hold | ⟨hr, hs⟩
    · left
      rw [hsib]
      exact ⟨⟨(leaf_plant_iff hnew hold (hleaf_of hleaf)).mp hleaf, hoff⟩, hleaf_of hleaf⟩
    · right
      obtain ⟨a, hmem, htip, -⟩ := h.exists_candidate hsplit hbest hchain ha hleaf hr hs
      exact ⟨a, hmem, htip⟩
  case tips =>
    intro a hmem p hp
    obtain ⟨k, u, climb, hk, hleaf, rfl⟩ := h.exists_hangs ha hmem
    obtain ⟨above, hsame, hroute, hbranch⟩ := h.branches hsplit hbest hchain hk
    left
    rw [hforest, hbranch.hash_tip h.named hp (hsame ▸ hroute)]
    exact hleaf
  case contenders =>
    intro k y r hr hclear
    rw [hforest] at hr
    rw [hcheckpoint] at hclear
    rcases h.route_iff.mp hr with hold | ⟨hr, hs⟩
    · exact .inl (hopt.maximal k _ hold hclear)
    · right
      rw [hforest, hcheckpoint]
      exact h.exists_contender hsplit hbest hchain ha hr hs

end Contest

end Joining

/-! ## Adding -/

namespace Draft

variable {d e e' : Draft} {g : Hash} {b b' b'' : List Link} {h p : Header}

/-- The draft after links were brought: they are accepted in their order, and the best chain is
kept unless another one has more work. -/
structure Added (d : Draft) (g : Hash) (b : List Link) (links : List Link) (b' : List Link)
    (e : Draft) : Prop where
  sound : e.Sound g b'
  forest : forestOf e.header? = links.foldl accept (forestOf d.header?)
  checkpoint : e.checkpoint = d.checkpoint
  base : e.base = d.base
  heavier : b' = b ∨ totalWork b < totalWork b'

theorem Added.refl (hd : d.Sound g b) : d.Added g b [] b d := ⟨hd, rfl, rfl, rfl, .inl rfl⟩

theorem Added.trans {xs ys : List Link} (h₁ : d.Added g b xs b' e) (h₂ : e.Added g b' ys b'' e') :
    d.Added g b (xs ++ ys) b'' e' := by
  refine ⟨h₂.sound, ?_, h₂.checkpoint.trans h₁.checkpoint,
    h₂.base.trans h₁.base, ?_⟩
  · rw [h₂.forest, h₁.forest, List.foldl_append]
  · rcases h₂.heavier with rfl | hlt
    · exact h₁.heavier
    · rcases h₁.heavier with rfl | hlt'
      · exact .inr hlt
      · exact .inr (hlt'.trans hlt)

/-- The draft in which the parent of a new header is no sibling any more. -/
def leave (d : Draft) (k : Hash) : Draft := if d.isSibling k then d.removeSibling k else d

/-- The contest that a new header starts, before it is put under its parent. -/
def contest (d : Draft) (h : Header) : Contest := ⟨(d.leave h.parent).stageNew h id, #[]⟩

/-- What fork choice is asked when a header is put under its parent. -/
def headerBallot (d : Draft) (h parent : Header) : Except ChainError Ballot := do
  let (result, contest) := (d.contest h).perform (join parent h.hash)
  result
  let (reference, e) ← contest.draft.stageBest
  return ⟨e, reference, contest.candidates.toList⟩

theorem addConnected_eq (d : Draft) (h parent : Header) :
    d.addConnected h parent = d.headerBallot h parent >>= Ballot.chosen := by
  simp only [addConnected, headerBallot, contest, leave, bind_assoc, pure_bind]
  rfl

theorem sameChain_leave (d : Draft) (k : Hash) : d.SameChain (d.leave k) := by
  unfold leave
  split_ifs
  · exact d.sameChain_removeSibling k
  · exact .refl d

theorem stageBest_spec {z : Link} {s : List Link} (hd : d.Follows (z :: s))
    (hz : d.header? z.hash = some h) : d.stageBest = .ok (h, d.restage z.hash h) := by
  rw [stageBest, hd.tip_eq]
  simp only [bind, Except.bind, stage_eq hz]
  rfl

theorem header?_restage_self (hh : d.header? h.hash = some h) :
    (d.restage h.hash h).header? = d.header? := by
  funext k
  rw [header?_restage]
  split_ifs with hk
  · rw [← hk, hh]
  · rfl

structure Ready (d : Draft) (g : Hash) (b : List Link) (x : Link) (c : Contest) : Prop where
  checkpoint : c.draft.checkpoint = d.checkpoint
  base : c.draft.base = d.base
  ancestor : c.draft.ancestor = d.ancestor
  edges : c.draft.EdgesExact
  exact : Exact c.draft.header? g d.currentCheckpoint
  forest : forestOf c.draft.header? = plant (forestOf d.header?) x
  contested : c.draft.Contested g b b c.candidates.toList

theorem Ready.currentCheckpoint {x : Link} {c : Contest} (h : d.Ready g b x c) :
    c.draft.currentCheckpoint = d.currentCheckpoint :=
  currentCheckpoint_congr h.checkpoint h.base

/-- The new header `h` has joined the draft `d` on top of the route `s`, which forks off from the
best chain `b` above `base`. Nothing else of `d` is changed but that its parent is no sibling. -/
structure Forked (d : Draft) (g : Hash) (b : List Link) (h : Header) (s up base : List Link)
    (e : Draft) : Prop where
  frame : ∃ headers, e = { d.leave h.parent with headers }
  joining : Joining d.header? g h.link s e
  forks : Forks s b up base

section Forked

variable {s up base : List Link} (hf : d.Forked g b h s up base e)

include hf

theorem Forked.currentCheckpoint : e.currentCheckpoint = d.currentCheckpoint := by
  obtain ⟨headers, he⟩ := hf.frame
  rw [he]
  exact (d.sameChain_leave h.parent).sameTree.currentCheckpoint

theorem Forked.isWaiting : e.isWaiting = d.isWaiting := by
  obtain ⟨headers, he⟩ := hf.frame
  rw [he]
  exact (d.sameChain_leave h.parent).sameTree.isWaiting

theorem Forked.attached {u : Contest}
    (halike : Alike ⟨e, #[newest e.currentCheckpoint h.link s up base]⟩ u) :
    ∃ c c', perform ⟨e, #[newest e.currentCheckpoint h.link s up base]⟩ (connectChildren 0) =
        (.ok (), c) ∧
      u.perform (connectChildren 0) = (.ok (), c') ∧
      Attached e h.hash (h.link.placed e.currentCheckpoint s)
        (ascend base (up ++ [h.link])).reverse #[newest e.currentCheckpoint h.link s up base] 0 c ∧
      c.Alike c' := by
  have hslot : #[newest e.currentCheckpoint h.link s up base][0]? =
      some ⟨(h.link.placed e.currentCheckpoint s).isBanned,
        (ascend base (up ++ [h.link])).reverse⟩ := rfl
  exact connectChildren_spec hf.joining.start hslot
    (tip?_newest e.currentCheckpoint h.link s up base) halike

end Forked

/-- A new header joins the forest: the walk down from its parent ends where it meets the best chain,
and gives the candidate that all that waits is attached to. -/
theorem Sound.forked {y : Link} {s : List Link} (hd : d.Sound g b)
    (hx : d.header? h.hash = none) (hparent : Route (forestOf d.header?) g h.parent (y :: s)) :
    ∃ e z base up, d.Forked g b h (y :: s) up (z :: base) e ∧
      (d.contest h).perform (join (y.placed d.currentCheckpoint s) h.hash) =
        perform ⟨e, #[newest e.currentCheckpoint h.link (y :: s) up (z :: base)]⟩
          (connectChildren 0) := by
  have hleave := d.sameChain_leave h.parent
  have hcontest : d.contest h = ⟨(d.leave h.parent).restage h.hash h, #[]⟩ := by
    rw [contest, stageNew_eq (hleave.sameTree.header? ▸ hx)]
    rfl
  rw [hcontest]
  generalize hd₁ : d.leave h.parent = d₁ at *
  obtain ⟨l, hb⟩ := hd.optimal.route
  have hcheckpoint : (d₁.restage h.hash h).currentCheckpoint = d.currentCheckpoint :=
    hleave.sameTree.currentCheckpoint
  have hedges : ∀ e, (d₁.restage h.hash h).isWaiting e = true ↔
      ∃ u, d.header? e.child = some u ∧ u.isDisconnected = true ∧ u.parent = e.parent := by
    intro e
    change d₁.isWaiting e = true ↔ _
    rw [hleave.sameTree.isWaiting]
    exact hd.edges e
  have hheader : ∀ k, (d₁.restage h.hash h).header? k =
      if k = h.hash then some h else d.header? k := by
    intro k
    rw [header?_restage, hleave.sameTree.header?]
    simp only [eq_comm]
  have hfollows : (d₁.restage h.hash h).Follows b :=
    (hleave.follows hd.follows).congr rfl rfl rfl
  obtain ⟨e, z, base, up, hfork, hframe, hjoining, hforks⟩ :=
    fork_spec (c := ⟨d₁.restage h.hash h, #[]⟩) (t := d.header?) (hcheckpoint.symm ▸ hd.exact) hb
      hfollows hx hedges hheader hparent
  rw [hcheckpoint] at hfork
  refine ⟨e, z, base, up, ⟨hd₁ ▸ hframe, hjoining, hforks⟩, ?_⟩
  simp only [join, perform_bind, hfork, perform_enter]
  rfl

theorem Sound.ready (hd : d.Sound g b) (hx : d.header? h.hash = none)
    (hp : d.header? h.parent = some p) (hplace : p.isDisconnected = false) :
    ∃ c, (d.contest h).perform (join p h.hash) = (.ok (), c) ∧ d.Ready g b h.link c := by
  obtain ⟨s, hparent, hpplaced⟩ := hd.exact.route_of_connected hp hplace
  have hleave := d.sameChain_leave h.parent
  obtain ⟨e, z, base, up, hf, hjoin⟩ := hd.forked hx hparent
  have hjoining := hf.joining
  have hcheckpoint := hf.currentCheckpoint
  obtain ⟨headers, he⟩ := hf.frame
  rw [← hpplaced] at hjoin
  obtain ⟨c, -, hconnect, -, hattached, -⟩ := hf.attached (.refl _)
  obtain ⟨headers', edges', hc⟩ := hattached.frame
  refine ⟨c, hjoin.trans hconnect, ?_⟩
  constructor
  case checkpoint =>
    rw [hc, he]
    exact hleave.sameTree.checkpoint
  case base =>
    rw [hc, he]
    exact hleave.sameTree.base
  case ancestor =>
    rw [hc, he]
    exact hleave.ancestor
  case edges => exact hattached.edgesExact hjoining.start hjoining.edges
  case exact =>
    rw [← hcheckpoint]
    exact hjoining.exact_attached hattached
  case forest => exact hjoining.forest_attached hattached
  case contested =>
    apply hjoining.contested hf.forks.split hf.forks.suffix (List.reverse_reverse _) hattached
      (hcheckpoint ▸ hd.optimal)
    · rw [hc]
      rfl
    · rw [hc, he]
      exact (hleave.follows hd.follows).congr rfl rfl rfl
    · intro k
      rw [← hd.siblings, hc, he]
      exact d.isSibling_leave h.parent k

/-- Staging the tip of the best chain as it is shows nothing new. -/
theorem Contested.restage {r : List Link} {cands : List Candidate} (hc : d.Contested g b r cands)
    (hh : d.header? h.hash = some h) : (d.restage h.hash h).Contested g b r cands := by
  obtain ⟨hexact, hroute, hfollows, hsuffix, hne, hclear, hbranches, hsiblings, hleaves, htips,
    hcontenders⟩ := hc
  rw [← header?_restage_self hh] at hexact hroute hbranches hsiblings hleaves htips hcontenders
  exact ⟨hexact, hroute, hfollows.congr rfl rfl rfl, hsuffix, hne, hclear, hbranches, hsiblings,
    hleaves, htips, hcontenders⟩

theorem Sound.headerBallot (hd : d.Sound g b) (hx : d.header? h.hash = none)
    (hp : d.header? h.parent = some p) (hplace : p.isDisconnected = false) :
    ∃ c z s, (d.contest h).perform (join p h.hash) = (.ok (), c) ∧ d.Ready g b h.link c ∧
      b = z :: s ∧ c.draft.header? z.hash = some (z.placed d.currentCheckpoint s) ∧
      d.headerBallot h p = .ok ⟨c.draft.restage z.hash (z.placed d.currentCheckpoint s),
        z.placed d.currentCheckpoint s, c.candidates.toList⟩ := by
  obtain ⟨c, hperform, hready⟩ := hd.ready hx hp hplace
  obtain ⟨l, hl⟩ := hready.contested.route
  obtain ⟨z, s, rfl⟩ := List.exists_cons_of_ne_nil hl.ne_nil
  have hz := hready.exact.placed hl
  rw [← hl.hash_eq hready.exact.named] at hz
  have hstage := stageBest_spec hready.contested.follows hz
  refine ⟨c, z, s, hperform, hready, rfl, hz, ?_⟩
  unfold Draft.headerBallot
  rw [hperform]
  simp only [hstage, bind, Except.bind]
  rfl

/-- Putting a header under its parent succeeds. The best chain is what its contest picks, and is cut
back for that no lower than need be. -/
theorem Sound.addConnected (hd : d.Sound g b) (hx : d.header? h.hash = none)
    (hp : d.header? h.parent = some p) (hplace : p.isDisconnected = false) :
    ∃ c b' e, (d.contest h).perform (Contest.join p h.hash) = (.ok (), c) ∧
      c.draft.Picked g b c.candidates.toList b' ∧ d.Spares b b' e ∧
      d.addConnected h p = .ok e ∧ d.Added g b [h.link] b' e := by
  obtain ⟨c, z, s, hperform, hready, rfl, hz, hballot⟩ := hd.headerBallot hx hp hplace
  have hcheckpoint : (c.draft.restage z.hash (z.placed d.currentCheckpoint s)).currentCheckpoint =
      d.currentCheckpoint := hready.currentCheckpoint
  have hheader : (c.draft.restage z.hash (z.placed d.currentCheckpoint s)).header? =
      c.draft.header? := header?_restage_self (h := z.placed d.currentCheckpoint s) hz
  obtain ⟨b', e, hchoose, hchosen, hpicked, hspares⟩ :=
    choose_spec (hready.contested.restage (h := z.placed d.currentCheckpoint s) hz)
  change choose (c.draft.restage z.hash (z.placed d.currentCheckpoint s)) _ _ = _ at hchoose
  rw [hash_placed, hcheckpoint] at hchoose
  refine ⟨c, b', e, hperform, hpicked.congr hheader, hspares.congr hready.ancestor, ?_,
    hchosen.sound ?_ ?_ ?_, ?_, ?_, ?_, hchosen.heavier⟩
  · rw [addConnected_eq, hballot]
    exact hchoose
  · change c.draft.base.Readable
    rw [hready.base]
    exact hd.readable
  · change Exact (c.draft.restage z.hash (z.placed d.currentCheckpoint s)).header? g
      c.draft.currentCheckpoint
    rw [hheader, hready.currentCheckpoint]
    exact hready.exact
  · change (c.draft.restage z.hash (z.placed d.currentCheckpoint s)).EdgesExact
    unfold EdgesExact
    rw [hheader]
    exact hready.edges
  · rw [hchosen.sameTree.header?]
    change forestOf (c.draft.restage z.hash (z.placed d.currentCheckpoint s)).header? = _
    rw [hheader, hready.forest, List.foldl_cons, List.foldl_nil]
    exact (accept_of_none (forestOf_eq_none.mpr hx)).symm
  · exact hchosen.sameTree.checkpoint.trans hready.checkpoint
  · exact hchosen.sameTree.base.trans hready.base

/-- A header is known already, or its parent has no place. -/
def Idle (d : Draft) (h : Header) : Prop :=
  (d.header? h.hash).isSome ∨ ∀ p, d.header? h.parent = some p → p.isDisconnected = true

theorem Sound.addHeader_of_idle (hd : d.Sound g b) (hidle : d.Idle h) :
    ∃ e, d.addHeader h = .ok e ∧ e.ancestor = d.ancestor ∧ d.Added g b [h.link] b e := by
  rw [Draft.addHeader]
  cases hx : d.header? h.hash with
  | some y =>
    have hknown : forestOf d.header? h.link.hash = some y.link := forestOf_eq_some.mpr ⟨y, hx, rfl⟩
    refine ⟨d, ?_, rfl, hd, ?_, rfl, rfl, .inl rfl⟩
    · rw [if_pos ((hasHeader_iff hd.readable).mpr (Option.isSome_of_eq_some hx))]
    · rw [List.foldl_cons, List.foldl_nil, accept_of_some hknown]
  | none =>
    have hunknown : ¬ d.hasHeader h.hash = true := by
      rw [hasHeader_iff hd.readable, hx]
      simp
    have hnew : forestOf d.header? h.link.hash = none := forestOf_eq_none.mpr hx
    have hp : ∀ p, d.header? h.parent = some p → p.isDisconnected = true := by
      simpa [Idle, hx] using hidle
    refine ⟨d.addWaiting h, ?_, rfl, hd.addWaiting hx hp, ?_, rfl, rfl, .inl rfl⟩
    · rw [if_neg hunknown]
      cases hparent : d.header? h.parent with
      | none => rfl
      | some p => simp [hp p hparent]
    · rw [forest_addWaiting hx, List.foldl_cons, List.foldl_nil, accept_of_none hnew]

theorem Sound.addHeader_of_not_idle (hd : d.Sound g b) (hidle : ¬ d.Idle h) :
    ∃ p, d.header? h.hash = none ∧ d.header? h.parent = some p ∧ p.isDisconnected = false ∧
      d.addHeader h = d.addConnected h p := by
  unfold Idle at hidle
  rw [not_or, Option.not_isSome_iff_eq_none] at hidle
  push Not at hidle
  obtain ⟨hx, p, hp, hplace⟩ := hidle
  rw [ne_eq, Bool.not_eq_true] at hplace
  have hunknown : ¬ d.hasHeader h.hash = true := by
    rw [hasHeader_iff hd.readable, hx]
    simp
  refine ⟨p, hx, hp, hplace, ?_⟩
  rw [Draft.addHeader, if_neg hunknown, hp]
  simp [hplace]

theorem Sound.addHeader (hd : d.Sound g b) (h : Header) :
    ∃ b' e, d.addHeader h = .ok e ∧ d.Spares b b' e ∧ d.Added g b [h.link] b' e := by
  by_cases hidle : d.Idle h
  · obtain ⟨e, he, hancestor, hadded⟩ := hd.addHeader_of_idle hidle
    exact ⟨b, e, he, spares_of_ancestor hancestor, hadded⟩
  · obtain ⟨p, hx, hp, hplace, heq⟩ := hd.addHeader_of_not_idle hidle
    obtain ⟨c, b', e, -, -, hspares, he, hadded⟩ := hd.addConnected hx hp hplace
    exact ⟨b', e, heq.trans he, hspares, hadded⟩

theorem Sound.addHeaders (hd : d.Sound g b) (hs : List Header) :
    ∃ b' e, d.addHeaders hs = .ok e ∧ d.Added g b (hs.map Header.link) b' e := by
  induction hs generalizing d b with
  | nil => exact ⟨b, d, rfl, .refl hd⟩
  | cons h hs ih =>
    obtain ⟨b₁, d₁, hd₁, -, hadded⟩ := hd.addHeader h
    obtain ⟨b₂, d₂, hd₂, hrest⟩ := ih hadded.sound
    refine ⟨b₂, d₂, ?_, hadded.trans hrest⟩
    rw [Draft.addHeaders, List.foldlM_cons, hd₁]
    exact hd₂

/-- A single header cuts the best chain back no lower than need be. -/
theorem Sound.spares_of_addHeaders {hs : List Header} {links : List Link} (hd : d.Sound g b)
    (hsingle : hs.length ≤ 1) (he : d.addHeaders hs = .ok e) (hadded : d.Added g b links b' e) :
    d.Spares b b' e := by
  match hs, hsingle with
  | [], _ =>
    cases he
    exact spares_of_ancestor rfl
  | [h], _ =>
    obtain ⟨b₁, e₁, he₁, hspares, hadded₁⟩ := hd.addHeader h
    rw [Draft.addHeaders, List.foldlM_cons, he₁] at he
    cases he
    exact hadded.sound.best_unique hadded₁.sound ▸ hspares

end Draft

end HeaderChain
