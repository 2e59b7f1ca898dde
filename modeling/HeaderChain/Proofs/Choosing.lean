import HeaderChain.Proofs.Tips

/-!
# Fork choice

Of all routes that the checkpoint allows, the best chain has the most work. Fork choice keeps this
without looking at all headers: it is enough that every route with more work than the reference
goes through a candidate. The siblings are then the losing leaves again, because a leaf off the
best chain was one before, is the tip of a candidate, or is the tip that the chain is cut back
from.
-/

namespace HeaderChain

/-- The route is in no conflict with the checkpoint, and none of those has more work. -/
structure Optimal (f : Forest) (g : Hash) (c : Position) (b : List Link) : Prop where
  route : ∃ k, Route f g k b
  clear : conflicts c b = false
  maximal : ∀ k r, Route f g k r → conflicts c r = false → totalWork r ≤ totalWork b

/-- A leaf off a route. -/
def Losing (f : Forest) (g : Hash) (b : List Link) (k : Hash) : Prop :=
  Leaf f g k ∧ ∀ x ∈ b, x.hash ≠ k

variable {f : Forest} {g k : Hash} {c p : Position} {base up b r s : List Link} {x y : Link}

/-- Above a header off a route there is a losing leaf. -/
theorem Route.exists_losing {j : Hash} {n : ℕ} (hn : Named f) (hr : Route f g k r)
    (hb : Route f g j b) (hbound : ∀ k r, Route f g k r → r.length ≤ n)
    (hoff : ∀ x ∈ b, x.hash ≠ k) : ∃ l, Losing f g b l ∧ Ancestor f g k l := by
  obtain ⟨l, t, ht, hleaf, hup⟩ := hr.exists_leaf hbound
  refine ⟨l, ⟨hleaf, ?_⟩, r, t, hr, ht, hup⟩
  -- A leaf on the route would have all its ancestors there.
  intro y hy hl
  obtain ⟨z, hz, hk⟩ :=
    (hr.exists_mem_iff hn hb).mpr (hup.trans ((ht.exists_mem_iff hn hb).mp ⟨y, hy, hl⟩))
  exact hoff z hz hk

namespace Candidate

variable {a : Candidate}

theorem Branches.tip (ha : a.Branches f g c b base up) (hp : a.tip? = some p) :
    ∃ x below, up = below ++ [x] ∧ p = ⟨(below.reverse ++ base).length, x.hash⟩ := by
  have hlast : (ascend base up).getLast? = some p := by
    rw [← ha.chain, List.getLast?_reverse]
    exact hp
  rcases List.eq_nil_or_concat up with rfl | ⟨below, x, rfl⟩
  · simp [ascend] at hlast
  · rw [List.concat_eq_append, getLast?_ascend] at hlast
    exact ⟨x, below, List.concat_eq_append, (Option.some.inj hlast).symm⟩

theorem Branches.route_tip (hn : Named f) (ha : a.Branches f g c b base up)
    (hp : a.tip? = some p) :
    Route f g p.hash (up.reverse ++ base) ∧ p.height + 1 = (up.reverse ++ base).length := by
  obtain ⟨x, below, rfl, rfl⟩ := ha.tip hp
  obtain ⟨k, hr⟩ := ha.route
  rw [List.reverse_append, List.reverse_singleton, List.singleton_append, List.cons_append] at hr ⊢
  exact ⟨hr.of_suffix hn (List.suffix_refl _), by simp⟩

theorem Branches.hash_tip (hn : Named f) (ha : a.Branches f g c b base up) (hp : a.tip? = some p)
    (hk : Route f g k (up.reverse ++ base)) : p.hash = k :=
  (ha.route_tip hn hp).1.target_unique hn hk

theorem Branches.located (hn : Named f) (ha : a.Branches f g c b base up)
    (hp : a.tip? = some p) : Located f g p := by
  obtain ⟨hr, hheight⟩ := ha.route_tip hn hp
  obtain ⟨x, s, hs⟩ := List.exists_cons_of_ne_nil hr.ne_nil
  rw [hs] at hr hheight
  exact ⟨x, s, hr, by simpa using hheight⟩

/-- No clear route through a candidate has more work than what the candidate offers. -/
theorem Branches.outweighs (hbase : base <:+ s) (hs : x :: s <:+ up.reverse ++ base)
    (hc : conflicts c (x :: s) = false) :
    clearing c base up ≠ [] ∧ x :: s <:+ (clearing c base up).reverse ++ base := by
  obtain ⟨t, ht⟩ := hs
  obtain ⟨u, rfl⟩ := hbase
  have hup : up = (x :: u).reverse ++ t.reverse := by
    have : up.reverse = t ++ x :: u := by
      refine List.append_cancel_right (?_ : up.reverse ++ base = (t ++ x :: u) ++ base)
      simpa using ht.symm
    rw [← List.reverse_reverse up, this, List.reverse_append]
  have hclear : (x :: u).reverse <+: clearing c base up :=
    prefix_clearing ⟨t.reverse, hup.symm⟩ (by simpa using hc)
  obtain ⟨v, hv⟩ := hclear
  refine ⟨?_, v.reverse, ?_⟩
  · rw [← hv]
    simp
  · rw [← hv]
    simp

end Candidate

/-- What fork choice is asked: which of the candidates, if any, has more work than the header of the
best chain that they are compared with. -/
structure Ballot where
  draft : Draft
  reference : Header
  candidates : List Candidate

def Ballot.chosen (ballot : Ballot) : Except ChainError Draft :=
  ballot.draft.choose ballot.reference ballot.candidates

namespace Draft

variable {d e : Draft} {cands : List Candidate}

/-- The candidates compete with the part `r` of the best chain `b`: every route with more work goes
through one of them, and with the siblings their tips are all leaves off the best chain. -/
structure Contested (d : Draft) (g : Hash) (b r : List Link) (cands : List Candidate) : Prop where
  exact : Exact d.header? g d.currentCheckpoint
  route : ∃ k, Route (forestOf d.header?) g k b
  follows : d.Follows b
  suffix : r <:+ b
  ne_nil : r ≠ []
  clear : conflicts d.currentCheckpoint r = false
  /-- A part of the best chain that is longer than `r` is only offered as a whole. -/
  branches : ∀ a ∈ cands, ∃ base up,
    a.Branches (forestOf d.header?) g d.currentCheckpoint r base up ∧
      ((clearing d.currentCheckpoint base up).reverse ++ base <:+ b →
        r.length < ((clearing d.currentCheckpoint base up).reverse ++ base).length →
        (clearing d.currentCheckpoint base up).reverse ++ base = b)
  siblings : ∀ k, d.isSibling k = true → Losing (forestOf d.header?) g b k
  leaves : ∀ k, Losing (forestOf d.header?) g b k →
    d.isSibling k = true ∨ ∃ a ∈ cands, ∃ p, a.tip? = some p ∧ p.hash = k
  tips : ∀ a ∈ cands, ∀ p, a.tip? = some p →
    Leaf (forestOf d.header?) g p.hash ∨ Route (forestOf d.header?) g p.hash b
  contenders : ∀ k x s, Route (forestOf d.header?) g k (x :: s) →
    conflicts d.currentCheckpoint (x :: s) = false → totalWork (x :: s) ≤ totalWork r ∨
      ∃ a ∈ cands, ∃ base up, a.Branches (forestOf d.header?) g d.currentCheckpoint r base up ∧
        base <:+ s ∧ x :: s <:+ up.reverse ++ base

/-! ## The winner -/

namespace Contested

/-- No clear route has more work than `m` if `r` and all offers have no more. -/
theorem bounded (h : d.Contested g b r cands) {m : ℕ} (hr : totalWork r ≤ m)
    (hm : ∀ a ∈ cands, ∀ path work, a.Offers d path work → work ≤ m) :
    ∀ k s, Route (forestOf d.header?) g k s → conflicts d.currentCheckpoint s = false →
      totalWork s ≤ m := by
  intro k s hs hclear
  obtain ⟨x, s, rfl⟩ := List.exists_cons_of_ne_nil hs.ne_nil
  rcases h.contenders k x s hs hclear with hle | ⟨a, hmem, base, up, ha, hbase, hup⟩
  · exact hle.trans hr
  · obtain ⟨hne, hsuffix⟩ := Candidate.Branches.outweighs hbase hup hclear
    have hoffer := (ha.offers_iff h.exact).mpr ⟨hne, rfl, rfl⟩
    exact (totalWork_le_of_suffix hsuffix).trans (hm a hmem _ _ hoffer)

/-- The path of the winner goes upward from a part of `r`, and is optimal. -/
structure Wins (d : Draft) (g : Hash) (b r base won : List Link) : Prop where
  suffix : base <:+ r
  ne_nil : base ≠ []
  optimal : Optimal (forestOf d.header?) g d.currentCheckpoint (won.reverse ++ base)
  heavier : totalWork r < totalWork (won.reverse ++ base)
  whole : won.reverse ++ base <:+ b → won.reverse ++ base = b

theorem winner (h : d.Contested g b r cands) {result : Option (List Position)}
    (hw : Heaviest d cands (totalWork r) none result) :
    (result = none ∧ Optimal (forestOf d.header?) g d.currentCheckpoint r) ∨
      ∃ base won, result = some (ascend base won) ∧ Wins d g b r base won := by
  rcases hw with ⟨rfl, hle⟩ | ⟨a, hmem, path, work, hoffer, rfl, hlt, hmax⟩
  · left
    obtain ⟨k, hk⟩ := h.route
    obtain ⟨x, s, rfl⟩ := List.exists_cons_of_ne_nil h.ne_nil
    exact ⟨rfl, ⟨x.hash, hk.of_suffix h.exact.named h.suffix⟩, h.clear, h.bounded le_rfl hle⟩
  · right
    obtain ⟨base, up, ha, hwhole⟩ := h.branches a hmem
    obtain ⟨hne, rfl, rfl⟩ := (ha.offers_iff h.exact).mp hoffer
    obtain ⟨k, hr⟩ := ha.route
    have hprefix :
        (clearing d.currentCheckpoint base up).reverse ++ base <:+ up.reverse ++ base :=
      clearing_suffix
    refine ⟨base, _, rfl, ha.suffix, ha.ne_nil, ⟨?_, ?_, h.bounded hlt.le hmax⟩, hlt, ?_⟩
    · obtain ⟨x, s, hs⟩ := List.exists_cons_of_ne_nil (List.append_ne_nil_of_right_ne_nil
        (clearing d.currentCheckpoint base up).reverse ha.ne_nil)
      rw [hs] at hprefix ⊢
      exact ⟨x.hash, hr.of_suffix h.exact.named hprefix⟩
    · exact conflicts_clearing (clear_of_suffix ha.suffix h.clear)
    · intro hb
      refine hwhole hb ?_
      by_contra hle
      have hsuffix := List.suffix_of_suffix_length_le hb h.suffix (not_lt.mp hle)
      exact absurd (totalWork_le_of_suffix hsuffix) (not_le.mpr hlt)

theorem Wins.route_last {base won : List Link} (hn : Named (forestOf d.header?))
    (h : Wins d g b r base won) :
    ∃ p, (ascend base won).getLast? = some p ∧
      Route (forestOf d.header?) g p.hash (won.reverse ++ base) := by
  obtain ⟨k, hk⟩ := h.optimal.route
  rcases List.eq_nil_or_concat won with rfl | ⟨below, x, rfl⟩
  · have hle := totalWork_le_of_suffix h.suffix
    have hlt := h.heavier
    simp only [List.reverse_nil, List.nil_append] at hlt
    omega
  · rw [List.concat_eq_append] at hk ⊢
    refine ⟨_, Candidate.getLast?_ascend, ?_⟩
    have htop : (below ++ [x]).reverse ++ base = x :: (below.reverse ++ base) := by simp
    rw [htop] at hk ⊢
    exact hk.of_suffix hn (List.suffix_refl _)

end Contested

/-! ## The new best chain -/

/-- The best chain `b'` is where the heaviest candidate leads to, or else the reference `r`. -/
def Picked (d : Draft) (g : Hash) (r : List Link) (cands : List Candidate) (b' : List Link) : Prop :=
  ∃ result, d.heaviest (totalWork r) none cands = .ok result ∧
    match result with
    | none => b' = r
    | some path => ∃ p, path.getLast? = some p ∧ Route (forestOf d.header?) g p.hash b'

theorem Picked.congr {b' : List Link} (hheader : e.header? = d.header?)
    (h : e.Picked g r cands b') : d.Picked g r cands b' := by
  unfold Picked at h ⊢
  rw [← hheader]
  simpa only [heaviest_congr hheader] using h

/-- Fork choice has one result, and that depends on the headers and the candidates only. -/
theorem Picked.unique {b₁ b₂ : List Link} (hheader : e.header? = d.header?)
    (h₁ : d.Picked g r cands b₁) (h₂ : e.Picked g r cands b₂) : b₁ = b₂ := by
  obtain ⟨result, hresult, h₁⟩ := h₁
  obtain ⟨result', hresult', h₂⟩ := h₂.congr hheader
  cases hresult.symm.trans hresult'
  cases result with
  | none => exact h₁.trans h₂.symm
  | some path =>
    obtain ⟨p, hp, hr₁⟩ := h₁
    obtain ⟨p', hp', hr₂⟩ := h₂
    cases hp.symm.trans hp'
    exact hr₁.unique hr₂

/-- The best chain is now `b'`: the reference, or an optimal route with more work than that. The
tip of the old best chain `b` is told when it has lost its place. -/
structure Settled (d : Draft) (g : Hash) (b r b' : List Link) (retired : List Position)
    (e : Draft) : Prop where
  sameTree : d.SameTree e
  follows : e.Follows b'
  optimal : Optimal (forestOf d.header?) g d.currentCheckpoint b'
  heavier : b' = r ∨ totalWork r < totalWork b'
  spares : d.Spares b b' e
  isSibling : ∀ k, e.isSibling k = true ↔ d.isSibling k = true ∧ ∀ x ∈ b', x.hash ≠ k
  retired : ∀ p, p ∈ retired ↔ d.tip = .ok p ∧ ¬ b <:+ b'

theorem Contested.free (h : d.Contested g b r cands) : d.Free b :=
  fun k hk => (h.siblings k hk).2

theorem Contested.settle_none (h : d.Contested g b r cands) (hr : r = x :: s) (hb : b = y :: up)
    (ho : Optimal (forestOf d.header?) g d.currentCheckpoint r) :
    ∃ retired e, d.settle ⟨up.length, y.hash⟩ (x.placed c s) none = .ok (retired, e) ∧
      d.Settled g b r r retired e := by
  have htip : d.tip = .ok ⟨up.length, y.hash⟩ := (hb ▸ h.follows).tip_eq
  have hfree (k : Hash) (hk : d.isSibling k = true) : ∀ z ∈ r, z.hash ≠ k := by
    intro z hz
    exact h.free k hk z (h.suffix.subset hz)
  rw [settle]
  simp only [position_placed, Position.mk.injEq, Nat.cast_inj]
  split_ifs with heq
  · have hlen : r.length = b.length := by simp [hr, hb, heq.1]
    have hsame : r = b := h.suffix.eq_of_length hlen
    refine ⟨[], d, rfl, .refl d, hsame ▸ h.follows, ho, .inl rfl, spares_of_ancestor rfl, ?_, ?_⟩
    · intro k
      exact ⟨fun hk => ⟨hk, hfree k hk⟩, And.left⟩
    · simp [hsame]
  · refine ⟨_, _, rfl, sameTree_rewind d _, hr ▸ h.follows.rewind (hr ▸ h.suffix), ho, .inl rfl,
      spares_rewind rfl ?_, ?_, ?_⟩
    · intro t _ ht
      simpa [hr] using ht.length_le
    · intro k
      exact ⟨fun hk => ⟨hk, hfree k hk⟩, And.left⟩
    · intro p
      have hnot : ¬ b <:+ r := by
        intro hsuffix
        have hsame := hsuffix.eq_of_length_le h.suffix.length_le
        rw [hr, hb] at hsame
        cases hsame
        exact heq ⟨rfl, rfl⟩
      rw [htip]
      simp [hnot, eq_comm]

theorem Contested.settle_some {base won : List Link} (h : d.Contested g b r cands)
    (hb : b = y :: up) (hw : Contested.Wins d g b r base won) (reference : Header) :
    ∃ retired e, d.settle ⟨up.length, y.hash⟩ reference (some (ascend base won)) =
        .ok (retired, e) ∧ d.Settled g b r (won.reverse ++ base) retired e := by
  have htip : d.tip = .ok ⟨up.length, y.hash⟩ := (hb ▸ h.follows).tip_eq
  obtain ⟨z, base, rfl⟩ := List.exists_cons_of_ne_nil hw.ne_nil
  obtain ⟨k, hk⟩ := h.route
  obtain ⟨j, hj⟩ := hw.optimal.route
  obtain ⟨rewound, e, he, hadopted⟩ := adopt_spec ⟨up.length, y.hash⟩ h.exact hk h.follows h.free
    (by simp [hb]) (hw.suffix.trans h.suffix) hj hw.whole
  refine ⟨if rewound then [⟨up.length, y.hash⟩] else [], e, ?_, hadopted.sameTree,
    hadopted.follows, hw.optimal, .inr hw.heavier, hadopted.spares, hadopted.isSibling, ?_⟩
  · rw [settle, he]
    rfl
  · intro p
    rw [htip, ← hadopted.rewound]
    cases rewound <;> simp [eq_comm]

/-! ## The new siblings -/

/-- After fork choice the best chain is optimal, and the siblings are the losing leaves. -/
structure Chosen (d : Draft) (g : Hash) (r b' : List Link) (e : Draft) : Prop where
  sameTree : d.SameTree e
  follows : e.Follows b'
  optimal : Optimal (forestOf d.header?) g d.currentCheckpoint b'
  heavier : b' = r ∨ totalWork r < totalWork b'
  siblings : ∀ k, e.isSibling k = true ↔ Losing (forestOf d.header?) g b' k

theorem Settled.onBest_iff {b' : List Link} {retired : List Position}
    (hn : Named (forestOf d.header?)) (h : d.Settled g b r b' retired e)
    (hp : Located (forestOf d.header?) g p) :
    e.onBest p = false ↔ ∀ x ∈ b', x.hash ≠ p.hash := by
  obtain ⟨x, s, hs, hheight⟩ := hp
  obtain ⟨j, hj⟩ := h.optimal.route
  have hp : p = ⟨s.length, p.hash⟩ := by rw [← hheight]
  rw [← Bool.not_eq_true, h.follows.onBest_iff, hp, hs.mem_positions_iff hn hj,
    ← hs.exists_mem_iff hn hj]
  simp

theorem Settled.recorded {b' : List Link} {retired : List Position} (hc : d.Contested g b r cands)
    (h : d.Settled g b r b' retired e) (hk : Losing (forestOf d.header?) g b' k) :
    e.Recorded (retired ++ cands.filterMap Candidate.tip?) k := by
  have hn := hc.exact.named
  obtain ⟨hleaf, hoff⟩ := hk
  obtain ⟨s, hs⟩ := hleaf.route
  obtain ⟨l, hl⟩ := hc.route
  obtain ⟨z, t, rfl⟩ := List.exists_cons_of_ne_nil hl.ne_nil
  by_cases hon : s <:+ z :: t
  · -- A leaf on the old best chain is its tip, which has lost its place.
    obtain ⟨-, rfl⟩ := hleaf.eq_of_suffix hn hs hl hon
    have hlost : ¬ z :: t <:+ b' := by
      intro hsuffix
      exact hoff z (hsuffix.subset (by simp)) (hs.hash_eq hn)
    have hmem := (h.retired ⟨t.length, z.hash⟩).mpr ⟨hc.follows.tip_eq, hlost⟩
    refine .inr ⟨⟨t.length, z.hash⟩, by simp [hmem], hs.hash_eq hn, ?_⟩
    have hz : Located (forestOf d.header?) g ⟨t.length, z.hash⟩ :=
      ⟨z, t, (hs.hash_eq hn).symm ▸ hs, rfl⟩
    exact (h.onBest_iff hn hz).mpr ((hs.hash_eq hn).symm ▸ hoff)
  · have hbefore : Losing (forestOf d.header?) g (z :: t) k := by
      refine ⟨hleaf, ?_⟩
      intro x hx heq
      exact hon ((hs.exists_mem_iff hn hl).mp ⟨x, hx, heq⟩)
    rcases hc.leaves k hbefore with hsib | ⟨a, ha, p, hp, rfl⟩
    · exact .inl ((h.isSibling k).mpr ⟨hsib, hoff⟩)
    · obtain ⟨base, up, hbranch, -⟩ := hc.branches a ha
      have hmem : p ∈ cands.filterMap Candidate.tip? := List.mem_filterMap.mpr ⟨a, ha, hp⟩
      exact .inr ⟨p, by simp [hmem], rfl, (h.onBest_iff hn (hbranch.located hn hp)).mpr hoff⟩

theorem Settled.located {b' : List Link} {retired : List Position} (hc : d.Contested g b r cands)
    (h : d.Settled g b r b' retired e) (hp : p ∈ retired ++ cands.filterMap Candidate.tip?) :
    Located (forestOf d.header?) g p ∧
      (Leaf (forestOf d.header?) g p.hash ∨ Route (forestOf d.header?) g p.hash b) := by
  have hn := hc.exact.named
  rcases List.mem_append.mp hp with hp | hp
  · obtain ⟨l, hl⟩ := hc.route
    obtain ⟨z, t, rfl⟩ := List.exists_cons_of_ne_nil hl.ne_nil
    have htip := ((h.retired p).mp hp).1
    rw [hc.follows.tip_eq] at htip
    cases htip
    have hz : Route (forestOf d.header?) g z.hash (z :: t) := hl.of_suffix hn (List.suffix_refl _)
    exact ⟨⟨z, t, hz, rfl⟩, .inr hz⟩
  · obtain ⟨a, ha, hp⟩ := List.mem_filterMap.mp hp
    obtain ⟨base, up, hbranch, -⟩ := hc.branches a ha
    exact ⟨hbranch.located hn hp, hc.tips a ha p hp⟩

/-- What stays recorded, when no tip is kept that another recorded header descends from, are the
losing leaves. -/
theorem Settled.losing_iff {b' : List Link} {retired : List Position}
    (hc : d.Contested g b r cands) (h : d.Settled g b r b' retired e) :
    (e.Recorded (retired ++ cands.filterMap Candidate.tip?) k ∧
      ¬ ((∃ p ∈ retired ++ cands.filterMap Candidate.tip?, p.hash = k) ∧
        ∃ m, e.Recorded (retired ++ cands.filterMap Candidate.tip?) m ∧ m ≠ k ∧
          Ancestor (forestOf d.header?) g k m)) ↔ Losing (forestOf d.header?) g b' k := by
  have hn := hc.exact.named
  constructor
  · rintro ⟨hk | ⟨p, hp, rfl, hoff⟩, hkept⟩
    · obtain ⟨hk, hoff⟩ := (h.isSibling k).mp hk
      exact ⟨(hc.siblings k hk).1, hoff⟩
    · obtain ⟨hlocated, hleaf | hb⟩ := h.located hc hp
      · exact ⟨hleaf, (h.onBest_iff hn hlocated).mp hoff⟩
      · have hlosing := (h.onBest_iff hn hlocated).mp hoff
        refine ⟨?_, hlosing⟩
        -- Otherwise a leaf above the old tip is recorded, and the tip is not kept.
        by_contra hinner
        obtain ⟨j, hj⟩ := h.optimal.route
        obtain ⟨m, hm, hup⟩ := hb.exists_losing hn hj
          (fun k r hr => (length_route_lt hn hr).le) hlosing
        have hne : m ≠ p.hash := by
          rintro rfl
          exact hinner hm.1
        exact hkept ⟨⟨p, hp, rfl⟩, m, h.recorded hc hm, hne, hup⟩
  · intro hk
    refine ⟨h.recorded hc hk, ?_⟩
    rintro ⟨-, m, -, hne, s, t, hs, ht, hsuffix⟩
    exact hne (hk.1.eq_of_suffix hn hs ht hsuffix).1.symm

/-- Fork choice succeeds, finds an optimal best chain and leaves its losing leaves as siblings. -/
theorem choose_spec (hc : d.Contested g b (x :: s) cands) :
    ∃ b' e, d.choose (x.placed d.currentCheckpoint s) cands = .ok e ∧
      d.Chosen g (x :: s) b' e ∧ d.Picked g (x :: s) cands b' ∧ d.Spares b b' e := by
  have hn := hc.exact.named
  obtain ⟨l, hl⟩ := hc.route
  obtain ⟨z, t, rfl⟩ := List.exists_cons_of_ne_nil hl.ne_nil
  have hoffers : ∀ a ∈ cands, ∃ path, a.eligible d = .ok path ∧
      (path = [] ∨ ∃ work, a.Offers d path work) := by
    intro a ha
    obtain ⟨base, up, hbranch, -⟩ := hc.branches a ha
    exact hbranch.offers hc.exact
  obtain ⟨result, hresult, hheaviest⟩ := heaviest_spec (totalWork (x :: s)) none hoffers
  obtain ⟨b', hpicked, retired, e, he, hsettled⟩ : ∃ b', d.Picked g (x :: s) cands b' ∧
      ∃ retired e,
        d.settle ⟨t.length, z.hash⟩ (x.placed d.currentCheckpoint s) result = .ok (retired, e) ∧
          d.Settled g (z :: t) (x :: s) b' retired e := by
    rcases hc.winner hheaviest with ⟨rfl, ho⟩ | ⟨base, won, rfl, hwins⟩
    · exact ⟨_, ⟨none, hresult, rfl⟩, hc.settle_none rfl rfl ho⟩
    · exact ⟨_, ⟨_, hresult, hwins.route_last hn⟩, hc.settle_some rfl hwins _⟩
  have hheader := hsettled.sameTree.header?
  have hroutes : ∀ k, e.isSibling k = true → ∃ r, Route (forestOf e.header?) g k r := by
    intro k hk
    rw [hheader]
    exact (hc.siblings k ((hsettled.isSibling k).mp hk).1).1.route
  have htips : ∀ p ∈ retired ++ cands.filterMap Candidate.tip?,
      Located (forestOf e.header?) g p := by
    intro p hp
    rw [hheader]
    exact (hsettled.located hc hp).1
  obtain ⟨e', he', hsame, hsib⟩ :=
    recordSiblings_spec (hheader.symm ▸ hc.exact) hroutes htips
  refine ⟨b', e', ?_, ⟨hsettled.sameTree.trans hsame.sameTree, hsame.follows hsettled.follows,
    hsettled.optimal, hsettled.heavier, ?_⟩, hpicked, hsame.spares hsettled.spares⟩
  · simp only [choose, hc.follows.tip_eq, hresult, he, work_placed, bind, Except.bind]
    exact he'
  · intro k
    rw [hsib, hheader]
    exact hsettled.losing_iff hc

end Draft
end HeaderChain
