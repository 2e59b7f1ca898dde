import HeaderChain.Proofs.Batching

/-!
# What attaching leaves of a tree that waits

The edges of a draft say what waits under a header, over any number of others. After all of it is
attached to the tip of a candidate, these headers have their places and their edges are gone. The
candidate and the new ones end at the leaves, one at each.
-/

namespace HeaderChain

namespace Draft

/-- The header `k` is `t`, or it waits under `t`, over any number of others that wait. -/
def Under (d : Draft) (t k : Hash) : Prop :=
  Relation.ReflTransGen (fun p j => d.isWaiting ⟨p, j⟩ = true) t k

theorem Under.child {d : Draft} {t p k : Hash} (hp : d.Under t p)
    (hwaits : d.isWaiting ⟨p, k⟩ = true) : d.Under t k :=
  Relation.ReflTransGen.tail hp hwaits

structure LeafUnder (d : Draft) (t k : Hash) : Prop where
  under : d.Under t k
  bare : ∀ j, d.isWaiting ⟨k, j⟩ = false

end Draft

/-- The positions that `e` shows from `k` down to above `t`, along the edges of `d`. -/
inductive Climb (d e : Draft) (t : Hash) : Hash → List Position → Prop
  | root : Climb d e t t []
  | child {p k h climb} (under : Climb d e t p climb) (waits : d.isWaiting ⟨p, k⟩ = true)
      (found : e.header? k = some h) : Climb d e t k (⟨h.height, k⟩ :: climb)

namespace Contest

def EndsAt (s : Contest) (i : ℕ) (k : Hash) : Prop :=
  ∃ b p, s.candidates[i]? = some b ∧ b.tip? = some p ∧ p.hash = k

/-- The contest `s'` is left when all that waits in `s` under `t` is attached. There `c`, in the
slot `start`, ends at `t`. The slots in use are `start` and the new ones. -/
structure Reattached (s s' : Contest) (start : ℕ) (c : Candidate) (t : Hash) : Prop where
  frame : ∃ headers edges, s'.draft = { s.draft with headers, edges }
  connected : ∀ p k, s.draft.Under t p → s.draft.isWaiting ⟨p, k⟩ = true →
    ∃ u y v, s'.draft.header? p = some u ∧ s.draft.header? k = some y ∧
      s'.draft.header? k = some v ∧ v = y.connect u s.draft.currentCheckpoint ∧
        v.isDisconnected = false
  unchanged : ∀ k, k = t ∨ ¬ s.draft.Under t k → s'.draft.header? k = s.draft.header? k
  edges : ∀ p k, s'.draft.isWaiting ⟨p, k⟩ = true ↔
    s.draft.isWaiting ⟨p, k⟩ = true ∧ ¬ s.draft.Under t p
  size : s.candidates.size ≤ s'.candidates.size
  others : ∀ i < s.candidates.size, i ≠ start → s'.candidates[i]? = s.candidates[i]?
  tips : ∀ i < s'.candidates.size, i = start ∨ s.candidates.size ≤ i →
    ∃ k v climb, s.draft.LeafUnder t k ∧ s'.EndsAt i k ∧ s'.draft.header? k = some v ∧
      Climb s.draft s'.draft t k climb ∧ s'.candidates[i]? = some ⟨v.isBanned, climb ++ c.chain⟩
  leaves : ∀ k, s.draft.LeafUnder t k →
    ∃! i, (i = start ∨ s.candidates.size ≤ i) ∧ s'.EndsAt i k

variable {d : Draft} {t k p : Hash} {x u : Header} {climb : List Position} {tip : Position}
variable {s s' : Contest} {cands : Array Candidate} {start i : ℕ} {c : Candidate} {b : Bool}

theorem EndsAt.unique {j : Hash} (hk : s.EndsAt i k) (hj : s.EndsAt i j) : k = j := by
  obtain ⟨b, p, hslot, hp, rfl⟩ := hk
  obtain ⟨b', p', hslot', hp', rfl⟩ := hj
  cases hslot.symm.trans hslot'
  cases hp.symm.trans hp'
  rfl

theorem Start.under_iff (hd : Start d t x) : d.Under t k ↔ ∃ u climb, Hangs d t x k u climb := by
  constructor
  · intro hk
    induction hk with
    | refl => exact ⟨x, [], .root⟩
    | tail _ hwaits ih =>
      obtain ⟨y, hy, hname, hplace, hparent⟩ := (hd.edges _).mp hwaits
      obtain ⟨u, climb, hu⟩ := ih
      exact ⟨_, _, hu.child hy hname hplace hparent⟩
  · rintro ⟨u, climb, hk⟩
    induction hk with
    | root => exact .refl
    | child _ found named waits parent ih =>
      exact ih.child ((hd.edges _).mpr ⟨_, found, named, waits, parent⟩)

theorem Start.not_under_iff (hd : Start d t x) :
    ¬ d.Under t k ↔ ∀ u climb, ¬ Hangs d t x k u climb := by
  rw [hd.under_iff]
  push Not
  rfl

theorem endsAt_of_hangs (hk : Hangs d tip.hash x k u climb) (htip : c.tip? = some tip)
    (hslot : s.candidates[i]? = some ⟨b, climb ++ c.chain⟩) : s.EndsAt i k := by
  cases hk with
  | root => exact ⟨_, tip, hslot, htip, rfl⟩
  | child _ _ named _ _ => exact ⟨_, _, hslot, rfl, named⟩

namespace Attached

variable (hd : Start d t x) (ha : Attached d t x c.chain cands start s')

include hd ha

theorem climbs (hk : Hangs d t x k u climb) : Climb d s'.draft t k climb := by
  induction hk with
  | root => exact .root
  | child under found named waits parent ih =>
    have hwaits := (hd.edges ⟨_, _⟩).mpr ⟨_, found, named, waits, parent⟩
    have hshown := ha.connected _ _ _ (under.child found named waits parent)
    subst named
    exact ih.child hwaits hshown

/-- Every header that waited has its place from the one that it waited for. -/
theorem connected_child (hp : d.Under t p) (hwaits : d.isWaiting ⟨p, k⟩ = true) :
    ∃ u y v, s'.draft.header? p = some u ∧ d.header? k = some y ∧ s'.draft.header? k = some v ∧
      v = y.connect u d.currentCheckpoint ∧ v.isDisconnected = false := by
  obtain ⟨u, climb, hu⟩ := hd.under_iff.mp hp
  obtain ⟨y, hy, hname, hplace, hparent⟩ := (hd.edges _).mp hwaits
  have hk := hu.child hy hname hplace hparent
  exact ⟨u, y, _, ha.connected p u climb hu, hy, ha.connected k _ _ hk, rfl,
    hk.isDisconnected hd.connected⟩

theorem unchanged_of (hk : k = t ∨ ¬ d.Under t k) : s'.draft.header? k = d.header? k := by
  rcases hk with rfl | hk
  · rw [ha.connected k x [] .root, hd.found]
  · exact ha.unchanged k (hd.not_under_iff.mp hk)

/-- An edge is gone when it is from a header that is `t` or waited under it. -/
theorem edges_iff : s'.draft.isWaiting ⟨p, k⟩ = true ↔
    d.isWaiting ⟨p, k⟩ = true ∧ ¬ d.Under t p := by
  rw [ha.waiting]
  refine and_congr_right fun hwaits => ?_
  rw [← hd.not_under_iff, not_iff_not]
  constructor
  · intro hk
    rcases hk.cases_tail with rfl | ⟨q, hq, hwaits'⟩
    · exact absurd hwaits hd.not_waiting
    · rwa [hd.parent_unique hwaits hwaits']
  · exact fun hp => hp.child hwaits

end Attached

theorem Attached.reattached (hd : Start d tip.hash x) (htip : c.tip? = some tip)
    (ha : Attached d tip.hash x c.chain cands start s') :
    Reattached ⟨d, cands⟩ s' start c tip.hash := by
  have hused (i : ℕ) (hi : i < s'.candidates.size) (huse : i = start ∨ cands.size ≤ i) :
      ∃ k u climb, Hangs d tip.hash x k u climb ∧ d.LeafUnder tip.hash k ∧ s'.EndsAt i k ∧
        s'.candidates[i]? = some ⟨u.isBanned, climb ++ c.chain⟩ := by
    obtain ⟨k, u, climb, hk, hbare, hslot⟩ := ha.used i hi huse
    exact ⟨k, u, climb, hk, ⟨hd.under_iff.mpr ⟨u, climb, hk⟩, hbare⟩,
      endsAt_of_hangs hk htip hslot, hslot⟩
  constructor
  case frame => exact ha.frame
  case connected => exact fun p k hp hwaits => ha.connected_child hd hp hwaits
  case unchanged => exact fun k hk => ha.unchanged_of hd hk
  case edges => exact fun p k => ha.edges_iff hd
  case size => exact ha.size
  case others => exact ha.others
  case tips =>
    intro i hi huse
    obtain ⟨k, u, climb, hk, hleaf, hends, hslot⟩ := hused i hi huse
    exact ⟨k, u, climb, hleaf, hends, ha.connected k u climb hk, ha.climbs hd hk, hslot⟩
  case leaves =>
    intro k hleaf
    obtain ⟨u, climb, hk⟩ := hd.under_iff.mp hleaf.under
    obtain ⟨i, ⟨huse, hslot⟩, honly⟩ := ha.leaves k u climb hk hleaf.bare
    refine ⟨i, ⟨huse, endsAt_of_hangs hk htip hslot⟩, ?_⟩
    rintro m ⟨hm, hends⟩
    -- A slot that ends at `k` holds the candidate of `k`, of which there is one only.
    obtain ⟨b, p, hb, -⟩ := id hends
    obtain ⟨k', u', climb', hk', -, hends', hslot'⟩ :=
      hused m (Array.getElem?_eq_some_iff.mp hb).1 hm
    obtain rfl := hends.unique hends'
    obtain ⟨rfl, rfl⟩ := hk.unique hd.found hd.connected hk'
    exact honly m ⟨hm, hslot'⟩

/-- All that waits under the tip of a candidate is attached, and each leaf gets one candidate. The
bound on the headers looked at plays no role. -/
theorem connectChildren_complete (hedges : s.draft.EdgesNamed)
    (hslot : s.candidates[start]? = some c) (htip : c.tip? = some tip)
    (hfound : s.draft.header? tip.hash = some x) (hconnected : x.isDisconnected = false)
    (hbanned : c.banned = x.isBanned) :
    ∃ s', s.perform (connectChildren start) = (.ok (), s') ∧
      (∀ bound, waitingBound s.draft ≤ bound →
        s.perform (attachWaiting bound [(tip.hash, start)]) = (.ok (), s')) ∧
      s.Reattached s' start c tip.hash := by
  have hd : Start s.draft tip.hash x := ⟨hedges, hfound, hconnected⟩
  have hslot' : s.candidates[start]? = some ⟨x.isBanned, c.chain⟩ := hbanned ▸ hslot
  have henough : s.draft.waiting.length + 1 ≤ waitingBound s.draft :=
    Nat.add_le_add_right (length_waiting_le s.draft) 1
  obtain ⟨s', -, hloop, -, hdone, -⟩ := attachWaiting_spec hd (hd.attaching hslot') (.refl s)
  refine ⟨s', ?_, ?_, (hdone.attached hd).reattached hd htip⟩
  · rw [perform_connectChildren hslot htip]
    exact hloop _ henough
  · exact fun bound hbound => hloop bound (henough.trans hbound)

/-! ## Three headers under genesis -/

/-- What headers leave that are new and have to wait one after the other. -/
theorem foldl_addWaiting {hs : List Header} (hd : d.EdgesExact) (hn : Named (forestOf d.header?))
    (hnew : ∀ h ∈ hs, d.header? h.hash = none) (hnodup : (hs.map Header.hash).Nodup) :
    (hs.foldl Draft.addWaiting d).EdgesNamed ∧
      (∀ k ∉ hs.map Header.hash, (hs.foldl Draft.addWaiting d).header? k = d.header? k) ∧
      ∀ p k, (hs.foldl Draft.addWaiting d).isWaiting ⟨p, k⟩ = true ↔
        d.isWaiting ⟨p, k⟩ = true ∨ ∃ h ∈ hs, h.parent = p ∧ h.hash = k := by
  induction hs generalizing d with
  | nil => exact ⟨hd.named hn, fun k _ => rfl, fun p k => by simp⟩
  | cons h hs ih =>
    obtain ⟨hother, hnodup⟩ := List.nodup_cons.mp hnodup
    have hh := hnew h (by simp)
    have hnamed : Named (forestOf (d.addWaiting h).header?) := by
      rw [Draft.forest_addWaiting hh]
      exact hn.plant
    have hnew' : ∀ y ∈ hs, (d.addWaiting h).header? y.hash = none := by
      intro y hy
      rw [Draft.header?_addWaiting hh, if_neg, hnew y (List.mem_cons_of_mem h hy)]
      intro heq
      exact hother (heq ▸ List.mem_map_of_mem hy)
    obtain ⟨hedges, hheader, hwaits⟩ := ih (hd.addWaiting hh) hnamed hnew' hnodup
    refine ⟨hedges, fun k hk => ?_, fun p k => ?_⟩
    · rw [List.map_cons, List.mem_cons, not_or] at hk
      rw [List.foldl_cons, hheader k hk.2, Draft.header?_addWaiting hh, if_neg (Ne.symm hk.1)]
    · rw [List.foldl_cons, hwaits, Draft.isWaiting_addWaiting]
      simp only [Bool.or_eq_true, decide_eq_true_eq, Edge.mk.injEq, List.mem_cons,
        exists_eq_or_imp]
      tauto

/-- A header that waits under genesis, one that waits above it, and one beside it. -/
def waiters : List Header := [lowerHeader, upperHeader, rivalHeader]

theorem nodup_waiters : (Network.regtest.genesisHash :: waiters.map Header.hash).Nodup := by
  decide +kernel

theorem parents_waiters : (∀ h ∈ waiters, h.parent ≠ upperHeader.hash) ∧
    ∀ h ∈ waiters, h.parent ≠ rivalHeader.hash := by
  decide +kernel

/-- A contest whose candidate ends at genesis, under which headers wait. -/
def family : Contest where
  draft := waiters.foldl Draft.addWaiting { base := .founding .regtest }
  candidates := #[⟨Network.regtest.genesis.isBanned, [Network.regtest.genesis.position]⟩]

theorem family_draft : family.draft.EdgesNamed ∧
    family.draft.header? Network.regtest.genesisHash = some Network.regtest.genesis ∧
    ∀ p k, family.draft.isWaiting ⟨p, k⟩ = true ↔ ∃ h ∈ waiters, h.parent = p ∧ h.hash = k := by
  have hsound := Store.sound_founding (n := .regtest)
  have hbase : ∀ k, ({ base := .founding .regtest } : Draft).header? k =
      if Network.regtest.genesisHash = k then some Network.regtest.genesis else none := by
    intro k
    rw [Draft.header?_mk, Store.header?_founding]
  obtain ⟨hgenesis, hnodup⟩ := List.nodup_cons.mp nodup_waiters
  have hnew : ∀ h ∈ waiters, ({ base := .founding .regtest } : Draft).header? h.hash = none := by
    intro h hh
    rw [hbase, if_neg]
    intro heq
    exact hgenesis (heq ▸ List.mem_map_of_mem hh)
  obtain ⟨hedges, hheader, hwaits⟩ :=
    foldl_addWaiting hsound.edges hsound.exact.named hnew hnodup
  refine ⟨hedges, ?_, fun p k => ?_⟩
  · refine (hheader _ hgenesis).trans ?_
    rw [hbase, if_pos rfl]
  · refine (hwaits p k).trans ?_
    simp [Draft.isWaiting, Store.isWaiting_founding]

/-- The upper one of two headers and a third beside them are the tips of one candidate each. -/
theorem connectChildren_family : ∃ s', family.perform (connectChildren 0) = (.ok (), s') ∧
    (∃! i, (i = 0 ∨ 1 ≤ i) ∧ s'.EndsAt i upperHeader.hash) ∧
    ∃! i, (i = 0 ∨ 1 ≤ i) ∧ s'.EndsAt i rivalHeader.hash := by
  obtain ⟨hedges, hgenesis, hwaits⟩ := family_draft
  have hbare {k : Hash} (hk : ∀ h ∈ waiters, h.parent ≠ k) (j : Hash) :
      family.draft.isWaiting ⟨k, j⟩ = false := by
    rw [Bool.eq_false_iff, Ne, hwaits]
    rintro ⟨h, hh, hparent, -⟩
    exact hk h hh hparent
  have hlower := (hwaits _ _).mpr ⟨lowerHeader, by simp [waiters], rfl, rfl⟩
  have hupper := (hwaits _ _).mpr ⟨upperHeader, by simp [waiters], rfl, rfl⟩
  have hrival := (hwaits _ _).mpr ⟨rivalHeader, by simp [waiters], rfl, rfl⟩
  have hslot : family.candidates[0]? = some ⟨Network.regtest.genesis.isBanned,
      [⟨0, Network.regtest.genesisHash⟩]⟩ := rfl
  obtain ⟨s', hdone, -, hleft⟩ := connectChildren_complete hedges hslot rfl hgenesis rfl rfl
  refine ⟨s', hdone, hleft.leaves _ ⟨?_, ?_⟩, hleft.leaves _ ⟨?_, ?_⟩⟩
  · exact (Draft.Under.child .refl hlower).child hupper
  · exact hbare parents_waiters.1
  · exact Draft.Under.child .refl hrival
  · exact hbare parents_waiters.2

end Contest

end HeaderChain
