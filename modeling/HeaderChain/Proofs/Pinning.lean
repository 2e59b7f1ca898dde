import HeaderChain.Proofs.Announcing
import HeaderChain.Proofs.Incumbents

/-!
# Pinning the best chain

When a checkpoint is set, fork choice runs again from the header below it. A checkpoint that rules
out nothing of the best chain leaves it, because no chain had more work without a checkpoint; then
only how headers stand is different, from the height of the checkpoint upward. A checkpoint that
rules out a part of the best chain leaves the header below it, or a valid one with more work than
that, and the old tip ends below a sibling.
-/

namespace HeaderChain

variable {s s' : Store} {n : Network} {links b b' R : List Link} {g k hash : Hash} {c c' : Position}
variable {m : ℕ} {height : Height} {x y : Header}

/-! ## What is different -/

/-- Only the checkpoint is different and, from a height upward, how headers stand. -/
structure Ledger.OnlyStandings (l l' : Ledger) (height : Height) : Prop where
  bestAt? : l'.store.bestAt? = l.store.bestAt?
  tipHeight : l'.store.tipHeight = l.store.tipHeight
  siblings : l'.store.siblings = l.store.siblings
  waiting : l'.store.waiting = l.store.waiting
  bus : l'.bus = l.bus
  records : ∀ bytes : Bytes, l'.store.records[bytes]? = l.store.records[bytes]? ∨
    bytes = Key.checkpoint.bytes ∨
    ∃ k x y, bytes = (Key.header k).bytes ∧ l.store.header? k = some x ∧
      l'.store.header? k = some y ∧ height ≤ x.height ∧
      y = { x with own := y.own, inherited := y.inherited }

/-- The best chain was cut below a height. Its tip is now the header that it had below that height,
or a valid one with more work; nothing that it had from there upward is left on it, and its old tip
is a sibling or an ancestor of one. -/
structure Store.CutBelow (s s' : Store) (n : Network) (height : Height) : Prop where
  tip : ∃ x y r, s.bestAt? (height - 1) = some x.hash ∧ s.header? x.hash = some x ∧
    s'.best = .ok y ∧ s'.Valid n y.hash r ∧ (y = x ∨ x.work < y.work)
  gone : ∀ j k, height ≤ j → s.bestAt? j = some k → ∀ i, s'.bestAt? i ≠ some k
  retired : ∃ x, s.best = .ok x ∧
    ∃ k ∈ s'.siblings, Ancestor (forestOf s'.header?) n.genesisHash x.hash k

/-- Another checkpoint at one height changes how headers stand from there upward, and nothing else
of them. -/
theorem Exact.standing_changes {t t' : Table} (ht : Exact t g c) (ht' : Exact t' g c')
    (hc : c.Concerns m) (hc' : c'.Concerns m) (hforest : forestOf t = forestOf t')
    (hx : t k = some x) (hy : t' k = some y) :
    y = { x with own := y.own, inherited := y.inherited } ∧ (x.height < m → y = x) := by
  have hlink : x.link = y.link := by
    have heq := congrFun hforest k
    rw [forestOf, forestOf, hx, hy] at heq
    exact Option.some.inj heq
  cases hplace : x.isDisconnected with
  | true =>
    have hnone := (ht.isDisconnected_iff hx).mp hplace
    have hsame : y = x := by
      rw [ht.waiting hx hnone, ht'.waiting hy (hforest ▸ hnone)]
      simp only [Header.link, Link.mk.injEq] at hlink
      simp only [Header.disconnect, hlink]
    exact ⟨by rw [hsame], fun _ => hsame⟩
  | false =>
    obtain ⟨r, hr, hplaced⟩ := ht.route_of_connected hx hplace
    have hplaced' := ht'.placed (hforest ▸ hr)
    rw [hy, Option.some.injEq] at hplaced'
    generalize x.link = z at *
    subst hplaced hplaced'
    refine ⟨rfl, fun hlow => (hc.placed_eq hc' ?_).symm⟩
    exact Nat.cast_lt.mp hlow

namespace Store.Founded

/-- Stores with the same links and the same best chain, but different checkpoints at one height,
differ in the checkpoint and in how headers stand from that height upward. -/
theorem records_changed (hs : s.Founded n links b) (hs' : s'.Founded n links b)
    (hc : s.checkpoint.Concerns m) (hc' : s'.checkpoint.Concerns m) (bytes : Bytes) :
    s'.records[bytes]? = s.records[bytes]? ∨ bytes = Key.checkpoint.bytes ∨
      ∃ k x y, bytes = (Key.header k).bytes ∧ s.header? k = some x ∧ s'.header? k = some y ∧
        (m : Height) ≤ x.height ∧ y = { x with own := y.own, inherited := y.inherited } := by
  have hforest : forestOf s.header? = forestOf s'.header? := hs.forest.trans hs'.forest.symm
  rcases hs.getElem?_cases hs' hforest bytes with hsame | hcheckpoint | ⟨k, rfl⟩
  · exact .inl hsame.symm
  · exact .inr (.inl hcheckpoint)
  have hget (hheader : s'.header? k = s.header? k) : s'.get? (.header k) = s.get? (.header k) := by
    rw [hs.canonical.get? (.header k) trivial, hs'.canonical.get? (.header k) trivial,
      Draft.record?, Draft.record?, Draft.header?_mk, Draft.header?_mk, hheader]
  have hlinks : (s.header? k).map Header.link = (s'.header? k).map Header.link :=
    congrFun hforest k
  cases hx : s.header? k with
  | none =>
    rw [hx] at hlinks
    left
    apply hget
    rw [hx, Option.map_eq_none_iff.mp hlinks.symm]
  | some x =>
    rw [hx] at hlinks
    obtain ⟨y, hy, -⟩ := Option.map_eq_some_iff.mp hlinks.symm
    obtain ⟨hmost, hlow⟩ := hs.exact.standing_changes hs'.exact hc hc' hforest hx hy
    rcases lt_or_ge x.height m with hlt | hge
    · left
      apply hget
      rw [hx, hy, hlow hlt]
    · exact .inr (.inr ⟨k, x, y, rfl, hx, hy, hge, hmost⟩)

/-- Without a checkpoint no chain had more work than the best one. -/
theorem best_eq_of_blank (hs : s.Founded n links b) (hs' : s'.Founded n links b')
    (hblank : s.checkpoint = .blank) (h : b' = b ∨ totalWork b < totalWork b') : b' = b := by
  rcases h with hsame | hlt
  · exact hsame
  obtain ⟨j, hj⟩ := hs'.optimal.route
  rw [hs'.forest, ← hs.forest] at hj
  have hclear : conflicts s.checkpoint b' = false :=
    hblank ▸ (Position.Concerns.blank b'.length).clear le_rfl
  have hle := hs.optimal.maximal j b' hj hclear
  omega

theorem exists_sibling {r : List Link} (hs : s.Founded n links b)
    (hr : Route (forestOf s.header?) n.genesisHash k r) (hoff : ∀ x ∈ b, x.hash ≠ k) :
    ∃ j ∈ s.siblings, Ancestor (forestOf s.header?) n.genesisHash k j := by
  obtain ⟨l, hl⟩ := hs.optimal.route
  obtain ⟨j, hlosing, hup⟩ :=
    hr.exists_losing hs.exact.named hl (fun _ _ => hs.route_length_le) hoff
  exact ⟨j, hs.mem_siblings_iff.mpr hlosing, hup⟩

variable (hs : s.Founded n links b) (hs' : s'.Founded n links b')
variable (hcheckpoint : s'.checkpoint = ⟨height, hash⟩) (hlow : Height.leastCheckpoint ≤ height)

include hs hs' hcheckpoint hlow

/-- When the checkpoint has another hash than the best chain at its height, no block from there
upward stays on the best chain. -/
theorem ruled_out (hother : s.bestAt? height ≠ some hash) {j : Height} (hat : s.bestAt? j = some k)
    (hge : height ≤ j) : ∀ z ∈ b', z.hash ≠ k := by
  obtain ⟨y, t, ht, rfl, rfl, hroute⟩ := hs.bestAt?_cases hat
  intro z hz hk
  rw [hs.forest, ← hs'.forest] at hroute
  obtain ⟨l, hl⟩ := hs'.optimal.route
  have hon : y :: t <:+ b' := (hroute.exists_mem_iff hs'.exact.named hl).mp ⟨z, hz, hk⟩
  -- With the block, the one below it at the height of the checkpoint would be on both chains.
  obtain ⟨w, q, hq, hqlen⟩ := exists_suffix_of_lt (r := y :: t) (n := height.toNat) (by
    rw [List.length_cons]
    lia)
  have hheight : (q.length : Height) = height := by
    unfold Height.leastCheckpoint at hlow
    lia
  have hw : w.hash = hash := by
    have hclear := conflicts_eq_false_iff.mp hs'.optimal.clear
    rw [hcheckpoint] at hclear
    exact hclear _ (mem_positions.mpr ⟨w, q, hq.trans hon, rfl⟩) hheight
  apply hother
  rw [← hw, ← hheight]
  exact hs.bestAt?_iff.mpr (mem_positions.mpr ⟨w, q, hq.trans ht, rfl⟩)

/-- When the checkpoint has another hash than the best chain at its height, the chain is cut below
it. -/
theorem cutBelow (hblank : s.checkpoint = .blank) (hR : R <:+ b)
    (hlen : R.length = min height.toNat b.length) (hmore : b' = R ∨ totalWork R < totalWork b')
    (htop : height ≤ s.tipHeight) (hother : s.bestAt? height ≠ some hash) :
    s.CutBelow s' n height := by
  obtain ⟨hpos, hheight, hconcerns⟩ := Tracker.concerns_of_low hlow (p := ⟨height, hash⟩)
  obtain ⟨l, hl⟩ := hs.optimal.route
  obtain ⟨j, hj⟩ := hs'.optimal.route
  obtain ⟨old, below, rfl⟩ := List.exists_cons_of_ne_nil hl.ne_nil
  obtain ⟨new, under, rfl⟩ := List.exists_cons_of_ne_nil hj.ne_nil
  have hgone (j : Height) (k : Hash) (hge : height ≤ j) (hat : s.bestAt? j = some k) :
      ∀ z ∈ new :: under, z.hash ≠ k := hs.ruled_out hs' hcheckpoint hlow hother hat hge
  have htip := hs.tipHeight_eq
  constructor
  case tip =>
    obtain ⟨z, u, rfl⟩ : ∃ z u, R = z :: u := by
      apply List.exists_cons_of_ne_nil
      rintro rfl
      rw [List.length_nil, List.length_cons] at hlen
      lia
    have hu : height - 1 = u.length := by
      rw [List.length_cons, List.length_cons] at hlen
      lia
    have hz := hl.of_suffix hs.exact.named hR
    have hnew := hj.of_suffix hs'.exact.named (List.suffix_refl _)
    refine ⟨_, _, new :: under, ?_, hs.exact.placed hz, hs'.best,
      Store.valid_iff.mpr ⟨hnew, hs'.optimal.clear⟩, ?_⟩
    · rw [hu]
      exact hs.bestAt?_iff.mpr (mem_positions.mpr ⟨z, u, hR, rfl⟩)
    · rcases hmore with hsame | hlt
      · left
        cases hsame
        rw [hblank, hcheckpoint]
        exact hconcerns.placed_eq (Position.Concerns.blank _) (by lia)
      · exact .inr hlt
  case gone =>
    intro j k hge hat
    exact hs'.off_best_iff.mpr (hgone j k hge hat)
  case retired =>
    have hold := hl.of_suffix hs.exact.named (List.suffix_refl _)
    rw [hs.forest, ← hs'.forest] at hold
    have hat : s.bestAt? s.tipHeight = some old.hash := by
      rw [htip]
      exact hs.bestAt?_iff.mpr (by simp [positions])
    exact ⟨_, hs.best, hs'.exists_sibling hold (hgone _ _ htop hat)⟩

end Store.Founded

/-! ## Setting a checkpoint -/

namespace Tracker

variable {t t' : Tracker} {e : Draft}

theorem Commits.onlyStandings (hc : t.Commits n links b e t') (ht : t.Founded n links b)
    (hw : t.ledger.Watched) (hspares : t.ledger.draft.Spares b b e)
    (hbefore : t.checkpoint.Concerns m) (hafter : t'.checkpoint.Concerns m) :
    t.ledger.OnlyStandings t'.ledger m := by
  have hs := ht.store
  have hs' := hc.founded.store
  have hforest := hs.forest.trans hs'.forest.symm
  have hbestAt := (hs.bestAt?_congr hs').symm
  have hbest := Ledger.best_eq hs hs' hw hc.watched hbestAt
  constructor
  case bestAt? => exact hbestAt
  case tipHeight => exact (hs.tipHeight_congr hs').symm
  case siblings => exact (hs.siblings_congr hs' hforest).symm
  case waiting => exact (hs.waiting_congr hs' hforest).symm
  case bus =>
    have hevents : t'.ledger.bus.events = t.ledger.bus.events := by
      rw [← List.append_nil links] at hc
      by_contra hpublished
      exact (hc.exactly ht hw hspares).published.mp hpublished hbest
    calc t'.ledger.bus = ⟨t'.ledger.bus.best, t'.ledger.bus.events⟩ := rfl
      _ = t.ledger.bus := by rw [hbest, hevents]
  case records => exact hs.records_changed hs' hbefore hafter

/-- A checkpoint above the best chain, or on it, changes standings only. A chain with another block
at its height is cut. -/
theorem Founded.pins (ht : t.Founded n links b) (hw : t.ledger.Watched) (hroomy : Roomy links)
    (hash : Hash) (hfits : height.Fits) (hlow : Height.leastCheckpoint ≤ height)
    (hblank : t.checkpoint.isBlank = true) :
    ∃ t', t.addCheckpoint height hash = .ok t' ∧ t'.checkpoint = ⟨height, hash⟩ ∧
      (t.ledger.store.tipHeight < height → t.ledger.OnlyStandings t'.ledger height) ∧
      (t.ledger.store.bestAt? height = some hash → (∀ x ∈ b, 0 < x.work) →
        t.ledger.OnlyStandings t'.ledger height) ∧
      (height ≤ t.ledger.store.tipHeight → t.ledger.store.bestAt? height ≠ some hash →
        t.ledger.store.CutBelow t'.ledger.store n height) := by
  obtain ⟨b', e, t', hadd, hrechosen, hc, hcheckpoint⟩ :=
    ht.addCheckpoint_of_blank hroomy hash hlow hfits hblank
  rw [Position.isBlank_iff] at hblank
  obtain ⟨hpos, hheight, hconcerns⟩ := concerns_of_low hlow (p := ⟨height, hash⟩)
  obtain ⟨k, R, parts, hk, hR, hlen, -, hmore, -⟩ := hrechosen.repicked
  have hs := ht.store
  have hs' := hc.founded.store
  have hkept (h : b' = b ∨ totalWork b < totalWork b') :
      t.ledger.OnlyStandings t'.ledger height := by
    obtain rfl := hs.best_eq_of_blank hs' hblank h
    have honly := hc.onlyStandings (m := height.toNat) ht hw (hrechosen.spares.congr rfl)
      (hblank ▸ Position.Concerns.blank _) (hcheckpoint ▸ hconcerns)
    have hcast : (height.toNat : Height) = height := hheight.symm
    rwa [hcast] at honly
  refine ⟨t', hadd, hcheckpoint, ?_, ?_, hs.cutBelow hs' hcheckpoint hlow hblank hR hlen hmore⟩
  · intro hbelow
    have hall : R = b := by
      obtain ⟨x, r, rfl⟩ := List.exists_cons_of_ne_nil hk.ne_nil
      rw [hs.tipHeight_eq] at hbelow
      apply hR.eq_of_length
      rw [hlen, List.length_cons]
      lia
    exact hkept (hall ▸ hmore)
  · intro hon hwork
    have hclear : conflicts e.currentCheckpoint b = false := by
      rw [← hc.checkpoint, hcheckpoint, conflicts_eq_false_iff]
      rintro p hp rfl
      exact Option.some.inj ((hs.bestAt?_iff.mpr hp).symm.trans hon)
    exact hkept (hrechosen.heavier hclear hwork)

end Tracker

/-- Where there is no checkpoint, one that is not too low can be set. When the best chain is lower
or has the hash at that height, nothing changes but the checkpoint and, from its height upward, how
headers stand; the second asks that the headers have usable targets, as those have that are decoded
or made from raw fields. Otherwise the best chain is cut below the checkpoint. -/
theorem History.pinning_minimal (h : History) (n : Network) (height : Height) (hash : Hash)
    (hfits : height.Fits) (hlow : Height.leastCheckpoint ≤ height)
    (hblank : (h.last n).checkpoint.isBlank = true) :
    ∃ t, (h.last n).addCheckpoint height hash = .ok t ∧ t.checkpoint = ⟨height, hash⟩ ∧
      ((h.store n).tipHeight < height → (h.last n).ledger.OnlyStandings t.ledger height) ∧
      ((h.store n).bestAt? height = some hash → (∀ x ∈ h.accepted n, x.Usable) →
        (h.last n).ledger.OnlyStandings t.ledger height) ∧
      (height ≤ (h.store n).tipHeight → (h.store n).bestAt? height ≠ some hash →
        (h.store n).CutBelow t.ledger.store n height) := by
  obtain ⟨b, ht⟩ := h.founded n
  obtain ⟨t, hadd, hcheckpoint, hbelow, hon, hcut⟩ :=
    ht.pins (h.watched n) (h.roomy n) hash hfits hlow hblank
  refine ⟨t, hadd, hcheckpoint, hbelow, ?_, hcut⟩
  intro hat husable
  exact hon hat (ht.store.work_pos husable)

/-- The two headers are the best chain that they leave. -/
theorem founded_upward : (History.upward.store .regtest).Founded .regtest
    [lowerHeader.link, upperHeader.link] upwardLinks := by
  obtain ⟨haccepted, hblank⟩ := History.upward.additions [[lowerHeader, upperHeader]] .regtest rfl
  have hbrought : (History.upward.accepted .regtest).map Header.link =
      [lowerHeader.link, upperHeader.link] := by
    rw [haccepted]
    rfl
  obtain ⟨b, hs⟩ := History.upward.store_founded .regtest
  rw [hbrought] at hs
  obtain ⟨k, hk⟩ := hs.optimal.route
  have hroute := route_upward
  rw [← hs.forest] at hroute
  have hpart : b <:+ upwardLinks := by
    rw [hs.forest] at hk hroute
    exact hk.suffix_of_chain hroute mem_upwardLinks
  have hclear : conflicts (History.upward.store .regtest).checkpoint upwardLinks = false := by
    rw [← History.checkpoint_last, hblank]
    exact (Position.Concerns.blank upwardLinks.length).clear le_rfl
  have hall : b = upwardLinks := by
    by_contra hne
    have hlt := totalWork_lt_of_suffix hpart hne work_pos_upward
    have hle := hs.optimal.maximal upperHeader.hash upwardLinks hroute hclear
    omega
  exact hall ▸ hs

/-- A checkpoint on the upper header changes only how headers stand, and one with another hash at its
height cuts the chain below it. -/
theorem History.pinning_of_upward : Height.Fits 2 ∧ Height.leastCheckpoint ≤ 2 ∧
    (upward.last .regtest).checkpoint.isBlank = true ∧
    (∀ x ∈ upward.accepted .regtest, x.Usable) ∧
    (∃ t, (upward.last .regtest).addCheckpoint 2 upperHeader.hash = .ok t ∧
      (upward.last .regtest).ledger.OnlyStandings t.ledger 2) ∧
    ∃ t, (upward.last .regtest).addCheckpoint 2 (.fill 3) = .ok t ∧
      (upward.store .regtest).CutBelow t.ledger.store .regtest 2 := by
  have hfits : Height.Fits 2 := by constructor <;> decide
  have hlow : Height.leastCheckpoint ≤ 2 := by decide
  obtain ⟨haccepted, hnone⟩ := upward.additions [[lowerHeader, upperHeader]] .regtest rfl
  have hblank : (upward.last .regtest).checkpoint.isBlank = true := Position.isBlank_iff.mpr hnone
  have husable : ∀ x ∈ upward.accepted .regtest, x.Usable := by
    rw [haccepted]
    exact usable_upward
  obtain ⟨t, hadd, -, -, honly, -⟩ :=
    upward.pinning_minimal .regtest 2 upperHeader.hash hfits hlow hblank
  obtain ⟨t', hadd', -, -, -, hcut⟩ :=
    upward.pinning_minimal .regtest 2 (.fill 3) hfits hlow hblank
  have hat : (upward.store .regtest).bestAt? 2 = some upperHeader.hash := by
    rw [founded_upward.bestAt?_iff]
    exact .head _
  refine ⟨hfits, hlow, hblank, husable, ⟨t, hadd, honly hat husable⟩, t', hadd', hcut ?_ ?_⟩
  · rw [founded_upward.tipHeight_eq]
    decide
  · rw [hat, Ne, Option.some.injEq]
    decide +kernel

end HeaderChain
