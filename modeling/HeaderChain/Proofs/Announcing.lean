import HeaderChain.Proofs.HistoryIndependence
import HeaderChain.Proofs.Outcomes

/-!
# Events tell what became of the best chain

The bus of a ledger shows the tip of the best chain, and a commit publishes at most one event. Which
one is told from the tips before and after, and from where the draft cuts the stored chain. A draft
that makes one choice cuts the chain where the old and the new one part, so that the event then says
exactly what has happened.
-/

namespace HeaderChain

variable {s : Store} {n : Network} {old links b b₀ : List Link} {p : Position} {height : Height}
variable {t t' : Tracker} {l l' : Ledger} {d : Draft}

/-- What the event says became of the best chain from one store to the next: it was extended, or it
was cut back to a block that both have. -/
def Event.Tells (s s' : Store) : Event → Prop
  | .extended _ _ => s.tipHeight < s'.tipHeight ∧
      ∀ height, height ≤ s.tipHeight → s'.bestAt? height = s.bestAt? height
  | .reorganized _ p _ => p.height < s.tipHeight ∧ s.onBest p = true ∧ s'.onBest p = true

namespace Ledger

/-- The bus shows the tip of the best chain. -/
def Watched (l : Ledger) : Prop := l.tip = .ok l.bus.best

/-- Nothing was published and the best chain is the same, or one event was, which has the new tip
and tells of the new chain. -/
def Announces (l l' : Ledger) : Prop :=
  (l'.bus.events = l.bus.events ∧ l'.store.bestAt? = l.store.bestAt?) ∨
    ∃ e : Event, l'.bus.events = l.bus.events.push e ∧ e.network = l.network ∧
      e.tip = l'.bus.best ∧ e.Tells l.store l'.store

/-- It was published that the best chain was cut back to a position. -/
def Reorganizes (l l' : Ledger) (p : Position) : Prop :=
  l'.bus.events = l.bus.events.push (.reorganized l.network p l'.bus.best)

/-- An event was published just when the tip is another one. The chain was cut back just when the
old tip has lost its place, and no further than to the highest position of both chains. -/
structure AnnouncesExactly (l l' : Ledger) : Prop where
  published : l'.bus.events ≠ l.bus.events ↔ l'.bus.best ≠ l.bus.best
  reorganized : (∃ p, l.Reorganizes l' p) ↔ l'.store.onBest l.bus.best = false
  highest : ∀ p, l.Reorganizes l' p → l.store.onBest p = true ∧ l'.store.onBest p = true ∧
    ∀ q, l.store.onBest q = true → l'.store.onBest q = true → q.height ≤ p.height

end Ledger

theorem Store.onBest_iff : s.onBest p = true ↔ s.bestAt? p.height = some p.hash := by
  simp [onBest]

/-! ## The tip -/

theorem Ledger.tip_iff (hs : l.store.Founded n links b) :
    l.tip = .ok p ↔ p.height = l.store.tipHeight ∧ l.store.onBest p = true := by
  obtain ⟨k, hk⟩ := hs.optimal.route
  obtain ⟨x, r, rfl⟩ := List.exists_cons_of_ne_nil hk.ne_nil
  have hat : l.store.bestAt? r.length = some x.hash :=
    hs.bestAt?_iff.mpr (by simp [positions])
  have hp : l.tip = .ok ⟨r.length, x.hash⟩ := by
    unfold Ledger.tip
    rw [hs.best]
    rfl
  obtain ⟨height, hash⟩ := p
  rw [hp, Store.onBest_iff, hs.tipHeight_eq, Except.ok.injEq, Position.mk.injEq]
  constructor
  · rintro ⟨rfl, rfl⟩
    exact ⟨rfl, hat⟩
  · rintro ⟨rfl, hhash⟩
    exact ⟨rfl, Option.some.inj (hat.symm.trans hhash)⟩

theorem Ledger.storedBest_iff (hs : l.store.Founded n links b) :
    l.store.storedBest l.store.tipHeight = .ok p ↔ l.tip = .ok p := by
  have hproper : (Key.best l.store.tipHeight).Proper :=
    ⟨hs.sound.follows.continuous.base.tip, l.store.fits_tipHeight.2⟩
  have hbytes (hash : Hash) : hash.bytes = p.hash.bytes ↔ hash = p.hash :=
    ⟨Hash.ext, congrArg Hash.bytes⟩
  rw [Ledger.tip_iff hs, Store.storedBest_eq_ok, hs.canonical.get?_best hproper, Store.onBest_iff]
  simp only [Option.map_eq_some_iff, hbytes, exists_eq_right]
  constructor
  · rintro ⟨hheight, hat⟩
    exact ⟨hheight, hheight ▸ hat⟩
  · rintro ⟨hheight, hat⟩
    exact ⟨hheight, hheight ▸ hat⟩

theorem Ledger.watched_of_ofStore (h : Ledger.ofStore s n = .ok l) : l.Watched := by
  obtain ⟨s', -, h⟩ := bind_eq_ok.mp h
  obtain ⟨best, hbest, h⟩ := bind_eq_ok.mp h
  cases h
  unfold Ledger.Watched Ledger.tip
  rw [hbest]
  rfl

/-! ## What a draft does to the chain -/

namespace Draft

theorem Continuous.bestAt?_of_le (hd : d.Continuous) (h : height ≤ d.keptHeight) :
    d.bestAt? height = d.base.bestAt? height := by
  rw [hd.bestAt?_eq, if_pos h]

theorem keptHeight_of_ancestor (h : d.ancestor = some p) : d.keptHeight = p.height := by
  simp [keptHeight, h]

theorem keptHeight_of_none (h : d.ancestor = none) : d.keptHeight = d.base.tipHeight := by
  simp [keptHeight, h]

theorem Continuous.bestAt?_eq_base (hd : d.Continuous) (h : d.ancestor = none)
    (htip : d.tipHeight = d.base.tipHeight) : d.bestAt? = d.base.bestAt? := by
  funext height
  by_cases hle : height ≤ d.base.tipHeight
  · exact hd.bestAt?_of_le (keptHeight_of_none h ▸ hle)
  · have hnone : d.bestAt? height = none := by
      rw [← Option.not_isSome_iff_eq_none, hd.isSome_bestAt?, htip]
      exact fun hin => hle hin.2
    have hnone' : d.base.bestAt? height = none := by
      rw [← Option.not_isSome_iff_eq_none, hd.base.bestAt]
      exact fun hin => hle hin.2
    rw [hnone, hnone']

end Draft

/-! ## What a commit publishes -/

namespace Tracker.Commits

variable (hc : t.Commits n links b d t')

include hc

theorem bestAt? : t'.ledger.store.bestAt? = d.bestAt? := by
  funext height
  ext hash
  rw [hc.founded.store.bestAt?_iff, hc.staged.sound.follows.bestAt]

theorem tipHeight : t'.ledger.store.tipHeight = d.tipHeight := by
  obtain ⟨k, hk⟩ := hc.staged.sound.optimal.route
  obtain ⟨x, r, rfl⟩ := List.exists_cons_of_ne_nil hk.ne_nil
  rw [hc.founded.store.tipHeight_eq, hc.staged.sound.follows.tipHeight_eq]

theorem ledger : ∃ c, d.Checked c ∧ t'.ledger = { t.ledger with
    store := c.store
    bus := ((Event.ofCommit? n d.ancestor c).elim t.ledger.bus t.ledger.bus.publish).setBest
      c.after } := by
  obtain ⟨l, happly, rfl⟩ := commit_eq_ok.mp hc.commit
  obtain ⟨c, hwrite, rfl⟩ := Ledger.apply_eq_ok.mp happly
  obtain rfl : t.ledger.network = n := hc.founded.network
  exact ⟨c, Draft.checked_of_write hwrite, rfl⟩

theorem watched : t'.ledger.Watched := by
  obtain ⟨c, hchecked, hledger⟩ := hc.ledger
  have hafter := hchecked.after
  have htip := hc.tipHeight
  unfold Ledger.Watched
  rw [← Ledger.storedBest_iff hc.founded.store, htip, hledger]
  exact hafter

variable (ht : t.Founded n old b₀) (hw : t.ledger.Watched)

include ht hw

/-- A commit publishes that the chain was cut back when the draft cuts it, and otherwise that it was
extended when the tip is another one. -/
theorem events_cases :
    (d.ancestor = none ∧ t'.ledger.bus.best = t.ledger.bus.best ∧
      t'.ledger.bus.events = t.ledger.bus.events) ∨
    (d.ancestor = none ∧ t'.ledger.bus.best ≠ t.ledger.bus.best ∧
      t'.ledger.bus.events = t.ledger.bus.events.push (.extended n t'.ledger.bus.best)) ∨
    ∃ p, d.ancestor = some p ∧
      t'.ledger.bus.events = t.ledger.bus.events.push (.reorganized n p t'.ledger.bus.best) := by
  obtain ⟨c, hchecked, hledger⟩ := hc.ledger
  have hbefore : c.before = t.ledger.bus.best := by
    have hstored := hchecked.before
    rw [hc.staged.base, Ledger.storedBest_iff ht.store, hw] at hstored
    exact (Except.ok.inj hstored).symm
  rw [hledger]
  unfold Event.ofCommit?
  rw [hbefore]
  cases hancestor : d.ancestor with
  | none =>
    by_cases hsame : c.after = t.ledger.bus.best
    · left
      simp [hsame, EventBus.setBest]
    · right
      left
      simp [hsame, EventBus.setBest, EventBus.publish]
  | some p =>
    right
    right
    have hlow : p.height < t.ledger.bus.best.height := by
      have hcut := (hc.staged.sound.follows.continuous.ancestor p hancestor).2.1
      rw [((Ledger.tip_iff ht.store).mp hw).1, ← hc.staged.base]
      exact hcut
    refine ⟨p, rfl, ?_⟩
    simp [hlow, EventBus.setBest, EventBus.publish]

theorem announces : t.ledger.Announces t'.ledger := by
  have hcontinuous := hc.staged.sound.follows.continuous
  have hbase := hc.staged.base
  have hnetwork := ht.network
  obtain ⟨hheight, -⟩ := (Ledger.tip_iff ht.store).mp hw
  obtain ⟨hheight', hnew⟩ := (Ledger.tip_iff hc.founded.store).mp hc.watched
  unfold Ledger.Announces
  rw [hc.bestAt?, hnetwork]
  rcases hc.events_cases ht hw with ⟨hnone, hsame, hevents⟩ | ⟨hnone, hne, hevents⟩ |
    ⟨p, hp, hevents⟩
  · left
    refine ⟨hevents, ?_⟩
    rw [← hbase]
    apply hcontinuous.bestAt?_eq_base hnone
    rw [← hc.tipHeight, ← hheight', hsame, hheight, hbase]
  · right
    have hkept := Draft.keptHeight_of_none hnone
    have hprefix : ∀ height, height ≤ t.ledger.store.tipHeight →
        t'.ledger.store.bestAt? height = t.ledger.store.bestAt? height := by
      intro height hle
      rw [hc.bestAt?, ← hbase]
      exact hcontinuous.bestAt?_of_le (by rw [hkept, hbase]; exact hle)
    refine ⟨_, hevents, rfl, rfl, lt_of_le_of_ne ?_ ?_, hprefix⟩
    · rw [hc.tipHeight, ← hbase, ← hkept]
      exact hcontinuous.keptHeight_le.2
    · intro htip
      -- With the same height the new tip would be the block that the old chain has there.
      rw [← htip] at hheight'
      rw [Store.onBest_iff, hprefix _ hheight'.le, ← Store.onBest_iff] at hnew
      have hsame := (Ledger.tip_iff ht.store).mpr ⟨hheight', hnew⟩
      exact hne (Except.ok.inj (hsame.symm.trans hw))
  · right
    obtain ⟨-, hlt, hat⟩ := hcontinuous.ancestor p hp
    refine ⟨_, hevents, rfl, rfl, hbase ▸ hlt, ?_, ?_⟩
    · rw [Store.onBest_iff, ← hbase]
      exact hat
    · rw [Store.onBest_iff, hc.bestAt?,
        hcontinuous.bestAt?_of_le (Draft.keptHeight_of_ancestor hp).ge]
      exact hat

end Tracker.Commits

/-! ## Exact events -/

theorem Ledger.reorganizes_iff {e : Event} (h : l'.bus.events = l.bus.events.push e) :
    l.Reorganizes l' p ↔ e = .reorganized l.network p l'.bus.best := by
  unfold Reorganizes
  rw [h, Array.push_eq_push]
  simp

theorem Ledger.not_reorganizes (h : l'.bus.events = l.bus.events) : ¬ l.Reorganizes l' p :=
  fun hpush => Array.push_ne_self (hpush.symm.trans h)

section Exactly

variable (hs : l.store.Founded n old b₀) (hs' : l'.store.Founded n links b)
variable (hw : l.Watched) (hw' : l'.Watched)

include hs hs' hw hw'

theorem Ledger.best_eq (hsame : l'.store.bestAt? = l.store.bestAt?) : l'.bus.best = l.bus.best := by
  obtain ⟨hheight, hat⟩ := (tip_iff hs).mp hw
  obtain ⟨hheight', hat'⟩ := (tip_iff hs').mp hw'
  have hsome := Option.isSome_of_eq_some (Store.onBest_iff.mp hat)
  have hsome' := Option.isSome_of_eq_some (Store.onBest_iff.mp hat')
  rw [← hsame, hs'.sound.follows.continuous.base.bestAt] at hsome
  rw [hsame, hs.sound.follows.continuous.base.bestAt] at hsome'
  have hp : l.tip = .ok l'.bus.best := by
    refine (tip_iff hs).mpr ⟨by lia, ?_⟩
    rw [Store.onBest_iff, ← hsame]
    exact Store.onBest_iff.mp hat'
  exact Except.ok.inj (hp.symm.trans hw)

/-- What is published is exact when the chain is cut back no further than to its highest position
that is also on the new chain. -/
theorem Ledger.Announces.exactly (h : l.Announces l')
    (hhighest : ∀ p, l.Reorganizes l' p → ∀ q, l.store.onBest q = true →
      l'.store.onBest q = true → q.height ≤ p.height) : l.AnnouncesExactly l' := by
  obtain ⟨hheight, hold⟩ := (tip_iff hs).mp hw
  obtain ⟨hheight', hnew⟩ := (tip_iff hs').mp hw'
  rcases h with ⟨hevents, hsame⟩ | ⟨e, hevents, hnetwork, htip, htells⟩
  · have hbest := best_eq hs hs' hw hw' hsame
    have hstays : l'.store.onBest l.bus.best = true := hbest ▸ hnew
    refine ⟨by simp [hevents, hbest], ?_, fun p hp => absurd hp (not_reorganizes hevents)⟩
    simp [not_reorganizes hevents, hstays]
  · have hpublished : l'.bus.events ≠ l.bus.events := hevents ▸ Array.push_ne_self
    cases e with
    | extended network tip =>
      obtain ⟨hlt, hprefix⟩ := htells
      have hnot (p : Position) : ¬ l.Reorganizes l' p := by simp [reorganizes_iff hevents]
      have hchanged : l'.bus.best ≠ l.bus.best := by
        intro heq
        rw [heq, hheight] at hheight'
        lia
      have hstays : l'.store.onBest l.bus.best = true := by
        rw [Store.onBest_iff, hprefix _ hheight.le]
        exact Store.onBest_iff.mp hold
      exact ⟨iff_of_true hpublished hchanged, by simp [hnot, hstays],
        fun p hp => absurd hp (hnot p)⟩
    | reorganized network p tip =>
      obtain ⟨hlow, hon, hon'⟩ := htells
      obtain rfl : network = l.network := hnetwork
      obtain rfl : tip = l'.bus.best := htip
      have hlost : l'.store.onBest l.bus.best = false := by
        by_contra hstays
        rw [Bool.not_eq_false] at hstays
        have hle := hhighest p hevents _ hold hstays
        lia
      have hchanged : l'.bus.best ≠ l.bus.best := by
        intro heq
        rw [heq, hlost] at hnew
        cases hnew
      refine ⟨iff_of_true hpublished hchanged, iff_of_true ⟨p, hevents⟩ hlost, ?_⟩
      intro q hq
      obtain ⟨-, rfl, -⟩ := Event.reorganized.inj ((reorganizes_iff hevents).mp hq)
      exact ⟨hon, hon', hhighest _ hq⟩

end Exactly

/-- A draft that spares the old chain is cut back no further than to the highest position that the
old chain shares with the new one. -/
theorem Tracker.Commits.exactly {more : List Link} (hc : t.Commits n (old ++ more) b d t')
    (ht : t.Founded n old b₀) (hw : t.ledger.Watched) (hspares : t.ledger.draft.Spares b₀ b d) :
    t.ledger.AnnouncesExactly t'.ledger := by
  apply (hc.announces ht hw).exactly ht.store hc.founded.store hw hc.watched
  intro p hp q hq hq'
  have hancestor : d.ancestor = some p := by
    rcases hc.events_cases ht hw with ⟨-, -, hevents⟩ | ⟨-, -, hevents⟩ | ⟨p', hp', hevents⟩
    · exact absurd hp (Ledger.not_reorganizes hevents)
    · simp [Ledger.reorganizes_iff hevents] at hp
    · rw [Ledger.reorganizes_iff hevents] at hp
      rw [hp', (Event.reorganized.inj hp).2.1]
  obtain ⟨k, hk⟩ := ht.store.optimal.route
  obtain ⟨j, hj⟩ := hc.founded.store.optimal.route
  have hk' : Route (forestOf t'.ledger.store.header?) n.genesisHash k b₀ := by
    rw [hc.founded.store.forest]
    rw [ht.store.forest] at hk
    exact hk.mono fun _ _ => firsts_append_of_some more
  rw [Store.onBest_iff, ht.store.bestAt?_iff] at hq
  rw [Store.onBest_iff, hc.founded.store.bestAt?_iff] at hq'
  obtain ⟨r, hr, hr', hlen⟩ := hk'.common_suffix hc.founded.store.exact.named hj hq hq'
  rcases hspares p hancestor with hnone | hpart
  · cases hnone
  · have hle := hpart r hr hr'
    lia

/-! ## What operations publish -/

structure Ledger.Reports (l l' : Ledger) (single : Prop) : Prop where
  watched : l'.Watched
  announces : l.Announces l'
  exactly : single → l.AnnouncesExactly l'

theorem Ledger.Reports.refl {single : Prop} (hs : l.store.Founded n links b) (hw : l.Watched) :
    l.Reports l single := by
  have hsame : l.Announces l := .inl ⟨rfl, rfl⟩
  exact ⟨hw, hsame, fun _ => hsame.exactly hs hs hw hw fun _ hp => absurd hp (not_reorganizes rfl)⟩

theorem Tracker.Commits.reports {single : Prop} {more : List Link}
    (hc : t.Commits n (old ++ more) b d t') (ht : t.Founded n old b₀) (hw : t.ledger.Watched)
    (hspares : single → t.ledger.draft.Spares b₀ b d) : t.ledger.Reports t'.ledger single :=
  ⟨hc.watched, hc.announces ht hw, fun hsingle => hc.exactly ht hw (hspares hsingle)⟩

/-- Operations that choose the best chain once at most: a header is added, or the checkpoint is
added or deleted. -/
def Operation.Single : Operation → Prop
  | addHeaders hs => hs.length ≤ 1
  | sync _ records => records.length ≤ 1
  | addHeader _ | addCheckpoint _ _ _ | deleteCheckpoint => True
  | init _ _ | reopen _ => False

/-- The request fails. For headers from a peer that is when none are added. -/
def Operation.Fails (t : Tracker) : Operation → Prop
  | addHeader h => (t.addHeader h).isOk = false
  | addHeaders hs => (t.addHeaders hs).isOk = false
  | sync prior records => (t.sync prior records).1 = 0
  | addCheckpoint height hash _ => (t.addCheckpoint height hash).isOk = false
  | deleteCheckpoint => t.deleteCheckpoint.isOk = false
  | init default _ => ({ t with default } : Tracker).upgrade.isOk = false
  | reopen network => (Ledger.ofStore t.ledger.store network).isOk = false

namespace Tracker

variable (ht : t.Founded n links b) (hw : t.ledger.Watched)

include ht hw

theorem Founded.reports_addHeaders (hs : List Header)
    (hroomy : Roomy (links ++ hs.map Header.link)) :
    ∃ t', t.addHeaders hs = .ok t' ∧ t.ledger.Reports t'.ledger (hs.length ≤ 1) := by
  by_cases hnil : hs = []
  · subst hnil
    exact ⟨t, rfl, .refl ht.store hw⟩
  · obtain ⟨b', e, he, hadded⟩ := ht.draft.sound.addHeaders hs
    obtain ⟨t', hcommits, -⟩ := ht.commit_added hroomy hadded
    refine ⟨t', (addHeaders_eq hnil he).trans hcommits.commit, hcommits.reports ht hw ?_⟩
    intro hsingle
    exact ht.draft.sound.spares_of_addHeaders hsingle he hadded

theorem Founded.reports_run (o : Operation)
    (hroomy : ((links.length + o.size : ℕ) : Height) ≤ Height.greatest)
    (hopen : ∀ network, o ≠ .reopen network) : t.ledger.Reports (o.run t).ledger o.Single := by
  have hbefore : Roomy links := by
    unfold Roomy
    lia
  have hsame {single : Prop} : t.ledger.Reports t.ledger single := .refl ht.store hw
  cases o with
  | addHeader h =>
    obtain ⟨t', hadd, hreports⟩ := ht.reports_addHeaders hw [h] (roomy_append_iff.mpr hroomy)
    have hrun : (Operation.addHeader h).run t = t' := by
      rw [Operation.run, Tracker.addHeader, hadd]
      rfl
    rw [hrun]
    exact ⟨hreports.watched, hreports.announces, fun _ => hreports.exactly le_rfl⟩
  | addHeaders hs =>
    obtain ⟨t', hadd, hreports⟩ := ht.reports_addHeaders hw hs (roomy_append_iff.mpr hroomy)
    rw [Operation.run, hadd]
    exact hreports
  | sync prior records =>
    rw [Operation.run]
    rcases t.sync_roomy prior records hroomy with hnone | ⟨hs, t', -, hlen, hmore, hadd, hall⟩
    · rw [hnone]
      exact hsame
    · obtain ⟨t₁, hadd₁, hreports⟩ := ht.reports_addHeaders hw hs hmore
      cases hadd.symm.trans hadd₁
      rw [hall]
      exact ⟨hreports.watched, hreports.announces,
        fun hsingle => hreports.exactly (hlen.trans hsingle)⟩
  | addCheckpoint height hash fits =>
    rw [Operation.run]
    rcases ht.addCheckpoint hbefore hash fits with ⟨cause, hfail⟩ | ⟨b', e, t', hadd, h, hc, -⟩
    · rw [hfail]
      exact hsame
    · rw [hadd]
      rw [← List.append_nil links] at hc
      exact hc.reports ht hw fun _ => h.spares.congr rfl
  | deleteCheckpoint =>
    rw [Operation.run]
    rcases ht.deleteCheckpoint hbefore with ⟨-, cause, hfail⟩ | ⟨b', e, t', hdelete, h, hc, -⟩
    · rw [hfail]
      exact hsame
    · rw [hdelete]
      rw [← List.append_nil links] at hc
      exact hc.reports ht hw fun _ => h.spares.congr rfl
  | init default fits =>
    have hd : ({ t with default } : Tracker).Founded n links b := ⟨ht.network, ht.store⟩
    obtain ⟨t', b', hupgrade, -, hchange⟩ := hd.upgrade hbefore fits
    rw [Operation.run, hupgrade]
    rcases hchange with rfl | ⟨e, hc⟩
    · exact hsame
    · rw [← List.append_nil links] at hc
      exact hc.reports hd hw False.elim
  | reopen network => exact absurd rfl (hopen network)

theorem Founded.watched_run (o : Operation)
    (hroomy : ((links.length + o.size : ℕ) : Height) ≤ Height.greatest) :
    (o.run t).ledger.Watched := by
  by_cases hopen : ∃ network, o = .reopen network
  · obtain ⟨network, rfl⟩ := hopen
    rw [Operation.run]
    cases hstore : Ledger.ofStore t.ledger.store network with
    | error cause => exact hw
    | ok l => exact Ledger.watched_of_ofStore hstore
  · exact (ht.reports_run hw o hroomy fun network heq => hopen ⟨network, heq⟩).watched

theorem Founded.watched_runAll {os : List Operation}
    (hroomy : ((links.length + (os.map Operation.size).sum : ℕ) : Height) ≤ Height.greatest) :
    (Operation.runAll t os).ledger.Watched := by
  induction os generalizing t links b with
  | nil => exact hw
  | cons o os ih =>
    rw [List.map_cons, List.sum_cons] at hroomy
    have hlen := brought_length_le t o
    obtain ⟨b₁, hfirst⟩ := ht.run o (by lia)
    refine ih hfirst (ht.watched_run hw o (by lia)) ?_
    rw [List.length_append, List.length_map]
    lia

omit ht hw in
theorem run_of_fails {o : Operation} (hfails : o.Fails t) : (o.run t).ledger = t.ledger := by
  have hafter {result : Except ChainError Tracker} (h : result.isOk = false) :
      t.after result = t := by
    cases result with
    | error cause => rfl
    | ok t' => cases h
  cases o with
  | addHeader h => rw [Operation.run, hafter hfails]
  | addHeaders hs => rw [Operation.run, hafter hfails]
  | sync prior records =>
    change (t.sync prior records).1 = 0 at hfails
    rw [Operation.run]
    rcases t.sync_cases prior records with hnone | ⟨t', hadd, hall⟩
    · rw [hnone]
    · rw [hall] at hfails ⊢
      rw [List.length_eq_zero_iff.mp hfails] at hadd
      cases hadd
      rfl
  | addCheckpoint height hash fits => rw [Operation.run, hafter hfails]
  | deleteCheckpoint => rw [Operation.run, hafter hfails]
  | init default fits => rw [Operation.run, hafter hfails]
  | reopen network =>
    change (Ledger.ofStore t.ledger.store network).isOk = false at hfails
    rw [Operation.run]
    cases hstore : Ledger.ofStore t.ledger.store network with
    | error cause => rfl
    | ok l =>
      rw [hstore] at hfails
      cases hfails

end Tracker

theorem History.watched (h : History) (n : Network) : (h.last n).ledger.Watched := by
  have hsmall := h.small
  have hfresh : (Tracker.fresh n).ledger.Watched := Ledger.watched_of_ofStore (Ledger.create_eq n)
  exact (Tracker.founded_fresh n).watched_runAll hfresh (by simpa using hsmall)

/-- The bus shows the tip after every history and after every further operation. An operation
publishes at most one event, which tells of the new best chain; without an event that chain is the
same. When one header is added, or the checkpoint is added or deleted, the event is exact: there is
one just when the tip changes, and the chain is told to be cut back just when the old tip has lost
its place, to the highest position that both chains have. A request that fails publishes nothing. -/
theorem History.events_faithful (h : History) (n : Network) (o : Operation)
    (hadmits : h.Admits o.size) :
    (h.last n).ledger.Watched ∧ (o.run (h.last n)).ledger.Watched ∧
    ((∀ network, o ≠ .reopen network) →
      (h.last n).ledger.Announces (o.run (h.last n)).ledger) ∧
    (o.Single → (h.last n).ledger.AnnouncesExactly (o.run (h.last n)).ledger) ∧
    (o.Fails (h.last n) → (o.run (h.last n)).ledger = (h.last n).ledger) := by
  obtain ⟨b, ht⟩ := h.founded n
  have hw := h.watched n
  have hroomy := hadmits.roomy n
  refine ⟨hw, ht.watched_run hw o hroomy, ?_, ?_, Tracker.run_of_fails⟩
  · intro hopen
    exact (ht.reports_run hw o hroomy hopen).announces
  · intro hsingle
    refine (ht.reports_run hw o hroomy ?_).exactly hsingle
    rintro network rfl
    exact hsingle

/-- The first header above genesis. -/
theorem History.events_of_lower : (⟨[], by decide⟩ : History).Admits 1 ∧
    (Tracker.fresh .regtest).ledger.AnnouncesExactly
      ((Operation.addHeader lowerHeader).run (.fresh .regtest)).ledger := by
  have hadmits : (⟨[], by decide⟩ : History).Admits 1 := by
    unfold History.Admits
    decide
  exact ⟨hadmits, (events_faithful ⟨[], by decide⟩ .regtest (.addHeader lowerHeader)
    hadmits).2.2.2.1 trivial⟩

end HeaderChain
