import HeaderChain.Proofs.HistoryIndependence
import HeaderChain.Proofs.Outcomes
import HeaderChain.Proofs.Targets

/-!
# Ties keep the incumbent

The tip of the best chain gives its place to another one only when that has strictly more work.
New headers compete with the tip itself. When the checkpoint is deleted, the reference is the header
below it, which may have less work than the tip; but the current chain is the first candidate then,
and a later one has to have more work than all before it.
-/

namespace HeaderChain

variable {s s' : Store} {n : Network} {links links' b b' r : List Link} {x : Link} {c : Position}
variable {t : Tracker}

/-! ## The first candidate -/

section First

variable {d e : Draft} {a : Candidate} {cands : List Candidate} {g k : Hash} {path : List Position}
variable {most work m : ℕ} {winner : Option (List Position)} {p : Position}

theorem Candidate.Offers.work_eq (ht : Exact d.header? g c) (ha : a.Offers d path work)
    (hp : path.getLast? = some p) (hr : Route (forestOf d.header?) g p.hash r) :
    work = totalWork r := by
  obtain ⟨-, q, h, hq, hh, rfl⟩ := ha
  cases hp.symm.trans hq
  obtain ⟨x, r, rfl⟩ := List.exists_cons_of_ne_nil hr.ne_nil
  rw [ht.placed hr] at hh
  cases hh
  rfl

/-- A tip offers its whole route when no checkpoint is in the way. -/
theorem Stands.offers {part : List Link × List Link} (ht : Exact d.header? g d.currentCheckpoint)
    (hs : Stands (forestOf d.header?) g r k part)
    (hclear : conflicts d.currentCheckpoint (part.2.reverse ++ part.1) = false)
    (hne : part.2 ≠ []) : (flagged d.currentCheckpoint part).Offers d (ascend part.1 part.2)
      (totalWork (part.2.reverse ++ part.1)) := by
  refine (hs.branches.offers_iff ht).mpr ?_
  rw [clearing_of_clear hclear]
  exact ⟨hne, rfl, rfl⟩

theorem Covers.offers {ks : List Hash} {parts : List (List Link × List Link)}
    (ht : Exact d.header? g d.currentCheckpoint) (hc : Covers (forestOf d.header?) g r ks parts) :
    ∀ a ∈ parts.map (flagged d.currentCheckpoint), ∃ path, a.eligible d = .ok path ∧
      (path = [] ∨ ∃ work, a.Offers d path work) := by
  intro a ha
  obtain ⟨part, hmem, rfl⟩ := List.mem_map.mp ha
  obtain ⟨k, -, hstands⟩ := hc.exists_tip hmem
  exact hstands.branches.offers ht

namespace Draft

theorem heaviest_cons (ha : a.Offers d path work) (hlt : most < work) :
    d.heaviest most winner (a :: cands) = d.heaviest work (some path) cands := by
  obtain ⟨hpath, p, x, hp, hx, rfl⟩ := ha
  rw [heaviest, hpath]
  simp only [bind, Except.bind, hp, header_eq hx]
  exact if_pos hlt

/-- When the first candidate offers more than the reference, it is picked, or one with more work. -/
theorem Picked.first (ht : Exact d.header? g c)
    (hcands : ∀ a ∈ cands, ∃ path, a.eligible d = .ok path ∧
      (path = [] ∨ ∃ work, a.Offers d path work))
    (ha : a.Offers d path work) (hlt : totalWork r < work) (hp : d.Picked g r (a :: cands) b') :
    (∃ p, path.getLast? = some p ∧ Route (forestOf d.header?) g p.hash b') ∨
      work < totalWork b' := by
  obtain ⟨result, hresult, hpicked⟩ := hp
  rw [heaviest_cons ha hlt] at hresult
  obtain ⟨result', hresult', hheaviest⟩ := heaviest_spec work (some path) hcands
  cases hresult.symm.trans hresult'
  rcases hheaviest with ⟨rfl, -⟩ | ⟨a', -, path', work', hoffer, rfl, hmore, -⟩
  · exact .inl hpicked
  · obtain ⟨p, hlast, hroute⟩ := hpicked
    exact .inr (hoffer.work_eq ht hlast hroute ▸ hmore)

/-- Where the checkpoint rules out nothing of the best chain, the one that is picked again is that
or has more work, when each of its headers has work. -/
theorem Rechosen.heavier (h : d.Rechosen g b m b' e)
    (hclear : conflicts e.currentCheckpoint b = false) (hwork : ∀ x ∈ b, 0 < x.work) :
    b' = b ∨ totalWork b < totalWork b' := by
  obtain ⟨k, R, parts, hk, hR, -, hcover, hreference, hpicked⟩ := h.repicked
  obtain ⟨part, parts, hstands, hothers, rfl⟩ := List.forall₂_cons_left_iff.mp hcover
  have hexact := h.sound.exact
  have hforest := h.forest
  rw [← hforest] at hk hstands hothers
  have hwhole : part.2.reverse ++ part.1 = b := hstands.route.unique hk
  by_cases hsame : R = b
  · exact hsame ▸ hreference
  have hne : part.2 ≠ [] := by
    intro hnil
    rw [hnil, List.reverse_nil, List.nil_append] at hwhole
    exact hsame (hR.eq_of_length_le (hwhole ▸ hstands.suffix.length_le))
  have hlt := totalWork_lt_of_suffix hR hsame hwork
  have hoffer := hstands.offers hexact (hwhole ▸ hclear) hne
  rw [hwhole] at hoffer
  rcases hpicked.first hexact (Covers.offers hexact hothers) hoffer hlt with
    ⟨p, hp, hroute⟩ | hmore
  · left
    have htip : (flagged e.currentCheckpoint part).tip? = some p := List.head?_reverse.trans hp
    have hb := (hstands.branches.route_tip hexact.named htip).1
    rw [hwhole] at hb
    exact hroute.unique hb
  · exact .inr hmore

end Draft

end First

/-! ## Operations -/

/-- The tip of the best chain stays, or another one with more work takes its place. -/
def Store.KeepsIncumbent (s s' : Store) : Prop :=
  ∃ x y, s.best = .ok x ∧ s'.best = .ok y ∧ x.work ≤ y.work ∧ (y.hash ≠ x.hash → x.work < y.work)

theorem Store.Founded.keepsIncumbent (hs : s.Founded n links b) (hs' : s'.Founded n links' b')
    (h : b' = b ∨ totalWork b < totalWork b') : s.KeepsIncumbent s' := by
  obtain ⟨k, hk⟩ := hs.optimal.route
  obtain ⟨j, hj⟩ := hs'.optimal.route
  obtain ⟨x, r, rfl⟩ := List.exists_cons_of_ne_nil hk.ne_nil
  obtain ⟨y, u, rfl⟩ := List.exists_cons_of_ne_nil hj.ne_nil
  refine ⟨_, _, hs.best, hs'.best, ?_⟩
  rw [work_placed, work_placed, hash_placed, hash_placed]
  rcases h with hsame | hlt
  · rw [hsame]
    cases hsame
    exact ⟨le_rfl, fun hne => absurd rfl hne⟩
  · exact ⟨hlt.le, fun _ => hlt⟩

theorem Store.Founded.keepsIncumbent_self (hs : s.Founded n links b) : s.KeepsIncumbent s :=
  hs.keepsIncumbent hs (.inl rfl)

theorem Store.Founded.mem_of_best (hs : s.Founded n links b) (hx : x ∈ b) :
    x ∈ n.genesis.link :: links := by
  obtain ⟨k, hk⟩ := hs.optimal.route
  rw [hs.forest] at hk
  obtain ⟨u, r, rfl⟩ := List.append_of_mem hx
  have hroute := hk.of_suffix (named_firsts _) (List.suffix_append u (x :: r))
  exact mem_of_firsts hroute.found

theorem Store.Founded.work_pos {xs : List Header} (hs : s.Founded n (xs.map Header.link) b)
    (husable : ∀ x ∈ xs, x.Usable) : ∀ x ∈ b, 0 < x.work := by
  intro x hx
  rcases List.mem_cons.mp (hs.mem_of_best hx) with rfl | hmem
  · exact (Network.usable_genesis n).work_pos
  · obtain ⟨y, hy, rfl⟩ := List.mem_map.mp hmem
    exact (husable y hy).work_pos

namespace Tracker.Founded

theorem keepsIncumbent_addHeaders (ht : t.Founded n links b) (hs : List Header)
    (hroomy : Roomy (links ++ hs.map Header.link)) :
    ∃ t', t.addHeaders hs = .ok t' ∧ t.ledger.store.KeepsIncumbent t'.ledger.store := by
  obtain ⟨b', e, he, hadded⟩ := ht.draft.sound.addHeaders hs
  obtain ⟨t', hadd, hfounded, -⟩ := ht.addHeaders_of_added hroomy he hadded
  exact ⟨t', hadd, ht.store.keepsIncumbent hfounded.store hadded.heavier⟩

theorem keepsIncumbent_sync (ht : t.Founded n links b) (prior : Hash) (records : List SyncRecord)
    (hroomy : ((links.length + records.length : ℕ) : Height) ≤ Height.greatest) :
    t.ledger.store.KeepsIncumbent (t.sync prior records).2.ledger.store := by
  rcases t.sync_roomy prior records hroomy with hnone | ⟨hs, t', -, -, hmore, hadd, hall⟩
  · rw [hnone]
    exact ht.store.keepsIncumbent_self
  · obtain ⟨t₁, hadd₁, hkeeps⟩ := ht.keepsIncumbent_addHeaders hs hmore
    cases hadd.symm.trans hadd₁
    rw [hall]
    exact hkeeps

theorem keepsIncumbent_deleteCheckpoint (ht : t.Founded n links b) (hroomy : Roomy links)
    (hwork : ∀ x ∈ b, 0 < x.work) :
    t.ledger.store.KeepsIncumbent (t.after t.deleteCheckpoint).ledger.store := by
  rcases ht.deleteCheckpoint hroomy with ⟨-, cause, hfail⟩ | ⟨b', e, t', hdelete, h, hc, -⟩
  · rw [hfail]
    exact ht.store.keepsIncumbent_self
  · rw [hdelete]
    have hclear := (Position.Concerns.blank b.length).clear le_rfl
    rw [← currentCheckpoint_of_clear h.checkpoint] at hclear
    exact ht.store.keepsIncumbent hc.founded.store (h.heavier hclear hwork)

end Tracker.Founded

/-- Whatever headers are added, and when the checkpoint is deleted, the tip stays or another one
with more work takes its place. Deleting the checkpoint asks that the headers have usable targets,
as those have that are decoded or made from raw fields. -/
theorem History.ties_keep_incumbent (h : History) (n : Network) :
    (∀ x, h.Admits 1 →
      (h.store n).KeepsIncumbent ((Operation.addHeader x).run (h.last n)).ledger.store) ∧
    (∀ hs, h.Admits hs.length →
      (h.store n).KeepsIncumbent ((Operation.addHeaders hs).run (h.last n)).ledger.store) ∧
    (∀ prior records, h.Admits records.length →
      (h.store n).KeepsIncumbent ((Operation.sync prior records).run (h.last n)).ledger.store) ∧
    ((∀ x ∈ h.accepted n, x.Usable) →
      (h.store n).KeepsIncumbent (Operation.deleteCheckpoint.run (h.last n)).ledger.store) := by
  obtain ⟨b, ht⟩ := h.founded n
  have hadd (hs : List Header) (hadmits : h.Admits hs.length) :
      (h.store n).KeepsIncumbent ((Operation.addHeaders hs).run (h.last n)).ledger.store := by
    obtain ⟨t', hadd, hkeeps⟩ := ht.keepsIncumbent_addHeaders hs (h.roomy_append n hadmits)
    rw [Operation.run, hadd]
    exact hkeeps
  refine ⟨fun x => hadd [x], hadd, ?_, ?_⟩
  · intro prior records hadmits
    exact ht.keepsIncumbent_sync prior records (hadmits.roomy n)
  · intro husable
    exact ht.keepsIncumbent_deleteCheckpoint (h.roomy n) (ht.store.work_pos husable)

theorem usable_upward : ∀ x ∈ [lowerHeader, upperHeader], x.Usable := by
  have heasy (parent : Hash) (time : UInt32) : (easyHeader parent time).Usable :=
    Header.usable_of_ofRaw (ofRaw_easyHeader parent time)
  simp [lowerHeader, upperHeader, heasy]

/-- The upper header wins again when the checkpoint that bans it is deleted. -/
theorem History.ties_of_pinned : (∀ x ∈ pinned.accepted .regtest, x.Usable) ∧
    (pinned.store .regtest).KeepsIncumbent
      (Operation.deleteCheckpoint.run (pinned.last .regtest)).ledger.store := by
  have husable : ∀ x ∈ pinned.accepted .regtest, x.Usable := by
    intro x hx
    simp only [accepted, pinned, Operation.broughtAll, Operation.brought, List.append_nil] at hx
    split_ifs at hx
    · exact usable_upward x hx
    · cases hx
  exact ⟨husable, (pinned.ties_keep_incumbent .regtest).2.2.2 husable⟩

end HeaderChain
