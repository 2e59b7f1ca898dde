import HeaderChain.Proofs.Addition
import HeaderChain.Proofs.Founding
import HeaderChain.Proofs.Rechoosing
import HeaderChain.Tracker

/-!
# Operations of a tracker

Each operation of a tracker over a founded store either fails, which leaves the tracker as it was,
or leaves a founded store. Only headers that are brought change the forest. Adding headers never
fails, and a checkpoint is refused only when it is too low or there is one already.
-/

namespace HeaderChain

/-- A draft is applied when its changes can be written. What the bus then publishes depends on the
tips before and after, and on where the best chain is cut. -/
theorem Ledger.apply_eq_ok {l l' : Ledger} {d : Draft} : l.apply d = .ok l' ↔
    ∃ c, d.write = .ok c ∧ l' = { l with
      store := c.store
      bus := ((Event.ofCommit? l.network d.ancestor c).elim l.bus l.bus.publish).setBest
        c.after } := by
  unfold apply Draft.commit
  cases d.write with
  | error cause => simp [Except.mapError, bind, Except.bind]
  | ok c =>
    simp only [Except.mapError, bind, Except.bind, pure, Except.pure, Except.ok.injEq,
      exists_eq_left', @eq_comm _ l']
    cases Event.ofCommit? l.network d.ancestor c <;> rfl

theorem Position.Concerns.blank (m : ℕ) : Position.blank.Concerns m := .inl (by decide)

theorem Store.Founded.tipHeight_eq {s : Store} {n : Network} {links r : List Link} {x : Link}
    (hs : s.Founded n links (x :: r)) : s.tipHeight = r.length := by
  rw [← Draft.tipHeight_mk]
  exact hs.sound.follows.tipHeight_eq

theorem Store.Founded.best {s : Store} {n : Network} {links r : List Link} {x : Link}
    (hs : s.Founded n links (x :: r)) : s.best = .ok (x.placed s.checkpoint r) := by
  obtain ⟨k, hk⟩ := hs.sound.optimal.route
  have hplaced := hs.sound.exact.placed hk
  rw [← hk.hash_eq hs.sound.exact.named, Draft.header?_mk] at hplaced
  have hat := (hs.sound.follows.bestAt r.length x.hash).mpr (by simp [positions])
  rw [Draft.bestAt?_mk] at hat
  unfold Store.best
  rw [hs.tipHeight_eq, hat]
  change s.load x.hash = _
  unfold Store.header? at hplaced
  cases hload : s.load x.hash with
  | error cause => simp [hload, Except.toOption] at hplaced
  | ok h =>
    rw [hload] at hplaced
    cases hplaced
    rfl

structure Tracker.Founded (t : Tracker) (n : Network) (links b : List Link) : Prop where
  network : t.ledger.network = n
  store : t.ledger.store.Founded n links b

/-- A sound draft over the store of a tracker, with the links that were brought. -/
structure Tracker.Staged (t : Tracker) (n : Network) (links b : List Link) (d : Draft) : Prop where
  base : d.base = t.ledger.store
  sound : d.Sound n.genesisHash b
  forest : forestOf d.header? = firsts (n.genesis.link :: links)

/-- The tracker `t'` was left by the commit of a draft over the store of `t`. -/
structure Tracker.Commits (t : Tracker) (n : Network) (links b : List Link) (d : Draft)
    (t' : Tracker) : Prop where
  staged : t.Staged n links b d
  commit : t.commit d = .ok t'
  founded : t'.Founded n links b
  checkpoint : t'.checkpoint = d.currentCheckpoint

namespace Tracker

variable {t t' : Tracker} {n : Network} {links more b b' : List Link} {d e : Draft} {p : Position}
variable {m : ℕ} {height : Height} {change : CheckpointChange}

theorem Founded.draft (ht : t.Founded n links b) : t.Staged n links b t.ledger.draft := by
  refine ⟨rfl, ht.store.sound, ?_⟩
  rw [← ht.store.forest, Ledger.draft, Draft.header?_mk]

theorem commit_eq_ok : t.commit d = .ok t' ↔
    ∃ l, t.ledger.apply d = .ok l ∧ t' = { t with ledger := l } := by
  unfold Tracker.commit
  cases t.ledger.apply d with
  | error cause => simp
  | ok l => simp [eq_comm]

/-- A sound draft over a founded store can be committed, and leaves a founded store. -/
theorem Founded.commit (ht : t.Founded n links b) (hroomy : Roomy more) (hd : t.Staged n more b' d)
    (hcheckpoint : d.currentCheckpoint.Settable) (hset : d.checkpoint ≠ .set .blank) :
    ∃ t', t.Commits n more b' d t' := by
  have hcontinuous := hd.sound.follows.continuous
  have hfits := hd.sound.fits hd.forest hroomy hcheckpoint
  have hnamed : ∀ (k : Hash) (h : Header), d.headers[k]? = some h → h.hash = k := by
    intro k h hk
    apply hd.sound.exact.hash_eq
    simp [Draft.header?, hk]
  have hunset : ∀ p, d.checkpoint = .set p → p.isBlank = false := by
    intro p hp
    by_contra hblank
    rw [Bool.not_eq_false, Position.isBlank_iff] at hblank
    exact hset (hblank ▸ hp)
  obtain ⟨c, hwrite, hholds, hshows⟩ := Draft.write_spec (hd.base ▸ ht.store.canonical) hcontinuous
    hfits hnamed hunset
  have happly := Ledger.apply_eq_ok (l := t.ledger).mpr ⟨c, hwrite, rfl⟩
  refine ⟨_, hd, commit_eq_ok.mpr ⟨_, happly, rfl⟩, ⟨ht.network, ?_⟩, hshows.checkpoint⟩
  refine ⟨hshows.sound (hholds.readable hshows) hd.sound, ⟨hholds.keyed, ?_⟩, ?_, ?_⟩
  · intro k hk
    rw [hholds.get? k hk, hshows.record?_eq]
  · rw [hshows.header?, hd.forest]
  · rw [hshows.checkpoint]
    exact hcheckpoint

/-! ## Headers -/

theorem addHeaders_eq {hs : List Header} (hne : hs ≠ [])
    (he : t.ledger.draft.addHeaders hs = .ok e) : t.addHeaders hs = t.commit e := by
  unfold Tracker.addHeaders
  rw [if_neg (by simpa using hne), he]
  rfl

theorem Founded.commit_added {hs : List Header} (ht : t.Founded n links b)
    (hroomy : Roomy (links ++ hs.map Header.link))
    (hadded : t.ledger.draft.Added n.genesisHash b (hs.map Header.link) b' e) :
    ∃ t', t.Commits n (links ++ hs.map Header.link) b' e t' ∧ t'.checkpoint = t.checkpoint := by
  have hstaged : t.Staged n (links ++ hs.map Header.link) b' e := by
    refine ⟨hadded.base, hadded.sound, ?_⟩
    rw [hadded.forest, ht.draft.forest, foldl_accept]
    rfl
  have hcheckpoint : e.currentCheckpoint = t.checkpoint :=
    Draft.currentCheckpoint_congr hadded.checkpoint hadded.base
  have hset : e.checkpoint ≠ .set .blank := by
    rw [hadded.checkpoint]
    exact CheckpointChange.noConfusion
  obtain ⟨t', hcommits⟩ := ht.commit hroomy hstaged (hcheckpoint ▸ ht.store.checkpoint) hset
  exact ⟨t', hcommits, hcommits.checkpoint.trans hcheckpoint⟩

theorem Founded.addHeaders_of_added {hs : List Header} (ht : t.Founded n links b)
    (hroomy : Roomy (links ++ hs.map Header.link))
    (he : t.ledger.draft.addHeaders hs = .ok e)
    (hadded : t.ledger.draft.Added n.genesisHash b (hs.map Header.link) b' e) :
    ∃ t', t.addHeaders hs = .ok t' ∧ t'.Founded n (links ++ hs.map Header.link) b' ∧
      t'.checkpoint = t.checkpoint := by
  by_cases hnil : hs = []
  · subst hnil
    cases he
    rw [hadded.sound.best_unique ht.draft.sound]
    exact ⟨t, rfl, by simpa using ht, rfl⟩
  · obtain ⟨t', hcommits, hkept⟩ := ht.commit_added hroomy hadded
    exact ⟨t', (addHeaders_eq hnil he).trans hcommits.commit, hcommits.founded, hkept⟩

theorem Founded.addHeaders (ht : t.Founded n links b) (hs : List Header)
    (hroomy : Roomy (links ++ hs.map Header.link)) :
    ∃ t' b', t.addHeaders hs = .ok t' ∧ t'.Founded n (links ++ hs.map Header.link) b' ∧
      t'.checkpoint = t.checkpoint := by
  obtain ⟨b', e, he, hadded⟩ := ht.draft.sound.addHeaders hs
  obtain ⟨t', hresult⟩ := ht.addHeaders_of_added hroomy he hadded
  exact ⟨t', b', hresult⟩

/-! ## Checkpoints -/

/-- A checkpoint that is not too low says something about one height above genesis. -/
theorem concerns_of_low (hlow : Height.leastCheckpoint ≤ p.height) :
    1 ≤ p.height.toNat ∧ p.height = p.height.toNat ∧ p.Concerns p.height.toNat := by
  unfold Height.leastCheckpoint at hlow
  refine ⟨?_, ?_, .inr ?_⟩ <;> lia

theorem settable_ne_blank (hlow : Height.leastCheckpoint ≤ p.height) : p ≠ .blank := by
  rintro rfl
  exact absurd hlow (by decide)

theorem Founded.low_of_not_blank (ht : t.Founded n links b) (h : t.checkpoint.isBlank = false) :
    Height.leastCheckpoint ≤ t.checkpoint.height := by
  rcases ht.store.checkpoint with hblank | ⟨hlow, -⟩
  · rw [Tracker.checkpoint, hblank, Position.isBlank_blank] at h
    cases h
  · exact hlow

theorem Staged.rechosen (hd : t.Staged n links b d)
    (he : ({ d with checkpoint := change } : Draft).Rechosen n.genesisHash b m b' e) :
    t.Staged n links b' e :=
  ⟨he.base.trans hd.base, he.sound, he.forest.trans hd.forest⟩

theorem Staged.setCheckpoint (hd : t.Staged n links b d) (hblank : d.currentCheckpoint = .blank)
    (hlow : Height.leastCheckpoint ≤ p.height) :
    ∃ b' e, (d.setCheckpoint p).applyCheckpoint p = .ok e ∧
      (d.setCheckpoint p).Rechosen n.genesisHash b p.height.toNat b' e := by
  obtain ⟨hpos, hheight, hconcerns⟩ := concerns_of_low hlow
  exact hd.sound.applyCheckpoint hpos hheight (hblank ▸ .blank _) hconcerns

theorem currentCheckpoint_of_set (h : d.checkpoint = .set p) : d.currentCheckpoint = p := by
  rw [Draft.currentCheckpoint, h]

theorem currentCheckpoint_of_clear (h : d.checkpoint = .clear) : d.currentCheckpoint = .blank := by
  rw [Draft.currentCheckpoint, h]

theorem Founded.cleared (ht : t.Founded n links b) (hset : t.checkpoint.isBlank = false) :
    ∃ b' e, t.ledger.draft.clearCheckpoint.applyCheckpoint t.checkpoint = .ok e ∧
      t.ledger.draft.clearCheckpoint.Rechosen n.genesisHash b t.checkpoint.height.toNat b' e := by
  obtain ⟨hpos, hheight, hconcerns⟩ := concerns_of_low (ht.low_of_not_blank hset)
  exact ht.draft.sound.applyCheckpoint hpos hheight hconcerns (.blank _)

theorem Founded.commitCheckpoint (ht : t.Founded n links b) (hroomy : Roomy links)
    (hd : t.Staged n links b' d) (hblank : d.currentCheckpoint = .blank)
    (hlow : Height.leastCheckpoint ≤ p.height) (hfits : p.height.Fits) :
    ∃ b'' e t', (d.setCheckpoint p).applyCheckpoint p = .ok e ∧
      (d.setCheckpoint p).Rechosen n.genesisHash b' p.height.toNat b'' e ∧
      t.Commits n links b'' e t' ∧ t'.checkpoint = p := by
  obtain ⟨b'', e, happly, hrechosen⟩ := hd.setCheckpoint hblank hlow
  have hcheckpoint := currentCheckpoint_of_set hrechosen.checkpoint
  have hset : e.checkpoint ≠ .set .blank := by
    rw [hrechosen.checkpoint]
    intro heq
    exact settable_ne_blank hlow (CheckpointChange.set.inj heq)
  obtain ⟨t', hcommits⟩ := ht.commit hroomy (hd.rechosen hrechosen)
    (hcheckpoint ▸ .inr ⟨hlow, hfits.2⟩) hset
  exact ⟨b'', e, t', happly, hrechosen, hcommits, hcommits.checkpoint.trans hcheckpoint⟩

theorem addCheckpoint_of_low (t : Tracker) (hash : Hash) (hlow : height < Height.leastCheckpoint) :
    t.addCheckpoint height hash = .error (.lowCheckpoint height) := by
  unfold Tracker.addCheckpoint
  rw [if_pos hlow]
  rfl

theorem addCheckpoint_of_set (hash : Hash) (hlow : Height.leastCheckpoint ≤ height)
    (hset : t.checkpoint.isBlank = false) :
    t.addCheckpoint height hash = .error (.checkpointExists t.checkpoint) := by
  unfold Tracker.addCheckpoint
  rw [if_neg (not_lt.mpr hlow), hset]
  rfl

theorem deleteCheckpoint_of_blank (hblank : t.checkpoint.isBlank = true) :
    t.deleteCheckpoint = .error .noCheckpoint := by
  unfold Tracker.deleteCheckpoint
  rw [hblank]
  rfl

theorem Founded.addCheckpoint_of_blank (ht : t.Founded n links b) (hroomy : Roomy links)
    (hash : Hash) (hlow : Height.leastCheckpoint ≤ height) (hfits : height.Fits)
    (hblank : t.checkpoint.isBlank = true) : ∃ b' e t', t.addCheckpoint height hash = .ok t' ∧
      (t.ledger.draft.setCheckpoint ⟨height, hash⟩).Rechosen n.genesisHash b height.toNat b' e ∧
      t.Commits n links b' e t' ∧ t'.checkpoint = ⟨height, hash⟩ := by
  obtain ⟨b', e, t', happly, hrechosen, hcommits, hafter⟩ := ht.commitCheckpoint hroomy ht.draft
    (p := ⟨height, hash⟩) (Position.isBlank_iff.mp hblank) hlow hfits
  refine ⟨b', e, t', ?_, hrechosen, hcommits, hafter⟩
  unfold Tracker.addCheckpoint
  rw [if_neg (not_lt.mpr hlow), hblank]
  simp only [bind, Except.bind, happly]
  exact hcommits.commit

theorem Founded.addCheckpoint (ht : t.Founded n links b) (hroomy : Roomy links)
    (hash : Hash) (hfits : height.Fits) : (∃ cause, t.addCheckpoint height hash = .error cause) ∨
    ∃ b' e t', t.addCheckpoint height hash = .ok t' ∧
      (t.ledger.draft.setCheckpoint ⟨height, hash⟩).Rechosen n.genesisHash b height.toNat b' e ∧
      t.Commits n links b' e t' ∧ t'.checkpoint = ⟨height, hash⟩ := by
  by_cases hlow : height < Height.leastCheckpoint
  · exact .inl ⟨_, t.addCheckpoint_of_low hash hlow⟩
  · rw [not_lt] at hlow
    cases hblank : t.checkpoint.isBlank with
    | false => exact .inl ⟨_, addCheckpoint_of_set hash hlow hblank⟩
    | true => exact .inr (ht.addCheckpoint_of_blank hroomy hash hlow hfits hblank)

theorem Founded.deleteCheckpoint_of_set (ht : t.Founded n links b) (hroomy : Roomy links)
    (hset : t.checkpoint.isBlank = false) : ∃ b' e t', t.deleteCheckpoint = .ok t' ∧
      t.ledger.draft.clearCheckpoint.Rechosen n.genesisHash b t.checkpoint.height.toNat b' e ∧
      t.Commits n links b' e t' ∧ t'.checkpoint = .blank := by
  obtain ⟨b', e, happly, hrechosen⟩ := ht.cleared hset
  have hcheckpoint := currentCheckpoint_of_clear hrechosen.checkpoint
  have hunset : e.checkpoint ≠ .set .blank := by
    rw [hrechosen.checkpoint]
    exact CheckpointChange.noConfusion
  obtain ⟨t', hcommits⟩ := ht.commit hroomy (ht.draft.rechosen hrechosen)
    (hcheckpoint ▸ .inl rfl) hunset
  refine ⟨b', e, t', ?_, hrechosen, hcommits, hcommits.checkpoint.trans hcheckpoint⟩
  unfold Tracker.deleteCheckpoint
  rw [hset]
  simp only [bind, Except.bind, happly]
  exact hcommits.commit

theorem Founded.deleteCheckpoint (ht : t.Founded n links b) (hroomy : Roomy links) :
    (t.checkpoint = .blank ∧ ∃ cause, t.deleteCheckpoint = .error cause) ∨
    ∃ b' e t', t.deleteCheckpoint = .ok t' ∧
      t.ledger.draft.clearCheckpoint.Rechosen n.genesisHash b t.checkpoint.height.toNat b' e ∧
      t.Commits n links b' e t' ∧ t'.checkpoint = .blank := by
  cases hblank : t.checkpoint.isBlank with
  | true =>
    exact .inl ⟨Position.isBlank_iff.mp hblank, _, deleteCheckpoint_of_blank hblank⟩
  | false => exact .inr (ht.deleteCheckpoint_of_set hroomy hblank)

/-! ## Default checkpoints -/

/-- The checkpoint is above the default one, or it is that, or there is none and the default one is
too low. -/
def Keeps (t : Tracker) : Prop := t.default.position.height < t.checkpoint.height ∨
  t.checkpoint = t.default.position ∨
  t.checkpoint.isBlank = true ∧ t.default.position.height < Height.leastCheckpoint

/-- The checkpoint stays, the default one is set where there is none, or it replaces another one. -/
theorem upgrade_cases (t : Tracker) : t.Keeps ∨
    (t.checkpoint.isBlank = true ∧ Height.leastCheckpoint ≤ t.default.position.height) ∨
    (t.checkpoint.isBlank = false ∧ t.checkpoint.height ≤ t.default.position.height ∧
      t.checkpoint ≠ t.default.position) := by
  by_cases hkeep : t.Keeps
  · exact .inl hkeep
  right
  rw [Keeps, not_or, not_or, not_lt] at hkeep
  obtain ⟨hle, hne, hlow⟩ := hkeep
  cases hblank : t.checkpoint.isBlank with
  | true => exact .inl ⟨rfl, not_lt.mp fun h => hlow ⟨hblank, h⟩⟩
  | false => exact .inr ⟨rfl, hle, hne⟩

theorem upgrade_of_keeps (h : t.Keeps) : t.upgrade = .ok t := by
  unfold Tracker.upgrade
  rcases h with habove | hsame | ⟨hblank, hlow⟩
  · rw [if_pos (.inl habove)]
    rfl
  · rw [if_pos (.inr hsame)]
    rfl
  · simp only [hblank, not_le.mpr hlow, not_false_eq_true, and_self, if_true]
    split_ifs <;> rfl

theorem Founded.upgrade_of_blank (ht : t.Founded n links b) (hroomy : Roomy links)
    (hfits : t.default.position.height.Fits)
    (hlow : Height.leastCheckpoint ≤ t.default.position.height)
    (hblank : t.checkpoint.isBlank = true) : ∃ b' e t', t.upgrade = .ok t' ∧
      (t.ledger.draft.setCheckpoint t.default.position).Rechosen n.genesisHash b
        t.default.position.height.toNat b' e ∧
      t.Commits n links b' e t' ∧ t'.checkpoint = t.default.position := by
  have hnone := Position.isBlank_iff.mp hblank
  obtain ⟨b', e, t', happly, hrechosen, hcommits, hafter⟩ :=
    ht.commitCheckpoint hroomy ht.draft hnone hlow hfits
  refine ⟨b', e, t', ?_, hrechosen, hcommits, hafter⟩
  have hkeep : ¬ (t.checkpoint.height > t.default.position.height ∨
      t.checkpoint = t.default.position) := by
    have hheight : Position.blank.height < Height.leastCheckpoint := by decide
    rw [hnone]
    rintro (habove | heq)
    · lia
    · exact settable_ne_blank hlow heq.symm
  unfold Tracker.upgrade
  rw [if_neg hkeep]
  simpa [hlow, hblank, happly, bind, Except.bind, pure, Except.pure] using hcommits.commit

/-- The default checkpoint replaces another one that is not above it. Both changes are made in one
draft. -/
theorem Founded.upgrade_of_set (ht : t.Founded n links b) (hroomy : Roomy links)
    (hfits : t.default.position.height.Fits) (hset : t.checkpoint.isBlank = false)
    (hle : t.checkpoint.height ≤ t.default.position.height)
    (hne : t.checkpoint ≠ t.default.position) : ∃ b₁ d b' e t', t.upgrade = .ok t' ∧
      t.ledger.draft.clearCheckpoint.Rechosen n.genesisHash b t.checkpoint.height.toNat b₁ d ∧
      (d.setCheckpoint t.default.position).Rechosen n.genesisHash b₁
        t.default.position.height.toNat b' e ∧
      t.Commits n links b' e t' ∧ t'.checkpoint = t.default.position := by
  have hlow := (ht.low_of_not_blank hset).trans hle
  obtain ⟨b₁, d, hclear, hcleared⟩ := ht.cleared hset
  obtain ⟨b', e, t', happly, hrechosen, hcommits, hafter⟩ :=
    ht.commitCheckpoint hroomy (ht.draft.rechosen hcleared)
      (currentCheckpoint_of_clear hcleared.checkpoint) hlow hfits
  refine ⟨b₁, d, b', e, t', ?_, hcleared, hrechosen, hcommits, hafter⟩
  unfold Tracker.upgrade
  rw [if_neg (not_or.mpr ⟨not_lt.mpr hle, hne⟩)]
  simpa [hlow, hset, hclear, happly, bind, Except.bind] using hcommits.commit

/-- Changing to a default checkpoint that has 64 bits succeeds, with one commit at most. -/
theorem Founded.upgrade (ht : t.Founded n links b) (hroomy : Roomy links)
    (hfits : t.default.position.height.Fits) :
    ∃ t' b', t.upgrade = .ok t' ∧ t'.Founded n links b' ∧
      (t' = t ∨ ∃ e, t.Commits n links b' e t') := by
  rcases t.upgrade_cases with hkeep | ⟨hblank, hlow⟩ | ⟨hset, hle, hne⟩
  · exact ⟨t, b, upgrade_of_keeps hkeep, ht, .inl rfl⟩
  · obtain ⟨b', e, t', hupgrade, -, hcommits, -⟩ :=
      ht.upgrade_of_blank hroomy hfits hlow hblank
    exact ⟨t', b', hupgrade, hcommits.founded, .inr ⟨e, hcommits⟩⟩
  · obtain ⟨b₁, d, b', e, t', hupgrade, -, -, hcommits, -⟩ :=
      ht.upgrade_of_set hroomy hfits hset hle hne
    exact ⟨t', b', hupgrade, hcommits.founded, .inr ⟨e, hcommits⟩⟩

end Tracker

/-! ## Reopening -/

theorem Network.tag_inj {n n' : Network} : n.tag = n'.tag ↔ n = n' := by
  cases n <;> cases n' <;> decide

theorem Ledger.ofStore_eq {s s' : Store} {n : Network} {h : Header} (hclaim : s.claim n = .ok s')
    (hbest : s'.best = .ok h) : ofStore s n = .ok ⟨n, s', { best := h.position }⟩ := by
  unfold ofStore
  simp only [hclaim, hbest, bind, Except.bind]
  rfl

section Reopening

variable {s : Store} {n n' : Network} {links b : List Link}

theorem Store.Founded.get?_network (hs : s.Founded n links b) : s.get? .network = some [n.tag] :=
  hs.canonical.get? .network trivial

/-- A founded store is opened again as it is, and the bus shows its tip. -/
theorem Store.Founded.ofStore_same (hs : s.Founded n links b) :
    ∃ x, s.best = .ok x ∧ Ledger.ofStore s n = .ok ⟨n, s, { best := x.position }⟩ := by
  obtain ⟨k, hk⟩ := hs.sound.optimal.route
  obtain ⟨x, r, rfl⟩ := List.exists_cons_of_ne_nil hk.ne_nil
  have hclaim : s.claim n = .ok s := by
    unfold Store.claim
    rw [hs.get?_network]
    exact if_pos rfl
  exact ⟨_, hs.best, Ledger.ofStore_eq hclaim hs.best⟩

theorem Store.Founded.ofStore_other (hs : s.Founded n links b) (hn : n' ≠ n) :
    Ledger.ofStore s n' = .error (.otherNetwork n.tag n') := by
  have hne : ¬ [n.tag] = [n'.tag] := by
    rw [List.cons.injEq, Network.tag_inj]
    exact fun h => hn h.1.symm
  have hclaim : s.claim n' = .error (.otherNetwork n.tag n') := by
    unfold Store.claim
    rw [hs.get?_network]
    exact if_neg hne
  unfold Ledger.ofStore
  rw [hclaim]
  rfl

/-- The store of a tracker can be opened again, for its own network only. -/
theorem Tracker.Founded.reopen {t : Tracker} (ht : t.Founded n links b) (n' : Network) :
    (n' ≠ n ∧ ∃ cause, Ledger.ofStore t.ledger.store n' = .error cause) ∨
    ∃ l, Ledger.ofStore t.ledger.store n' = .ok l ∧ l.network = n ∧ l.store = t.ledger.store := by
  by_cases hn : n' = n
  · subst hn
    obtain ⟨x, -, hopen⟩ := ht.store.ofStore_same
    exact .inr ⟨_, hopen, rfl, rfl⟩
  · exact .inl ⟨hn, _, ht.store.ofStore_other hn⟩

end Reopening

end HeaderChain
