import HeaderChain.Proofs.Batching

/-!
# Upgrading to a default checkpoint

An upgrade deletes the stored checkpoint and sets the default one in one draft, so the second choice
of a best chain starts from what the first one has staged. The same two changes that are committed
one by one start the second choice from the store. The draft and that store agree, so the best
chains are the same and with them the records.
-/

namespace HeaderChain

namespace Draft

variable {d d' e e' : Draft} {g : Hash} {b b₁ b₂ links : List Link} {m : ℕ}
variable {change : CheckpointChange} {n : Network} {t t' u u' : Tracker}

theorem Agrees.allSiblings (h : d.Agrees e g b) : e.allSiblings = d.allSiblings := by
  refine e.ascending_allSiblings.ext d.ascending_allSiblings fun k => ?_
  rw [mem_allSiblings, mem_allSiblings, h.right.siblings, h.left.siblings, h.header?]

/-- After the same change of the checkpoint, drafts that agree get the same best chain. -/
theorem Agrees.rechosen (h : d.Agrees e g b)
    (hd : ({ d with checkpoint := change } : Draft).Rechosen g b m b₁ d')
    (he : ({ e with checkpoint := change } : Draft).Rechosen g b m b₂ e')
    (hcheckpoint : e'.currentCheckpoint = d'.currentCheckpoint) : b₁ = b₂ := by
  obtain ⟨k, R, parts, hk, hR, hlen, hcover, -, hpicked⟩ := hd.repicked
  obtain ⟨k', R', parts', hk', hR', hlen', hcover', -, hpicked'⟩ := he.repicked
  have hheader : ({ e with checkpoint := change } : Draft).header? = d.header? := h.header?
  have hsiblings : ({ e with checkpoint := change } : Draft).allSiblings = d.allSiblings :=
    h.allSiblings
  rw [hheader] at hk' hcover'
  rw [hsiblings] at hcover'
  obtain rfl : k = k' := hk.target_unique h.left.exact.named hk'
  obtain rfl : R = R' := suffix_unique hR hR' (hlen.trans hlen'.symm)
  obtain rfl : parts = parts' := hcover.unique hcover'
  have hforest : forestOf e'.header? = forestOf d'.header? := by
    rw [he.forest, hd.forest, hheader]
    rfl
  rw [hcheckpoint] at hpicked'
  exact hpicked.unique ((hcheckpoint ▸ he.sound.exact).unique hd.sound.exact hforest) hpicked'

/-- Commits after the same change of the checkpoint leave the same records. -/
theorem Agrees.sameRecords (h : d.Agrees e n.genesisHash b)
    (hd : ({ d with checkpoint := change } : Draft).Rechosen n.genesisHash b m b₁ d')
    (he : ({ e with checkpoint := change } : Draft).Rechosen n.genesisHash b m b₂ e')
    (hc : t.Commits n links b₁ d' t') (hc' : u.Commits n links b₂ e' u')
    (hcheckpoint : t'.checkpoint = u'.checkpoint) :
    t'.ledger.store.SameRecords u'.ledger.store := by
  have hsame : e'.currentCheckpoint = d'.currentCheckpoint := by
    rw [← hc.checkpoint, ← hc'.checkpoint, hcheckpoint]
  obtain rfl : b₁ = b₂ := h.rechosen hd he hsame
  exact hc.founded.sameRecords hc'.founded hcheckpoint

end Draft

/-- The checkpoint after an upgrade: the existing one when it is above the default one, and the
default one otherwise, unless that is too low. -/
def Position.upgraded (existing default : Position) : Position :=
  if default.height < existing.height then existing
  else if Height.leastCheckpoint ≤ default.height then default
  else existing

theorem Position.upgraded_of_le {existing default : Position}
    (hle : existing.height ≤ default.height) (hlow : Height.leastCheckpoint ≤ default.height) :
    existing.upgraded default = default := by
  rw [upgraded, if_neg (not_lt.mpr hle), if_pos hlow]

namespace Tracker

/-- The tracker `t'` is left by an upgrade of `t`. When a checkpoint was replaced, the records are
those that it leaves to delete the checkpoint and to add the default one. When there was none, they
are those that it leaves to add the default one. To upgrade once more changes nothing, also when the
store was reopened. -/
structure Upgrades (t t' : Tracker) : Prop where
  upgrade : t.upgrade = .ok t'
  checkpoint : t'.checkpoint = t.checkpoint.upgraded t.default.position
  replaced : t.checkpoint.isBlank = false → t.checkpoint ≠ t.default.position →
    t.checkpoint.height ≤ t.default.position.height → ∃ t₁ t₂, t.deleteCheckpoint = .ok t₁ ∧
      t₁.addCheckpoint t.default.position.height t.default.position.hash = .ok t₂ ∧
      t'.ledger.store.SameRecords t₂.ledger.store
  added : t.checkpoint.isBlank = true → Height.leastCheckpoint ≤ t.default.position.height →
    ∃ t₂, t.addCheckpoint t.default.position.height t.default.position.hash = .ok t₂ ∧
      t'.ledger.store.SameRecords t₂.ledger.store
  again : t'.upgrade = .ok t'
  reopened : ∀ l : Ledger, l.store = t'.ledger.store →
    (⟨l, t.default⟩ : Tracker).upgrade = .ok ⟨l, t.default⟩

variable {t t' : Tracker} {n : Network} {links b b₁ : List Link} {d : Draft}

theorem Commits.default (hc : t.Commits n links b d t') : t'.default = t.default := by
  obtain ⟨l, -, rfl⟩ := commit_eq_ok.mp hc.commit
  rfl

theorem Keeps.upgraded (h : t.Keeps) : t.checkpoint.upgraded t.default.position = t.checkpoint := by
  unfold Position.upgraded
  rcases h with habove | hsame | ⟨-, hlow⟩
  · rw [if_pos habove]
  · rw [hsame, if_neg (lt_irrefl _), ite_self]
  · rw [if_neg (not_le.mpr hlow), ite_self]

/-- The checkpoint that an upgrade leaves is kept by the next one. -/
theorem keeps_of_upgraded {existing : Position} (hexisting : existing.Settable)
    (h : t.checkpoint = existing.upgraded t.default.position) : t.Keeps := by
  unfold Position.upgraded at h
  split_ifs at h with habove hlow
  · exact .inl (h ▸ habove)
  · exact .inr (.inl h)
  · -- A checkpoint that is not above one that is too low has to be blank.
    refine .inr (.inr ⟨?_, not_le.mp hlow⟩)
    rcases hexisting with hblank | ⟨hsettable, -⟩
    · rw [h, hblank, Position.isBlank_blank]
    · exact absurd (hsettable.trans (not_lt.mp habove)) hlow

variable (ht : t.Founded n links b) (hroomy : Roomy links)
variable (hfits : t.default.position.height.Fits)

include ht hroomy hfits

theorem Founded.upgrade_checkpoint : ∃ t', t.upgrade = .ok t' ∧ t'.default = t.default ∧
    t'.checkpoint = t.checkpoint.upgraded t.default.position := by
  rcases t.upgrade_cases with hkeep | ⟨hblank, hlow⟩ | ⟨hset, hle, hne⟩
  · exact ⟨t, upgrade_of_keeps hkeep, rfl, hkeep.upgraded.symm⟩
  · obtain ⟨b', e, t', hupgrade, -, hc, hafter⟩ := ht.upgrade_of_blank hroomy hfits hlow hblank
    have hle : t.checkpoint.height ≤ t.default.position.height := by
      rw [Position.isBlank_iff.mp hblank]
      exact le_trans (by decide) hlow
    exact ⟨t', hupgrade, hc.default, hafter.trans (Position.upgraded_of_le hle hlow).symm⟩
  · obtain ⟨b₁, d, b', e, t', hupgrade, -, -, hc, hafter⟩ :=
      ht.upgrade_of_set hroomy hfits hset hle hne
    have hlow := (ht.low_of_not_blank hset).trans hle
    exact ⟨t', hupgrade, hc.default, hafter.trans (Position.upgraded_of_le hle hlow).symm⟩

theorem Founded.upgrade_adds (hblank : t.checkpoint.isBlank = true)
    (hlow : Height.leastCheckpoint ≤ t.default.position.height) :
    ∃ t' t₂, t.upgrade = .ok t' ∧
      t.addCheckpoint t.default.position.height t.default.position.hash = .ok t₂ ∧
      t'.ledger.store.SameRecords t₂.ledger.store := by
  obtain ⟨b', e, t', hupgrade, h, hc, hafter⟩ := ht.upgrade_of_blank hroomy hfits hlow hblank
  obtain ⟨b₂, e₂, t₂, hadd, h₂, hc₂, hafter₂⟩ :=
    ht.addCheckpoint_of_blank hroomy t.default.position.hash hlow hfits hblank
  have hagrees := ht.draft.agrees ht rfl
  exact ⟨t', t₂, hupgrade, hadd, hagrees.sameRecords h h₂ hc hc₂ (hafter.trans hafter₂.symm)⟩

/-- The default checkpoint that replaces another one is added after that was deleted. -/
theorem Founded.upgrade_replaces (hset : t.checkpoint.isBlank = false)
    (hne : t.checkpoint ≠ t.default.position)
    (hle : t.checkpoint.height ≤ t.default.position.height) :
    ∃ t' t₁ t₂, t.upgrade = .ok t' ∧ t.deleteCheckpoint = .ok t₁ ∧
      t₁.addCheckpoint t.default.position.height t.default.position.hash = .ok t₂ ∧
      t'.ledger.store.SameRecords t₂.ledger.store := by
  obtain ⟨b₁, d, b', e, t', hupgrade, hcleared, h, hc, hafter⟩ :=
    ht.upgrade_of_set hroomy hfits hset hle hne
  have hlow := (ht.low_of_not_blank hset).trans hle
  obtain ⟨b₂, d₁, t₁, hdelete, hcleared₁, hc₁, hafter₁⟩ := ht.deleteCheckpoint_of_set hroomy hset
  have hblank := currentCheckpoint_of_clear hcleared.checkpoint
  have hblank₁ := currentCheckpoint_of_clear hcleared₁.checkpoint
  -- Both delete the checkpoint first, with the same best chain.
  obtain rfl : b₁ = b₂ :=
    (ht.draft.agrees ht rfl).rechosen hcleared hcleared₁ (hblank₁.trans hblank.symm)
  obtain ⟨b₃, e₂, t₂, hadd, h₂, hc₂, hafter₂⟩ := hc₁.founded.addCheckpoint_of_blank hroomy
    t.default.position.hash hlow hfits (Position.isBlank_iff.mpr hafter₁)
  have hagrees := (ht.draft.rechosen hcleared).agrees hc₁.founded (hafter₁.trans hblank.symm)
  exact ⟨t', t₁, t₂, hupgrade, hdelete, hadd,
    hagrees.sameRecords h h₂ hc hc₂ (hafter.trans hafter₂.symm)⟩

theorem Founded.upgrades : ∃ t', t.Upgrades t' := by
  obtain ⟨t', hupgrade, hdefault, hcheckpoint⟩ := ht.upgrade_checkpoint hroomy hfits
  refine ⟨t', hupgrade, hcheckpoint, ?_, ?_, ?_, ?_⟩
  · intro hset hne hle
    obtain ⟨u, t₁, t₂, hupgrade', hdelete, hadd, hsame⟩ :=
      ht.upgrade_replaces hroomy hfits hset hne hle
    cases hupgrade.symm.trans hupgrade'
    exact ⟨t₁, t₂, hdelete, hadd, hsame⟩
  · intro hblank hlow
    obtain ⟨u, t₂, hupgrade', hadd, hsame⟩ := ht.upgrade_adds hroomy hfits hblank hlow
    cases hupgrade.symm.trans hupgrade'
    exact ⟨t₂, hadd, hsame⟩
  · exact upgrade_of_keeps (keeps_of_upgraded ht.store.checkpoint (hdefault ▸ hcheckpoint))
  · intro l hl
    have hcheckpoint' : (⟨l, t.default⟩ : Tracker).checkpoint = t'.checkpoint :=
      congrArg Store.checkpoint hl
    exact upgrade_of_keeps
      (keeps_of_upgraded ht.store.checkpoint (hcheckpoint'.trans hcheckpoint))

end Tracker

/-- After every history, the default checkpoint is taken over unless it is too low or there is one
above it. This leaves the same records as deleting the old checkpoint and adding the new one, and
doing it again changes nothing. -/
theorem History.upgrade_exact (h : History) (n : Network) (default : Checkpoint)
    (hfits : default.position.height.Fits) :
    ∃ t, ({ h.last n with default } : Tracker).Upgrades t := by
  obtain ⟨b, ht⟩ := h.founded n
  have hd : ({ h.last n with default } : Tracker).Founded n _ b := ⟨ht.network, ht.store⟩
  exact hd.upgrades (h.roomy n) hfits

/-- A checkpoint that bans the upper header is replaced by one on it. -/
theorem History.upgrade_of_pinned : Height.Fits 2 ∧ ∃ t, ({ pinned.last .regtest with
    default := ⟨⟨2, upperHeader.hash⟩, .zero, .zero⟩ } : Tracker).Upgrades t := by
  have hfits : Height.Fits 2 := ⟨by decide, by decide⟩
  exact ⟨hfits, pinned.upgrade_exact .regtest ⟨⟨2, upperHeader.hash⟩, .zero, .zero⟩ hfits⟩

end HeaderChain
