import HeaderChain.Proofs.ReachedStates

/-!
# What calls return

On a state that a history leaves, a call fails for no other reason than what it is asked for:
headers are always added, and a checkpoint is refused when it is too low, when there is one
already, or when there is none to delete. What could go wrong inside, such as a header that is not
there, a walk over parents that never ends, or a best chain with a gap, would be an error of the
call, too, and is thereby ruled out.
-/

namespace HeaderChain

/-- A walk over parents in a sound draft ends when it is told to stop at headers without one. -/
theorem Draft.Sound.trace_ends {d : Draft} {g k : Hash} {b : List Link} {x : Header}
    (hd : d.Sound g b) (hk : d.header? k = some x) {stop : Header → Bool}
    (hstop : ∀ y : Header, y.isRoot = true → stop y = true) :
    ∃ t, d.trace stop x = .ok t ∧ stop t.last = true := by
  cases hplace : x.isDisconnected with
  | true =>
    have hroot : x.isRoot = true := by simp [Header.isRoot, hplace]
    exact ⟨_, Trace.run_of_stop (hstop x hroot), hstop x hroot⟩
  | false =>
    obtain ⟨r, hr, hplaced⟩ := hd.exact.route_of_connected hk hplace
    obtain ⟨t, ht, -⟩ := Draft.trace_route hd.exact stop (fun y => hstop _ (by simp)) hr
    rw [← hplaced] at ht
    exact ⟨t, ht, Trace.stop_last ht⟩

namespace Tracker

variable {t : Tracker} {n : Network} {links b : List Link} {height : Height}

theorem Founded.addCheckpoint_error_iff (ht : t.Founded n links b) (hroomy : Roomy links)
    (hash : Hash) (hfits : height.Fits) (cause : ChainError) :
    t.addCheckpoint height hash = .error cause ↔
      height < Height.leastCheckpoint ∧ cause = .lowCheckpoint height ∨
      Height.leastCheckpoint ≤ height ∧ t.checkpoint.isBlank = false ∧
        cause = .checkpointExists t.checkpoint := by
  rcases lt_or_ge height Height.leastCheckpoint with hlow | hlow
  · rw [t.addCheckpoint_of_low hash hlow, Except.error.injEq, eq_comm]
    simp [hlow]
  · cases hblank : t.checkpoint.isBlank with
    | false =>
      rw [addCheckpoint_of_set hash hlow hblank, Except.error.injEq, eq_comm]
      simp [hlow]
    | true =>
      obtain ⟨b', e, t', hadd, -⟩ := ht.addCheckpoint_of_blank hroomy hash hlow hfits hblank
      rw [hadd]
      simp [hlow]

theorem Founded.deleteCheckpoint_error_iff (ht : t.Founded n links b) (hroomy : Roomy links)
    (cause : ChainError) : t.deleteCheckpoint = .error cause ↔
      t.checkpoint.isBlank = true ∧ cause = .noCheckpoint := by
  cases hblank : t.checkpoint.isBlank with
  | true =>
    rw [deleteCheckpoint_of_blank hblank, Except.error.injEq, eq_comm]
    simp
  | false =>
    obtain ⟨b', e, t', hdelete, -⟩ := ht.deleteCheckpoint_of_set hroomy hblank
    rw [hdelete]
    simp

theorem Founded.tip_ok (ht : t.Founded n links b) : ∃ p, t.ledger.tip = .ok p := by
  obtain ⟨k, hk⟩ := ht.store.sound.optimal.route
  obtain ⟨x, r, rfl⟩ := List.exists_cons_of_ne_nil hk.ne_nil
  refine ⟨(x.placed t.ledger.store.checkpoint r).position, ?_⟩
  unfold Ledger.tip
  rw [ht.store.best]
  rfl

end Tracker

/-- There are still heights for so many more headers. -/
def History.Admits (h : History) (count : ℕ) : Prop :=
  (((h.operations.map Operation.size).sum + count : ℕ) : Height) ≤ Height.greatest

theorem History.Admits.roomy {h : History} {count : ℕ} (hadmits : h.Admits count) (n : Network) :
    ((((h.accepted n).map Header.link).length + count : ℕ) : Height) ≤ Height.greatest := by
  have hlen := Tracker.broughtAll_length_le (.fresh n) h.operations
  unfold History.Admits at hadmits
  unfold History.accepted
  rw [List.length_map]
  lia

theorem History.roomy_append (h : History) (n : Network) {hs : List Header}
    (hadmits : h.Admits hs.length) :
    Roomy ((h.accepted n).map Header.link ++ hs.map Header.link) :=
  roomy_append_iff.mpr (hadmits.roomy n)

theorem History.addHeaders_ok (h : History) (n : Network) {hs : List Header}
    (hadmits : h.Admits hs.length) :
    ∃ t b', (h.last n).addHeaders hs = .ok t ∧
      t.Founded n ((h.accepted n).map Header.link ++ hs.map Header.link) b' ∧
      t.checkpoint = (h.last n).checkpoint := by
  obtain ⟨b, ht⟩ := h.founded n
  exact ht.addHeaders hs (h.roomy_append n hadmits)

/-- After every history, headers are added whatever they are, the default checkpoint is taken over,
and there is a tip. A checkpoint is refused as too low, or because there is one, and deleting it
fails when there is none. Walks over parents end. -/
theorem History.calls_succeed (h : History) (n : Network) :
    (∀ hs, h.Admits hs.length → ((h.last n).addHeaders hs).isOk = true) ∧
    (∀ x, h.Admits 1 → ((h.last n).addHeader x).isOk = true) ∧
    (∀ default : Checkpoint, default.position.height.Fits →
      ({ h.last n with default } : Tracker).upgrade.isOk = true) ∧
    (∀ height hash cause, Height.Fits height →
      ((h.last n).addCheckpoint height hash = .error cause ↔
        height < Height.leastCheckpoint ∧ cause = .lowCheckpoint height ∨
        Height.leastCheckpoint ≤ height ∧ (h.last n).checkpoint.isBlank = false ∧
          cause = .checkpointExists (h.last n).checkpoint)) ∧
    (∀ cause, (h.last n).deleteCheckpoint = .error cause ↔
      (h.last n).checkpoint.isBlank = true ∧ cause = .noCheckpoint) ∧
    (∃ p, (h.last n).ledger.tip = .ok p) ∧
    ∀ k x stop, (h.store n).header? k = some x → (∀ y : Header, y.isRoot = true → stop y = true) →
      ∃ t, (h.last n).ledger.draft.trace stop x = .ok t ∧ stop t.last = true := by
  obtain ⟨b, ht⟩ := h.founded n
  have hroomy := h.roomy n
  have hadd : ∀ hs : List Header, h.Admits hs.length →
      ((h.last n).addHeaders hs).isOk = true := by
    intro hs hadmits
    obtain ⟨t, b', hok, -⟩ := h.addHeaders_ok n hadmits
    rw [hok]
    rfl
  refine ⟨hadd, fun x => hadd [x], ?_, ?_, ?_, ht.tip_ok, ?_⟩
  · intro default hfits
    have hd : ({ h.last n with default } : Tracker).Founded n _ b := ⟨ht.network, ht.store⟩
    obtain ⟨t, b', hok, -⟩ := hd.upgrade hroomy hfits
    rw [hok]
    rfl
  · intro height hash cause hfits
    exact ht.addCheckpoint_error_iff hroomy hash hfits cause
  · intro cause
    exact ht.deleteCheckpoint_error_iff hroomy cause
  · intro k x stop hk hstop
    apply ht.draft.sound.trace_ends (k := k) _ hstop
    rw [Ledger.draft, Draft.header?_mk]
    exact hk

end HeaderChain
