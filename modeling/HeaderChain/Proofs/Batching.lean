import HeaderChain.Command.Console
import HeaderChain.Proofs.Agreement
import HeaderChain.Proofs.HistoryIndependence
import HeaderChain.Proofs.Outcomes

/-!
# Headers in batches

Headers that are added in one batch are looked at in one draft, while headers that are added in
several batches are committed in between and read back from the store. The draft and the store
agree all the way, so the records in the end are the same, also where chains of equal work compete.
-/

namespace HeaderChain

def Store.SameRecords (s s' : Store) : Prop := ∀ bytes : Bytes, s.records[bytes]? = s'.records[bytes]?

namespace Tracker

variable {t t' t₀ : Tracker} {n : Network} {links b : List Link} {d : Draft}

theorem Founded.sameRecords (ht : t.Founded n links b) (ht' : t'.Founded n links b)
    (hcheckpoint : t.checkpoint = t'.checkpoint) :
    t.ledger.store.SameRecords t'.ledger.store :=
  ht.store.records_eq ht'.store (ht.store.forest.trans ht'.store.forest.symm) hcheckpoint

theorem Staged.agrees (hd : t₀.Staged n links b d) (ht : t.Founded n links b)
    (hcheckpoint : t.checkpoint = d.currentCheckpoint) :
    d.Agrees t.ledger.draft n.genesisHash b :=
  hd.sound.agrees ht.draft.sound (ht.draft.forest.trans hd.forest.symm) hcheckpoint

/-- A draft goes on as a tracker does that has committed the same so far. -/
theorem Staged.addBatches (hd : t₀.Staged n links b d) (ht : t.Founded n links b)
    (hcheckpoint : t.checkpoint = d.currentCheckpoint) (batches : List (List Header))
    (hroomy : Roomy (links ++ batches.flatten.map Header.link)) :
    ∃ b' e t', d.addHeaders batches.flatten = .ok e ∧
      d.Added n.genesisHash b (batches.flatten.map Header.link) b' e ∧
      batches.foldlM Tracker.addHeaders t = .ok t' ∧
      t'.Founded n (links ++ batches.flatten.map Header.link) b' ∧
      t'.checkpoint = t.checkpoint := by
  induction batches generalizing d t links b with
  | nil => exact ⟨b, d, t, rfl, .refl hd.sound, rfl, by simpa using ht, rfl⟩
  | cons hs batches ih =>
    rw [List.flatten_cons, List.map_append, ← List.append_assoc] at hroomy
    obtain ⟨b₁, d₁, e₁, hd₁, he₁, hadded, hadded'⟩ := (hd.agrees ht hcheckpoint).addHeaders hs
    obtain ⟨t₁, ht₁, hfounded, hkept⟩ := ht.addHeaders_of_added hroomy.left he₁ hadded'
    have hstaged : t₀.Staged n (links ++ hs.map Header.link) b₁ d₁ := by
      refine ⟨hadded.base.trans hd.base, hadded.sound, ?_⟩
      rw [hadded.forest, hd.forest, foldl_accept]
      rfl
    have hcheckpoint₁ : t₁.checkpoint = d₁.currentCheckpoint := by
      rw [hkept, hcheckpoint, Draft.currentCheckpoint_congr hadded.checkpoint hadded.base]
    obtain ⟨b', e, t', he, hrest, ht', hfounded', hkept'⟩ := ih hstaged hfounded hcheckpoint₁ hroomy
    refine ⟨b', e, t', ?_, ?_, ?_, ?_, hkept'.trans hkept⟩
    · rw [List.flatten_cons, Draft.addHeaders, List.foldlM_append]
      simp only [Draft.addHeaders] at hd₁ he
      rw [hd₁]
      exact he
    · rw [List.flatten_cons, List.map_append]
      exact hadded.trans hrest
    · rw [List.foldlM_cons, ht₁]
      exact ht'
    · rw [List.flatten_cons, List.map_append, ← List.append_assoc]
      exact hfounded'

/-- However headers are divided into batches, the records are those of one batch. -/
theorem Founded.addBatches (ht : t.Founded n links b) (batches : List (List Header))
    (hroomy : Roomy (links ++ batches.flatten.map Header.link)) {t₁ : Tracker}
    (ht₁ : t.addHeaders batches.flatten = .ok t₁) :
    ∃ b' t₂, batches.foldlM Tracker.addHeaders t = .ok t₂ ∧
      t₂.Founded n (links ++ batches.flatten.map Header.link) b' ∧
      t₁.ledger.store.SameRecords t₂.ledger.store := by
  obtain ⟨b', e, t₂, he, hadded, ht₂, hfounded₂, hkept₂⟩ :=
    ht.draft.addBatches ht rfl batches hroomy
  obtain ⟨t', ht', hfounded₁, hkept₁⟩ := ht.addHeaders_of_added hroomy he hadded
  cases ht₁.symm.trans ht'
  exact ⟨b', t₂, ht₂, hfounded₂, hfounded₁.sameRecords hfounded₂ (hkept₁.trans hkept₂.symm)⟩

end Tracker

/-! ## Importing -/

namespace Console

theorem flatten_batches {α : Type} {size : ℕ} (hsize : size ≠ 0) (xs : List α) :
    (batches size xs).flatten = xs := by
  induction hlen : xs.length using Nat.strong_induction_on generalizing xs with
  | _ length ih =>
    unfold batches
    by_cases hnil : xs = []
    · simp [hnil]
    · have hshort : (xs.drop size).length < length := by
        have hpos := List.length_pos_iff.mpr hnil
        rw [List.length_drop]
        omega
      rw [dif_neg (not_or.mpr ⟨hsize, hnil⟩), List.flatten_cons, ih _ hshort _ rfl,
        List.take_append_drop]

theorem run_say (c : Console) (line : String) :
    (say line).run.run c = (.ok (), { c with out := c.out ++ [line] }) := rfl

theorem run_orFail {ε α : Type} {result : Except ε α} {a : α} (message : ε → String) (c : Console)
    (h : result = .ok a) : (orFail message result).run.run c = (.ok a, c) := by
  rw [h]
  rfl

theorem run_tip {c : Console} {p : Position} (h : c.tracker.ledger.tip = .ok p) :
    tip.run.run c = (.ok p, c) := by
  have hledger : ledger.run.run c = (.ok c.tracker.ledger, c) := rfl
  unfold tip
  rw [run_bind, hledger]
  exact run_orFail _ c h

theorem run_update {c : Console} {f : Tracker → Except ChainError Tracker} {t : Tracker}
    (h : f c.tracker = .ok t) : (update f).run.run c = (.ok (), { c with tracker := t }) := by
  have hget : (get : Work Console).run.run c = (.ok c, c) := rfl
  unfold update
  rw [run_bind, hget]
  simp only [run_bind, run_orFail _ c h]
  rfl

theorem run_updates {c : Console} {t : Tracker} {groups : List (List Header)}
    (h : groups.foldlM Tracker.addHeaders c.tracker = .ok t) :
    (groups.forM fun batch => update (·.addHeaders batch)).run.run c =
      (.ok (), { c with tracker := t }) := by
  induction groups generalizing c with
  | nil =>
    cases h
    rfl
  | cons batch groups ih =>
    rw [List.foldlM_cons] at h
    cases hfirst : c.tracker.addHeaders batch with
    | error cause =>
      rw [hfirst] at h
      cases h
    | ok t₁ =>
      rw [hfirst] at h
      have hupdate := run_update (f := (·.addHeaders batch)) hfirst
      have hrest := ih (c := { c with tracker := t₁ }) h
      change (update (·.addHeaders batch) >>= fun _ =>
        groups.forM fun batch => update (·.addHeaders batch)).run.run c = _
      rw [run_bind, hupdate]
      exact hrest

/-- An import whose lines can be read adds their headers in batches. -/
theorem run_importText {c : Console} (path : String) {text : String} {hs : List Header}
    {t : Tracker} {start best : Position}
    (hlines : headersOfLines 1 (Text.lines text) = .ok hs)
    (hstart : c.tracker.ledger.tip = .ok start)
    (hadd : (batches batchSize hs).foldlM Tracker.addHeaders c.tracker = .ok t)
    (hbest : t.ledger.tip = .ok best) :
    ∃ c', (importText path (.ok text)).run.run c = (.ok (), c') ∧ c'.tracker = t := by
  have htip (out : List String) := run_tip (c := { c with out }) hstart
  have hupdates (out : List String) := run_updates (c := { c with out }) hadd
  have htip' (out : List String) := run_tip (c := { c with out, tracker := t }) hbest
  have hheaders (c : Console) := run_orFail id c hlines
  unfold importText
  simp only [run_bind, run_orFail _ _ rfl, hheaders, run_say, htip, hupdates, htip']
  exact ⟨_, rfl, rfl⟩

end Console

/-! ## Batches after a history -/

theorem History.addBatches (h : History) (n : Network) (groups : List (List Header))
    (hadmits : h.Admits groups.flatten.length) {t : Tracker}
    (ht : (h.last n).addHeaders groups.flatten = .ok t) :
    ∃ t', groups.foldlM Tracker.addHeaders (h.last n) = .ok t' ∧ (∃ p, t'.ledger.tip = .ok p) ∧
      t.ledger.store.SameRecords t'.ledger.store := by
  obtain ⟨b, hfounded⟩ := h.founded n
  obtain ⟨b', t', hfold, hfounded', hsame⟩ :=
    hfounded.addBatches groups (h.roomy_append n hadmits) ht
  exact ⟨t', hfold, hfounded'.tip_ok, hsame⟩

/-- After every history, headers leave the same records in one batch, in two batches wherever it is
cut, one by one, and in the batches of an import. -/
theorem History.same_records_in_batches (h : History) (n : Network) (hs : List Header)
    (hadmits : h.Admits hs.length) :
    ∃ t, (h.last n).addHeaders hs = .ok t ∧
    (∀ xs ys, hs = xs ++ ys → ∃ t₁ t₂, (h.last n).addHeaders xs = .ok t₁ ∧
      t₁.addHeaders ys = .ok t₂ ∧ t.ledger.store.SameRecords t₂.ledger.store) ∧
    (∃ t', hs.foldlM Tracker.addHeader (h.last n) = .ok t' ∧
      t.ledger.store.SameRecords t'.ledger.store) ∧
    ∀ (c : Console) (path text : String), c.tracker = h.last n →
      Console.headersOfLines 1 (Text.lines text) = .ok hs →
      ∃ c', (Console.importText path (.ok text)).run.run c = (.ok (), c') ∧
        t.ledger.store.SameRecords c'.tracker.ledger.store := by
  obtain ⟨t, b, ht, -⟩ := h.addHeaders_ok n hadmits
  refine ⟨t, ht, ?_, ?_, ?_⟩
  · rintro xs ys rfl
    have hflatten : [xs, ys].flatten = xs ++ ys := by simp
    rw [← hflatten] at hadmits ht
    obtain ⟨t₂, hfold, -, hsame⟩ := h.addBatches n [xs, ys] hadmits ht
    simp only [List.foldlM_cons, List.foldlM_nil, bind_pure] at hfold
    cases hfirst : (h.last n).addHeaders xs with
    | error cause =>
      rw [hfirst] at hfold
      cases hfold
    | ok t₁ =>
      rw [hfirst] at hfold
      exact ⟨t₁, t₂, rfl, hfold, hsame⟩
  · have hflatten : (hs.map fun x => [x]).flatten = hs := by
      rw [← List.flatMap_def, List.flatMap_singleton']
    rw [← hflatten] at hadmits ht
    obtain ⟨t', hfold, -, hsame⟩ := h.addBatches n _ hadmits ht
    rw [List.foldlM_map] at hfold
    exact ⟨t', hfold, hsame⟩
  · intro c path text hc hlines
    have hflatten : (Console.batches Console.batchSize hs).flatten = hs :=
      Console.flatten_batches (by decide) hs
    rw [← hflatten] at hadmits ht
    obtain ⟨t', hfold, ⟨best, hbest⟩, hsame⟩ := h.addBatches n _ hadmits ht
    obtain ⟨b, hfounded⟩ := h.founded n
    obtain ⟨start, hstart⟩ := hfounded.tip_ok
    rw [← hc] at hfold hstart
    obtain ⟨c', hrun, rfl⟩ := Console.run_importText path hlines hstart hfold hbest
    exact ⟨c', hrun, hsame⟩

/-- A header beside the lower one, with the same work. -/
def rivalHeader : Header := easyHeader Network.regtest.genesisHash 1

/-- A header above that one, with the same work as the upper one. -/
def upperRivalHeader : Header := easyHeader rivalHeader.hash 0

/-- A chain that ties with the best one leaves the same records in one batch and one by one. -/
theorem History.same_records_of_rivals : ∃ t t',
    (upward.last .regtest).addHeaders [rivalHeader, upperRivalHeader] = .ok t ∧
    [rivalHeader, upperRivalHeader].foldlM Tracker.addHeader (upward.last .regtest) = .ok t' ∧
    t.ledger.store.SameRecords t'.ledger.store := by
  obtain ⟨t, ht, -, ⟨t', ht', hsame⟩, -⟩ := same_records_in_batches upward .regtest
    [rivalHeader, upperRivalHeader] (by unfold Admits; decide)
  exact ⟨t, t', ht, ht', hsame⟩

end HeaderChain
