import HeaderChain.Proofs.BestIndex
import HeaderChain.Proofs.Exact
import HeaderChain.Proofs.Reading
import HeaderChain.Selection.Candidate

/-!
# What changes of a draft do

Each change is followed by what the draft shows after it. Walks over parents in an exact draft go
down routes, because the bound of a walk exceeds the length of every route.
-/

namespace HeaderChain.Draft

variable {d e : Draft} {g k j : Hash} {h x : Header} {c : Position}

/-! ## Staged headers -/

def restage (d : Draft) (k : Hash) (h : Header) : Draft :=
  { d with headers := d.headers.insert k h }

theorem header_eq (h : d.header? k = some x) : d.header k = .ok x := by simp [header, h]

theorem header?_restage :
    (d.restage k h).header? j = if k = j then some h else d.header? j := by
  by_cases hk : k = j <;> simp [header?, restage, Std.TreeMap.getElem?_insert, hk]

theorem stage_eq {f : Header → Header} (h : d.header? k = some x) :
    d.stage k f = .ok (f x, d.restage k (f x)) := by
  unfold header? at h
  cases hs : d.headers[k]? with
  | some y =>
    rw [hs] at h
    cases h
    simp [stage, hs, restage]
  | none =>
    rw [hs] at h
    have hload : d.base.load k = .ok x := by
      unfold Store.header? at h
      cases hl : d.base.load k with
      | error => simp [hl, Except.toOption] at h
      | ok y => simpa [hl, Except.toOption] using h
    simp [stage, hs, hload, restage]

/-- A header can only be staged when the draft shows one. -/
theorem stage_ok {f : Header → Header} (hstage : d.stage k f = .ok (x, e)) :
    ∃ h, d.header? k = some h ∧ e = d.restage k (f h) := by
  cases hk : d.header? k with
  | some h =>
    rw [stage_eq hk] at hstage
    cases hstage
    exact ⟨h, rfl, rfl⟩
  | none =>
    unfold header? at hk
    cases hstaged : d.headers[k]? with
    | some h => simp [hstaged] at hk
    | none =>
      rw [hstaged] at hk
      cases hload : d.base.load k with
      | error cause => simp [stage, hstaged, hload, bind, Except.bind] at hstage
      | ok h => simp [Store.header?, hload, Except.toOption] at hk

theorem stageNew_eq {f : Header → Header} (hx : d.header? h.hash = none) :
    d.stageNew h f = d.restage h.hash (f h) := by
  have hs : d.headers[h.hash]? = none := by
    unfold header? at hx
    cases hs : d.headers[h.hash]? with
    | none => rfl
    | some y => simp [hs] at hx
  simp [stageNew, restage, Std.TreeMap.getD_eq_getD_getElem?, hs]

theorem connect_eq {parent : Header} (hx : d.header? k = some x) :
    d.connect parent k = .ok (x.connect parent d.currentCheckpoint,
      d.restage k (x.connect parent d.currentCheckpoint)) :=
  stage_eq hx

/-! ## Siblings and edges -/

theorem isSibling_addSibling :
    (d.addSibling k).isSibling j = (decide (k = j) || d.isSibling j) := by
  rw [isSibling, addSibling, Changes.holds_add]
  by_cases hk : k = j <;> simp [hk, isSibling]

theorem isSibling_removeSibling :
    (d.removeSibling k).isSibling j = (!decide (k = j) && d.isSibling j) := by
  rw [isSibling, removeSibling, Changes.holds_remove]
  by_cases hk : k = j <;> simp [hk, isSibling]

theorem isSibling_leave (d : Draft) (k j : Hash) :
    (if d.isSibling k then d.removeSibling k else d).isSibling j = true ↔
      d.isSibling j = true ∧ k ≠ j := by
  split_ifs with hk
  · simp [isSibling_removeSibling, and_comm]
  · refine ⟨fun hj => ⟨hj, ?_⟩, And.left⟩
    rintro rfl
    exact hk hj

theorem isWaiting_detach {edge : Edge} :
    (d.detach k j).isWaiting edge = (decide (⟨k, j⟩ = edge) || d.isWaiting edge) := by
  rw [isWaiting, detach, Changes.holds_add]
  by_cases hk : (⟨k, j⟩ : Edge) = edge <;> simp [hk, isWaiting]

theorem isWaiting_attach {edge : Edge} :
    (d.attach k j).isWaiting edge = (!decide (⟨k, j⟩ = edge) && d.isWaiting edge) := by
  rw [isWaiting, attach, Changes.holds_remove]
  by_cases hk : (⟨k, j⟩ : Edge) = edge <;> simp [hk, isWaiting]

/-- The tree of headers that a draft shows is left alone: only siblings and the best chain
differ. -/
structure SameTree (d e : Draft) : Prop where
  header? : e.header? = d.header?
  isWaiting : e.isWaiting = d.isWaiting
  checkpoint : e.checkpoint = d.checkpoint
  base : e.base = d.base

theorem currentCheckpoint_congr (hcheckpoint : e.checkpoint = d.checkpoint)
    (hbase : e.base = d.base) : e.currentCheckpoint = d.currentCheckpoint := by
  rw [currentCheckpoint, hcheckpoint, hbase, currentCheckpoint]

theorem SameTree.currentCheckpoint (h : d.SameTree e) : e.currentCheckpoint = d.currentCheckpoint :=
  currentCheckpoint_congr h.checkpoint h.base

theorem SameTree.refl (d : Draft) : d.SameTree d := ⟨rfl, rfl, rfl, rfl⟩

theorem SameTree.trans {d₁ d₂ d₃ : Draft} (h₁ : d₁.SameTree d₂) (h₂ : d₂.SameTree d₃) :
    d₁.SameTree d₃ :=
  ⟨h₂.1.trans h₁.1, h₂.2.trans h₁.2, h₂.3.trans h₁.3, h₂.4.trans h₁.4⟩

theorem sameTree_extend (d : Draft) (p : Position) : d.SameTree (d.extend p) :=
  ⟨rfl, rfl, rfl, rfl⟩

theorem sameTree_rewind (d : Draft) (p : Position) : d.SameTree (d.rewind p) :=
  ⟨rfl, rfl, rfl, rfl⟩

theorem sameTree_removeSibling (d : Draft) (k : Hash) : d.SameTree (d.removeSibling k) :=
  ⟨rfl, rfl, rfl, rfl⟩

/-! ## Walks -/

/-- The hashes that the draft can hold headers under. -/
def candidates (d : Draft) : List Hash :=
  d.headers.keys ++ d.base.records.keys.filterMap fun key => Hash.ofBytes? (key.drop 4)

theorem mem_candidates (h : (d.header? k).isSome) : k ∈ d.candidates := by
  unfold header? at h
  rw [candidates, List.mem_append]
  cases hs : d.headers[k]? with
  | some x =>
    left
    rw [Std.TreeMap.mem_keys, Std.TreeMap.mem_iff_isSome_getElem?, hs]
    rfl
  | none =>
    right
    rw [List.mem_filterMap]
    refine ⟨(Key.header k).bytes, ?_, Hash.ofBytes?_bytes k⟩
    rw [Std.TreeMap.mem_keys, Std.TreeMap.mem_iff_isSome_getElem?]
    rw [hs] at h
    exact Store.isSome_get?_of_header? h

theorem length_candidates_le (d : Draft) : d.candidates.length < d.bound := by
  have := List.length_filterMap_le (fun key => Hash.ofBytes? (key.drop 4)) d.base.records.keys
  simp only [candidates, List.length_append, Std.TreeMap.length_keys, bound] at this ⊢
  omega

theorem length_route_lt (hn : Named (forestOf d.header?)) {r : List Link}
    (hr : Route (forestOf d.header?) g k r) : r.length < d.bound := by
  have hlen := hr.length_le hn fun k hk => mem_candidates (isSome_forestOf ▸ hk)
  exact lt_of_le_of_lt hlen d.length_candidates_le

theorem trace_route (ht : Exact d.header? g c) {y : Link} {r : List Link} (stop : Header → Bool)
    (hstop : ∀ x : Link, stop (x.placed c []) = true)
    (hr : Route (forestOf d.header?) g k (y :: r)) :
    ∃ w, d.trace stop (y.placed c r) = .ok w ∧ w.Follows stop c (y :: r) := by
  refine Trace.run_route _ stop (fun k x r h => header_eq (ht.placed h)) hstop hr ?_
  have hlen := length_route_lt ht.named hr
  simp only [List.length_cons] at hlen
  omega

end HeaderChain.Draft
