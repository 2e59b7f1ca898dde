import HeaderChain.Proofs.Staging

/-!
# Carrying out contest steps

How the operations of a contest compose, and what each of them leaves when it succeeds. Attaching
the children of one header changes nothing but these headers, the edges to them, and the slots of
their candidates: the first child takes the slot of its parent, every other child a new one.
-/

namespace HeaderChain

/-- One piece of work after the other, where both may fail and keep what they did to the state. -/
theorem run_bind {ε σ α β : Type} (s : σ) (step : ExceptT ε (StateM σ) α)
    (f : α → ExceptT ε (StateM σ) β) :
    (step >>= f).run.run s = match step.run.run s with
      | (.ok a, s) => (f a).run.run s
      | (.error e, s) => (.error e, s) := by
  unfold ExceptT.run StateT.run
  simp only [bind, ExceptT.bind, ExceptT.mk, StateT.bind, ExceptT.bindCont]
  rcases step s with ⟨_ | _, _⟩ <;> rfl

namespace Contest

variable {α β : Type} {s : Contest} {parent y : Header} {hash child : Hash} {before : Candidate}

theorem perform_bind (s : Contest) (step : Step α) (f : α → Step β) :
    s.perform (step >>= f) = match s.perform step with
      | (.ok a, s) => s.perform (f a)
      | (.error e, s) => (.error e, s) := by
  unfold perform
  rw [run_bind]
  rcases step.run.run s with ⟨_ | _, _⟩ <;> rfl

@[simp] theorem perform_pure (a : α) : s.perform (pure a) = (.ok a, s) := rfl

@[simp] theorem perform_get : s.perform get = (.ok s, s) := rfl

@[simp] theorem perform_set (c : Contest) : s.perform (set c) = (.ok (), c) := rfl

@[simp] theorem perform_modify (f : Contest → Contest) : s.perform (modify f) = (.ok (), f s) := rfl

@[simp] theorem perform_liftExcept (e : Except ChainError α) :
    s.perform (liftExcept e) = (e, s) := by
  cases e <;> rfl

@[simp] theorem perform_enter (c : Candidate) : s.perform (enter c) =
    (.ok s.candidates.size, { s with candidates := s.candidates.push c }) := rfl

theorem perform_connect (parent : Header) (h : s.draft.header? child = some y) :
    s.perform (connect parent child) = (.ok (y.connect parent s.draft.currentCheckpoint),
      { s with draft := s.draft.restage child (y.connect parent s.draft.currentCheckpoint) }) := by
  rw [connect, perform_bind, perform_get]
  simp only [Draft.connect_eq h]
  rfl

theorem perform_attach {index : ℕ} (h : s.draft.header? child = some y) :
    s.perform (attach hash parent before index child) = (.ok (),
      { draft := (s.draft.attach hash child).restage child
          (y.connect parent s.draft.currentCheckpoint)
        candidates := s.candidates.setIfInBounds index
          (before.extend (y.connect parent s.draft.currentCheckpoint)) }) := by
  have hconnect := perform_connect (s := { s with draft := s.draft.attach hash child }) parent h
  rw [attach, perform_bind, perform_modify]
  simp only [perform_bind, hconnect]
  rfl

/-! ## Children of one header -/

/-- The headers of `children`, which waited under `hash`, are connected to its header `parent`. -/
structure Joined (d : Draft) (hash : Hash) (parent : Header) (children : List Hash) (e : Draft) :
    Prop where
  frame : ∃ headers edges, e = { d with headers, edges }
  header? : ∀ k, e.header? k = if k ∈ children then
    (d.header? k).map fun h => h.connect parent d.currentCheckpoint else d.header? k
  isWaiting : ∀ edge, e.isWaiting edge = true ↔
    d.isWaiting edge = true ∧ ¬ (edge.parent = hash ∧ edge.child ∈ children)

/-- The children are attached, each as the tip of a candidate in the slot beside it, which is
`before` up to its parent. -/
structure Grown (s : Contest) (hash : Hash) (parent : Header) (before : Candidate)
    (slots : List (Hash × ℕ)) (s' : Contest) : Prop where
  joined : Joined s.draft hash parent (slots.map Prod.fst) s'.draft
  filled : ∀ c i, (c, i) ∈ slots → s'.candidates[i]? =
    (s.draft.header? c).map fun h => before.extend (h.connect parent s.draft.currentCheckpoint)
  others : ∀ i, i ∉ slots.map Prod.snd → s'.candidates[i]? = s.candidates[i]?

theorem Joined.currentCheckpoint {d e : Draft} {children : List Hash}
    (h : Joined d hash parent children e) : e.currentCheckpoint = d.currentCheckpoint := by
  obtain ⟨_, _, rfl⟩ := h.frame
  rfl

theorem joined_single (d : Draft) (h : d.header? child = some y) :
    Joined d hash parent [child]
      ((d.attach hash child).restage child (y.connect parent d.currentCheckpoint)) := by
  constructor
  case frame => exact ⟨_, _, rfl⟩
  case header? =>
    intro k
    rw [Draft.header?_restage]
    by_cases hk : child = k
    · subst hk
      simp [h]
    · simp only [if_neg hk, List.mem_singleton, if_neg (Ne.symm hk)]
      rfl
  case isWaiting =>
    intro edge
    change (d.attach hash child).isWaiting edge = true ↔ _
    obtain ⟨p, c⟩ := edge
    rw [Draft.isWaiting_attach]
    simp only [Bool.and_eq_true, Bool.not_eq_true', decide_eq_false_iff_not, Edge.mk.injEq,
      List.mem_singleton, @eq_comm _ hash p, @eq_comm _ child c]
    exact and_comm

theorem Joined.append {d₁ d₂ d₃ : Draft} {a b : List Hash} (h₁ : Joined d₁ hash parent a d₂)
    (h₂ : Joined d₂ hash parent b d₃) (hdisjoint : ∀ c ∈ b, c ∉ a) :
    Joined d₁ hash parent (a ++ b) d₃ := by
  constructor
  case frame =>
    obtain ⟨_, _, he⟩ := h₁.frame
    obtain ⟨_, _, he'⟩ := h₂.frame
    exact ⟨_, _, by rw [he', he]⟩
  case header? =>
    intro k
    rw [h₂.header?, h₁.header?, h₁.currentCheckpoint]
    by_cases hb : k ∈ b
    · rw [if_pos hb, if_neg (hdisjoint k hb), if_pos (List.mem_append_right a hb)]
    · rw [if_neg hb]
      simp only [List.mem_append, hb, or_false]
  case isWaiting =>
    intro edge
    rw [h₂.isWaiting, h₁.isWaiting, List.mem_append, and_assoc, ← not_or, ← and_or_left]

theorem Grown.append {s₁ s₂ s₃ : Contest} {a b : List (Hash × ℕ)}
    (h₁ : Grown s₁ hash parent before a s₂) (h₂ : Grown s₂ hash parent before b s₃)
    (hchildren : ∀ c ∈ b.map Prod.fst, c ∉ a.map Prod.fst)
    (hslots : ∀ i ∈ b.map Prod.snd, i ∉ a.map Prod.snd) :
    Grown s₁ hash parent before (a ++ b) s₃ := by
  constructor
  case joined =>
    rw [List.map_append]
    exact h₁.joined.append h₂.joined hchildren
  case filled =>
    intro c i hmem
    rcases List.mem_append.mp hmem with ha | hb
    · rw [h₂.others i fun hi => hslots i hi (List.mem_map_of_mem ha), h₁.filled c i ha]
    · have hc := hchildren c (List.mem_map_of_mem hb)
      rw [h₂.filled c i hb, h₁.joined.header?, if_neg hc, h₁.joined.currentCheckpoint]
  case others =>
    intro i hi
    rw [List.map_append, List.mem_append, not_or] at hi
    rw [h₂.others i hi.2, h₁.others i hi.1]

theorem attach_spec (hash : Hash) (parent : Header) (before : Candidate) {index : ℕ}
    (h : s.draft.header? child = some y) (hindex : index < s.candidates.size) :
    ∃ s', s.perform (attach hash parent before index child) = (.ok (), s') ∧
      s'.candidates.size = s.candidates.size ∧
      Grown s hash parent before [(child, index)] s' := by
  refine ⟨_, perform_attach h, by simp, joined_single s.draft h, ?_, ?_⟩
  · intro c i hmem
    obtain ⟨rfl, rfl⟩ := Prod.mk.inj (List.mem_singleton.mp hmem)
    simp [h, hindex]
  · intro i hi
    have hne : index ≠ i := by simpa [eq_comm] using hi
    simp [hne]

/-- The contests have the same candidates, and their drafts show the same tree of headers. -/
structure Alike (s s' : Contest) : Prop where
  candidates : s'.candidates = s.candidates
  header? : s'.draft.header? = s.draft.header?
  isWaiting : s'.draft.isWaiting = s.draft.isWaiting
  checkpoint : s'.draft.currentCheckpoint = s.draft.currentCheckpoint

theorem Alike.refl (s : Contest) : s.Alike s := ⟨rfl, rfl, rfl, rfl⟩

theorem Grown.alike {u s' u' : Contest} {slots : List (Hash × ℕ)} (halike : s.Alike s')
    (h : Grown s hash parent before slots u) (h' : Grown s' hash parent before slots u') :
    u.Alike u' := by
  constructor
  case candidates =>
    apply Array.ext_getElem?
    intro i
    by_cases hi : i ∈ slots.map Prod.snd
    · obtain ⟨⟨c, i⟩, hmem, rfl⟩ := List.mem_map.mp hi
      rw [h.filled c i hmem, h'.filled c i hmem, halike.header?, halike.checkpoint]
    · rw [h.others i hi, h'.others i hi, halike.candidates]
  case header? =>
    funext k
    rw [h.joined.header?, h'.joined.header?, halike.header?, halike.checkpoint]
  case isWaiting =>
    funext edge
    rw [Bool.eq_iff_iff, h.joined.isWaiting, h'.joined.isWaiting, halike.isWaiting]
  case checkpoint =>
    rw [h.joined.currentCheckpoint, h'.joined.currentCheckpoint, halike.checkpoint]

/-- A slot that was just entered counts as a new one. -/
theorem Grown.of_enter {s' : Contest}
    (h : Grown { s with candidates := s.candidates.push before } hash parent before
      [(child, s.candidates.size)] s') :
    Grown s hash parent before [(child, s.candidates.size)] s' := by
  refine ⟨h.joined, h.filled, ?_⟩
  intro i hi
  have hne : i ≠ s.candidates.size := by simpa using hi
  rw [h.others i hi]
  simp [Array.getElem?_push, hne]

theorem attachCopies_spec (hash : Hash) (parent : Header) (before : Candidate)
    (queue : List (Hash × ℕ)) {children : List Hash}
    (hfound : ∀ c ∈ children, (s.draft.header? c).isSome) (hnodup : children.Nodup) :
    ∃ s', s.perform (attachCopies hash parent before queue children) =
        (.ok ((children.zipIdx s.candidates.size).reverse ++ queue), s') ∧
      Grown s hash parent before (children.zipIdx s.candidates.size) s' := by
  induction children generalizing s queue with
  | nil => exact ⟨s, rfl, ⟨⟨_, _, rfl⟩, by simp, by simp⟩, by simp, by simp⟩
  | cons child children ih =>
    obtain ⟨hnew, hnodup⟩ := List.nodup_cons.mp hnodup
    obtain ⟨y, hy⟩ := Option.isSome_iff_exists.mp (hfound child (by simp))
    have hroom : s.candidates.size < (s.candidates.push before).size := by simp
    obtain ⟨s₁, hattach, hsize, hfirst⟩ := attach_spec
      (s := { s with candidates := s.candidates.push before }) hash parent before hy hroom
    have hfirst := hfirst.of_enter
    rw [Array.size_push] at hsize
    obtain ⟨s₂, hcopies, hrest⟩ := @ih s₁ ((child, s.candidates.size) :: queue)
      (by
        intro c hc
        have hne : c ∉ [child] := by
          rw [List.mem_singleton]
          rintro rfl
          exact hnew hc
        rw [hfirst.joined.header?, List.map_singleton, if_neg hne]
        exact hfound c (List.mem_cons_of_mem child hc)) hnodup
    rw [hsize] at hcopies hrest
    refine ⟨s₂, ?_, ?_⟩
    · simp only [attachCopies, perform_bind, perform_enter, hattach, hcopies]
      simp
    · refine hfirst.append hrest ?_ ?_
      · intro c hc hmem
        rw [List.zipIdx_map_fst] at hc
        obtain rfl : c = child := by simpa using hmem
        exact hnew hc
      · intro i hi hmem
        rw [List.zipIdx_map_snd, List.mem_range'_1] at hi
        have heq : i = s.candidates.size := by simpa using hmem
        omega

end Contest

end HeaderChain
