import HeaderChain.Proofs.Performing

/-!
# Attaching what waits

What waits under a header, over any number of others, is a tree, because every header has one
parent only. The loop that attaches it keeps one candidate for each leaf of the part attached so
far. A header that others still wait under is in the queue, so that nothing waits any more when
the queue is empty.
-/

namespace HeaderChain

/-- The edges of the draft are those from headers without a place to their parents. -/
def Draft.EdgesExact (d : Draft) : Prop :=
  ∀ e, d.isWaiting e = true ↔
    ∃ h, d.header? e.child = some h ∧ h.isDisconnected = true ∧ h.parent = e.parent

/-- The edges of the draft are those from headers without a place, each stored under its own hash,
to their parents. -/
def Draft.EdgesNamed (d : Draft) : Prop :=
  ∀ e, d.isWaiting e = true ↔ ∃ h, d.header? e.child = some h ∧ h.hash = e.child ∧
    h.isDisconnected = true ∧ h.parent = e.parent

/-- The header `k` is `t` or waits under it. Once it is connected it is `h`, when the header of `t`
is `x`; `climb` are the positions from there down to above `t`. -/
inductive Hangs (d : Draft) (t : Hash) (x : Header) : Hash → Header → List Position → Prop
  | root : Hangs d t x t x []
  | child {k j h y climb} (under : Hangs d t x k h climb) (found : d.header? j = some y)
      (named : y.hash = j) (waits : y.isDisconnected = true) (parent : y.parent = k) :
      Hangs d t x j (y.connect h d.currentCheckpoint)
        ((y.connect h d.currentCheckpoint).position :: climb)

variable {d : Draft} {t k k' j p : Hash} {x y u v : Header} {climb climb' chain : List Position}
variable {c : Position}

theorem isDisconnected_connect (hu : u.isDisconnected = false) :
    (y.connect u c).isDisconnected = false := by
  have hown : (y.connect u c).own ≠ .disconnected := by
    unfold Header.connect Header.compareTo
    dsimp only
    split_ifs <;> simp
  have hinherited : (y.connect u c).inherited ≠ .disconnected := by
    change u.bequest ≠ .disconnected
    unfold Header.bequest
    simp only [hu, Bool.false_eq_true, if_false]
    split_ifs <;> simp
  simp [Header.isDisconnected, hown, hinherited]

namespace Hangs

theorem isDisconnected (hk : Hangs d t x k u climb) (hx : x.isDisconnected = false) :
    u.isDisconnected = false := by
  induction hk with
  | root => exact hx
  | child _ _ _ _ _ ih => exact isDisconnected_connect ih

theorem unique (hx : d.header? t = some x) (hconnected : x.isDisconnected = false)
    (hk : Hangs d t x k u climb) : Hangs d t x k v climb' → u = v ∧ climb = climb' := by
  induction hk generalizing v climb' with
  | root =>
    intro hk'
    cases hk' with
    | root => exact ⟨rfl, rfl⟩
    | child _ found _ waits _ =>
      cases hx.symm.trans found
      simp [hconnected] at waits
  | child under found _ waits parent ih =>
    intro hk'
    cases hk' with
    | root =>
      cases hx.symm.trans found
      simp [hconnected] at waits
    | child under' found' _ _ parent' =>
      cases found.symm.trans found'
      subst parent parent'
      obtain ⟨rfl, rfl⟩ := ih under'
      exact ⟨rfl, rfl⟩

/-- The positions tell which header they lead to. -/
theorem hash_unique (hk : Hangs d t x k u climb) (hk' : Hangs d t x k' v climb) : k = k' := by
  cases hk with
  | root =>
    cases hk' with
    | root => rfl
  | child _ _ named _ _ =>
    generalize hclimb : Header.position _ :: _ = climb at hk'
    cases hk' with
    | root => cases hclimb
    | child _ _ named' _ _ =>
      have hhash := congrArg Position.hash (List.cons.inj hclimb).1
      rw [← named, ← named']
      exact hhash

end Hangs

namespace Contest

/-- The candidates and the draft that attaching starts with: the candidate in the slot `start` ends
at `t`, over the positions `chain`. -/
structure Start (d : Draft) (t : Hash) (x : Header) : Prop where
  edges : d.EdgesNamed
  found : d.header? t = some x
  connected : x.isDisconnected = false

def Reached (d : Draft) (t : Hash) (x : Header) (s : Contest) (k : Hash) : Prop :=
  ∃ h climb, Hangs d t x k h climb ∧ s.draft.header? k = some h

def Tip (d : Draft) (t : Hash) (x : Header) (chain : List Position) (s : Contest) (i : ℕ)
    (k : Hash) : Prop :=
  ∃ h climb, Hangs d t x k h climb ∧ s.draft.header? k = some h ∧
    s.candidates[i]? = some ⟨h.isBanned, climb ++ chain⟩

/-- What holds each time before the loop takes a header from the queue. The slots in use are
`start` and those after the candidates `cands`. -/
structure Attaching (d : Draft) (t : Hash) (x : Header) (chain : List Position)
    (cands : Array Candidate) (start : ℕ) (s : Contest) (queue : List (Hash × ℕ)) : Prop where
  frame : ∃ headers edges, s.draft = { d with headers, edges }
  headers : ∀ k, s.draft.header? k = d.header? k ∨ Reached d t x s k
  waiting : ∀ p k, s.draft.isWaiting ⟨p, k⟩ = true ↔
    d.isWaiting ⟨p, k⟩ = true ∧ ¬ Reached d t x s k
  closed : ∀ p k, d.isWaiting ⟨p, k⟩ = true → Reached d t x s k → Reached d t x s p
  size : cands.size ≤ s.candidates.size
  others : ∀ i < cands.size, i ≠ start → s.candidates[i]? = cands[i]?
  used : ∀ i < s.candidates.size, i = start ∨ cands.size ≤ i → ∃ k, Tip d t x chain s i k
  distinct : ∀ i j k, (i = start ∨ cands.size ≤ i) → (j = start ∨ cands.size ≤ j) →
    Tip d t x chain s i k → Tip d t x chain s j k → i = j
  covered : ∀ k, Reached d t x s k →
    (∃ i, (i = start ∨ cands.size ≤ i) ∧ Tip d t x chain s i k) ∨
      ∃ j, d.isWaiting ⟨k, j⟩ = true ∧ Reached d t x s j
  ends : ∀ i k j, (i = start ∨ cands.size ≤ i) → Tip d t x chain s i k →
    d.isWaiting ⟨k, j⟩ = true → ¬ Reached d t x s j
  queued : ∀ k i, (k, i) ∈ queue → (i = start ∨ cands.size ≤ i) ∧ Tip d t x chain s i k
  nodup : (queue.map Prod.snd).Nodup
  pending : ∀ p k, s.draft.isWaiting ⟨p, k⟩ = true → Reached d t x s p → ∃ i, (p, i) ∈ queue

variable {s s' : Contest} {cands : Array Candidate} {start i : ℕ} {queue : List (Hash × ℕ)}

theorem Start.parent_unique (hd : Start d t x) (hp : d.isWaiting ⟨p, j⟩ = true)
    (hk : d.isWaiting ⟨k, j⟩ = true) : p = k := by
  obtain ⟨y, hy, -, -, rfl⟩ := (hd.edges _).mp hp
  obtain ⟨z, hz, -, -, rfl⟩ := (hd.edges _).mp hk
  cases hy.symm.trans hz
  rfl

theorem Start.not_waiting (hd : Start d t x) : ¬ d.isWaiting ⟨p, t⟩ = true := by
  intro hwaiting
  obtain ⟨y, hy, -, hwaits, -⟩ := (hd.edges _).mp hwaiting
  cases hd.found.symm.trans hy
  simp [hd.connected] at hwaits

theorem tip_unique (hk : Tip d t x chain s i k)
    (hj : Tip d t x chain s i j) : k = j := by
  obtain ⟨h, climb, hk, -, hslot⟩ := hk
  obtain ⟨h', climb', hj, -, hslot'⟩ := hj
  have hchain := congrArg Candidate.chain (Option.some.inj (hslot.symm.trans hslot'))
  cases List.append_cancel_right hchain
  exact hk.hash_unique hj

theorem Attaching.header?_of_waiting (hd : Start d t x)
    (h : Attaching d t x chain cands start s queue) (hk : s.draft.isWaiting ⟨p, k⟩ = true) :
    ∃ y, s.draft.header? k = some y ∧ d.header? k = some y ∧ y.hash = k ∧
      y.isDisconnected = true ∧ y.parent = p := by
  obtain ⟨hbefore, hnot⟩ := (h.waiting p k).mp hk
  obtain ⟨y, hy, hname, hwaits, hparent⟩ := (hd.edges _).mp hbefore
  refine ⟨y, ?_, hy, hname, hwaits, hparent⟩
  rcases h.headers k with hsame | hreached
  · rw [hsame]
    exact hy
  · exact absurd hreached hnot

/-! ## One header of the queue -/

/-- The slots of all that waits under `k`, whose own candidate has the slot `i`. -/
structure Family (s : Contest) (k : Hash) (i : ℕ) (slots : List (Hash × ℕ)) : Prop where
  children : ∀ j, j ∈ slots.map Prod.fst ↔ s.draft.isWaiting ⟨k, j⟩ = true
  nodup_children : (slots.map Prod.fst).Nodup
  nodup_slots : (slots.map Prod.snd).Nodup
  first : i ∈ slots.map Prod.snd
  fresh : ∀ m ∈ slots.map Prod.snd, m = i ∨ s.candidates.size ≤ m

section Growing

variable {slots : List (Hash × ℕ)} {m : ℕ} {parent : Header}
variable (hd : Start d t x) (h : Attaching d t x chain cands start s queue)
variable (hf : Family s k i slots) (hk : Hangs d t x k parent climb)
variable (hgrown : Grown s k parent ⟨parent.isBanned, climb ++ chain⟩ slots s')

include hd h hf

theorem Attaching.of_child (hj : j ∈ slots.map Prod.fst) :
    d.isWaiting ⟨k, j⟩ = true ∧ ¬ Reached d t x s j ∧ ∃ y, s.draft.header? j = some y ∧
      d.header? j = some y ∧ y.hash = j ∧ y.isDisconnected = true ∧ y.parent = k := by
  have hwaiting := (hf.children j).mp hj
  obtain ⟨hbefore, hnot⟩ := (h.waiting k j).mp hwaiting
  exact ⟨hbefore, hnot, h.header?_of_waiting hd hwaiting⟩

include hgrown

theorem Attaching.tip_iff (hm : m ∉ slots.map Prod.snd) (hused : m = start ∨ cands.size ≤ m) :
    Tip d t x chain s' m j ↔ Tip d t x chain s m j := by
  have hslot := hgrown.others m hm
  by_cases hj : j ∈ slots.map Prod.fst
  · -- A slot in use has its tip already, which is connected and thus none of the children.
    obtain ⟨-, hnot, -⟩ := h.of_child hd hf hj
    constructor
    · rintro ⟨y, climb', hy, -, hcand⟩
      rw [hslot] at hcand
      obtain ⟨j', hj'⟩ := h.used m (Array.getElem?_eq_some_iff.mp hcand).1 hused
      obtain ⟨y', climb'', hy', hheader', hcand'⟩ := id hj'
      have hchain := congrArg Candidate.chain (Option.some.inj (hcand.symm.trans hcand'))
      cases List.append_cancel_right hchain
      obtain rfl := hy.hash_unique hy'
      exact hj'
    · rintro ⟨y, climb', hy, hheader, -⟩
      exact absurd ⟨y, climb', hy, hheader⟩ hnot
  · rw [Tip, hgrown.joined.header?, if_neg hj, hslot]
    rfl

include hk

theorem Attaching.hangs_child (hj : j ∈ slots.map Prod.fst) :
    ∃ y, Hangs d t x j y (y.position :: climb) ∧ s'.draft.header? j = some y ∧
      ∀ m, (j, m) ∈ slots →
        s'.candidates[m]? = some ⟨y.isBanned, y.position :: climb ++ chain⟩ := by
  obtain ⟨-, -, y, hy, hyd, hname, hwaits, hparent⟩ := h.of_child hd hf hj
  have hcheckpoint : s.draft.currentCheckpoint = d.currentCheckpoint := by
    obtain ⟨_, _, hframe⟩ := h.frame
    rw [hframe]
    rfl
  refine ⟨y.connect parent d.currentCheckpoint, hk.child hyd hname hwaits hparent, ?_, ?_⟩
  · rw [hgrown.joined.header?, if_pos hj, hy, hcheckpoint]
    rfl
  · intro m hm
    rw [hgrown.filled j m hm, hy, hcheckpoint]
    rfl

theorem Attaching.reached_iff :
    Reached d t x s' j ↔ Reached d t x s j ∨ j ∈ slots.map Prod.fst := by
  by_cases hj : j ∈ slots.map Prod.fst
  · obtain ⟨y, hy, hheader, -⟩ := h.hangs_child hd hf hk hgrown hj
    simp only [hj, or_true, iff_true]
    exact ⟨y, _, hy, hheader⟩
  · rw [Reached, hgrown.joined.header?, if_neg hj]
    simp [hj, Reached]

theorem Attaching.tip_of_slot (hm : (j, m) ∈ slots) : Tip d t x chain s' m j := by
  obtain ⟨y, hy, hheader, hcand⟩ := h.hangs_child hd hf hk hgrown (List.mem_map_of_mem hm)
  exact ⟨y, _, hy, hheader, hcand m hm⟩

theorem Attaching.size_le : s.candidates.size ≤ s'.candidates.size := by
  by_contra hlt
  have hlast : s'.candidates.size < s.candidates.size := not_le.mp hlt
  by_cases hm : s'.candidates.size ∈ slots.map Prod.snd
  · obtain ⟨⟨j, m⟩, hmem, hm⟩ := List.mem_map.mp hm
    obtain ⟨_, _, _, _, hcand⟩ := h.tip_of_slot hd hf hk hgrown hmem
    simp at hm
    simp [hm] at hcand
  · have hsame := hgrown.others _ hm
    simp [hlast] at hsame

/-- The tip of a slot in use is the child that got the slot, or what it was before. -/
theorem Attaching.tip_cases (hused : m = start ∨ cands.size ≤ m) (hm : Tip d t x chain s' m j) :
    (j, m) ∈ slots ∨ m ∉ slots.map Prod.snd ∧ Tip d t x chain s m j := by
  by_cases hslot : m ∈ slots.map Prod.snd
  · obtain ⟨⟨j', m⟩, hmem, rfl⟩ := List.mem_map.mp hslot
    rw [tip_unique hm (h.tip_of_slot hd hf hk hgrown hmem)]
    exact .inl hmem
  · exact .inr ⟨hslot, (h.tip_iff hd hf hgrown hslot hused).mp hm⟩

theorem Attaching.grow_distinct {l m : ℕ} (hl : l = start ∨ cands.size ≤ l)
    (hm : m = start ∨ cands.size ≤ m) (hj : Tip d t x chain s' l j)
    (hj' : Tip d t x chain s' m j) : l = m := by
  have hnot {m : ℕ} (hm : Tip d t x chain s m j) : j ∉ slots.map Prod.fst := by
    obtain ⟨y, climb', hy, hheader, -⟩ := hm
    intro hmem
    exact (h.of_child hd hf hmem).2.1 ⟨y, climb', hy, hheader⟩
  rcases h.tip_cases hd hf hk hgrown hl hj with hslot | ⟨-, hold⟩
  · rcases h.tip_cases hd hf hk hgrown hm hj' with hslot' | ⟨-, hold'⟩
    · exact congrArg Prod.snd (List.inj_on_of_nodup_map hf.nodup_children hslot hslot' rfl)
    · exact absurd (List.mem_map_of_mem hslot) (hnot hold')
  · rcases h.tip_cases hd hf hk hgrown hm hj' with hslot' | ⟨-, hold'⟩
    · exact absurd (List.mem_map_of_mem hslot') (hnot hold)
    · exact h.distinct l m j hl hm hold hold'

end Growing

/-! ## The loop -/

section Loop

variable {slots rest : List (Hash × ℕ)} {m : ℕ} {parent : Header}
variable (hd : Start d t x) (h : Attaching d t x chain cands start s ((k, i) :: queue))
variable (hf : Family s k i slots)

include h

theorem Attaching.slot_lt (hmem : (j, m) ∈ (k, i) :: queue) : m < s.candidates.size := by
  obtain ⟨-, _, _, _, _, hcand⟩ := h.queued j m hmem
  exact (Array.getElem?_eq_some_iff.mp hcand).1

include hf

theorem Attaching.slot_used (hm : m ∈ slots.map Prod.snd) : m = start ∨ cands.size ≤ m := by
  rcases hf.fresh m hm with rfl | hle
  · exact (h.queued k m (by simp)).1
  · exact .inr (h.size.trans hle)

theorem Attaching.not_slot (hmem : (j, m) ∈ queue) : m ∉ slots.map Prod.snd := by
  intro hm
  have hlt := h.slot_lt (List.mem_cons_of_mem _ hmem)
  rcases hf.fresh m hm with rfl | hle
  · have hnodup := h.nodup
    rw [List.map_cons, List.nodup_cons] at hnodup
    exact hnodup.1 (List.mem_map.mpr ⟨_, hmem, rfl⟩)
  · omega

variable (hk : Hangs d t x k parent climb)
variable (hgrown : Grown s k parent ⟨parent.isBanned, climb ++ chain⟩ slots s')

include hd hk hgrown

theorem Attaching.grow_used (hm : m < s'.candidates.size) (hused : m = start ∨ cands.size ≤ m) :
    ∃ j, Tip d t x chain s' m j := by
  by_cases hslot : m ∈ slots.map Prod.snd
  · obtain ⟨⟨j, m⟩, hmem, rfl⟩ := List.mem_map.mp hslot
    exact ⟨j, h.tip_of_slot hd hf hk hgrown hmem⟩
  · have hbound : m < s.candidates.size := by
      by_contra hge
      have hsame := hgrown.others m hslot
      simp [hm, not_lt.mp hge] at hsame
    obtain ⟨j, hj⟩ := h.used m hbound hused
    exact ⟨j, (h.tip_iff hd hf hgrown hslot hused).mpr hj⟩

/-- Only the slot of `k` is given away, and `k` has a child then. -/
theorem Attaching.grow_covered (hj : Reached d t x s' j) :
    (∃ m, (m = start ∨ cands.size ≤ m) ∧ Tip d t x chain s' m j) ∨
      ∃ l, d.isWaiting ⟨j, l⟩ = true ∧ Reached d t x s' l := by
  have hreached (j : Hash) := h.reached_iff hd hf hk hgrown (j := j)
  rcases (hreached j).mp hj with hj | hj
  · rcases h.covered j hj with ⟨m, hused, hm⟩ | ⟨l, hl, hr⟩
    · by_cases hslot : m ∈ slots.map Prod.snd
      · obtain ⟨_, _, _, _, hcand⟩ := id hm
        have hlt := (Array.getElem?_eq_some_iff.mp hcand).1
        rcases hf.fresh m hslot with rfl | hle
        · obtain rfl := tip_unique hm (h.queued k m (by simp)).2
          obtain ⟨⟨l, m⟩, hmem, rfl⟩ := List.mem_map.mp hslot
          have hchild : l ∈ slots.map Prod.fst := List.mem_map_of_mem hmem
          exact .inr ⟨l, (h.of_child hd hf hchild).1, (hreached l).mpr (.inr hchild)⟩
        · omega
      · exact .inl ⟨m, hused, (h.tip_iff hd hf hgrown hslot hused).mpr hm⟩
    · exact .inr ⟨l, hl, (hreached l).mpr (.inl hr)⟩
  · obtain ⟨⟨j, m⟩, hmem, rfl⟩ := List.mem_map.mp hj
    exact .inl ⟨m, h.slot_used hf (List.mem_map.mpr ⟨_, hmem, rfl⟩),
      h.tip_of_slot hd hf hk hgrown hmem⟩

/-- Nothing that waits under the tip of a slot in use is connected. -/
theorem Attaching.grow_ends {l : Hash} (hself : Reached d t x s k)
    (hused : m = start ∨ cands.size ≤ m) (hm : Tip d t x chain s' m j)
    (hl : d.isWaiting ⟨j, l⟩ = true) : ¬ Reached d t x s' l := by
  rw [h.reached_iff hd hf hk hgrown, not_or]
  rcases h.tip_cases hd hf hk hgrown hused hm with hslot | ⟨hslot, hold⟩
  · have hchild : j ∈ slots.map Prod.fst := List.mem_map_of_mem hslot
    have hnot := (h.of_child hd hf hchild).2.1
    refine ⟨fun hr => hnot (h.closed j l hl hr), fun hmem => hnot ?_⟩
    rw [hd.parent_unique hl (h.of_child hd hf hmem).1]
    exact hself
  · refine ⟨h.ends m j l hused hold hl, fun hmem => hslot ?_⟩
    rw [hd.parent_unique hl (h.of_child hd hf hmem).1] at hold
    obtain ⟨hiused, hi⟩ := h.queued k i (by simp)
    rw [h.distinct m i k hused hiused hold hi]
    exact hf.first

variable (hrest : rest.Perm (slots ++ queue))

include hrest

theorem Attaching.grow_queued (hmem : (j, m) ∈ rest) :
    (m = start ∨ cands.size ≤ m) ∧ Tip d t x chain s' m j := by
  rcases List.mem_append.mp (hrest.mem_iff.mp hmem) with hmem | hmem
  · exact ⟨h.slot_used hf (List.mem_map.mpr ⟨_, hmem, rfl⟩), h.tip_of_slot hd hf hk hgrown hmem⟩
  · obtain ⟨hused, htip⟩ := h.queued j m (List.mem_cons_of_mem _ hmem)
    exact ⟨hused, (h.tip_iff hd hf hgrown (h.not_slot hf hmem) hused).mpr htip⟩

theorem Attaching.grow_pending (hj : s'.draft.isWaiting ⟨p, j⟩ = true)
    (hp : Reached d t x s' p) : ∃ m, (p, m) ∈ rest := by
  obtain ⟨hj, hnot⟩ := (hgrown.joined.isWaiting _).mp hj
  rcases (h.reached_iff hd hf hk hgrown).mp hp with hp | hp
  · obtain ⟨m, hmem⟩ := h.pending p j hj hp
    rcases List.mem_cons.mp hmem with heq | hmem
    · cases heq
      exact absurd ⟨rfl, (hf.children j).mpr hj⟩ hnot
    · exact ⟨m, hrest.mem_iff.mpr (List.mem_append_right _ hmem)⟩
  · obtain ⟨⟨p, m⟩, hmem, rfl⟩ := List.mem_map.mp hp
    exact ⟨m, hrest.mem_iff.mpr (List.mem_append_left _ hmem)⟩

/-- A header is taken from the queue, and all that waits under it is attached. -/
theorem Attaching.grow (hheader : s.draft.header? k = some parent) :
    Attaching d t x chain cands start s' rest := by
  have hreached (j : Hash) := h.reached_iff hd hf hk hgrown (j := j)
  have hself : Reached d t x s k := ⟨parent, climb, hk, hheader⟩
  constructor
  case frame =>
    obtain ⟨_, _, he⟩ := h.frame
    obtain ⟨_, _, he'⟩ := hgrown.joined.frame
    exact ⟨_, _, by rw [he', he]⟩
  case headers =>
    intro j
    by_cases hj : j ∈ slots.map Prod.fst
    · exact .inr ((hreached j).mpr (.inr hj))
    · rw [hreached, hgrown.joined.header?, if_neg hj]
      exact (h.headers j).imp_right .inl
  case waiting =>
    intro p j
    rw [hgrown.joined.isWaiting, h.waiting, hreached, not_or, and_assoc]
    refine and_congr_right fun hp => and_congr_right fun _ => not_congr ⟨And.right, fun hj => ?_⟩
    exact ⟨hd.parent_unique hp (h.of_child hd hf hj).1, hj⟩
  case closed =>
    intro p j hp hj
    rw [hreached] at hj ⊢
    rcases hj with hj | hj
    · exact .inl (h.closed p j hp hj)
    · rw [hd.parent_unique hp (h.of_child hd hf hj).1]
      exact .inl hself
  case size => exact h.size.trans (h.size_le hd hf hk hgrown)
  case others =>
    intro m hm hne
    have hnot : m ∉ slots.map Prod.snd := by
      intro hmem
      rcases h.slot_used hf hmem with rfl | hle
      · exact hne rfl
      · omega
    rw [hgrown.others m hnot, h.others m hm hne]
  case used => exact fun m hm hused => h.grow_used hd hf hk hgrown hm hused
  case distinct => exact fun l m j hl hm => h.grow_distinct hd hf hk hgrown hl hm
  case covered => exact fun j hj => h.grow_covered hd hf hk hgrown hj
  case ends => exact fun m j l hused hm hl => h.grow_ends hd hf hk hgrown hself hused hm hl
  case queued => exact fun j m hmem => h.grow_queued hd hf hk hgrown hrest hmem
  case nodup =>
    have hnodup := h.nodup
    rw [List.map_cons, List.nodup_cons] at hnodup
    rw [(hrest.map Prod.snd).nodup_iff, List.map_append, List.nodup_append']
    refine ⟨hf.nodup_slots, hnodup.2, ?_⟩
    intro m hm hmem
    obtain ⟨⟨j, m⟩, hpair, rfl⟩ := List.mem_map.mp hmem
    exact h.not_slot hf hpair hm
  case pending => exact fun p j hj hp => h.grow_pending hd hf hk hgrown hrest hj hp

end Loop

theorem Attaching.drop (h : Attaching d t x chain cands start s ((k, i) :: queue))
    (hnone : s.draft.waitingFor k = []) : Attaching d t x chain cands start s queue := by
  refine { h with queued := ?_, nodup := ?_, pending := ?_ }
  · intro j m hmem
    exact h.queued j m (List.mem_cons_of_mem _ hmem)
  · have hnodup := h.nodup
    rw [List.map_cons, List.nodup_cons] at hnodup
    exact hnodup.2
  · intro p j hj hp
    obtain ⟨m, hmem⟩ := h.pending p j hj hp
    rcases List.mem_cons.mp hmem with heq | hmem
    · cases heq
      rw [← Draft.mem_waitingFor, hnone] at hj
      simp at hj
    · exact ⟨m, hmem⟩

theorem Joined.length_waiting {e : Draft} {parent : Header} {children : List Hash}
    (hj : Joined d k parent children e) (hc : ∀ j ∈ children, d.isWaiting ⟨k, j⟩ = true)
    (hnodup : children.Nodup) : e.waiting.length + children.length ≤ d.waiting.length := by
  have hall : (e.waiting ++ children.map (Edge.mk k)).Nodup := by
    refine List.nodup_append'.mpr ⟨e.nodup_waiting, ?_, ?_⟩
    · exact hnodup.map fun a b hab => (Edge.mk.inj hab).2
    · intro edge hedge hmem
      obtain ⟨j, hchild, rfl⟩ := List.mem_map.mp hmem
      rw [Draft.mem_waiting, hj.isWaiting] at hedge
      exact hedge.2 ⟨rfl, hchild⟩
  have hsub : e.waiting ++ children.map (Edge.mk k) ⊆ d.waiting := by
    intro edge hedge
    rw [Draft.mem_waiting]
    rcases List.mem_append.mp hedge with hedge | hedge
    · exact ((hj.isWaiting edge).mp (Draft.mem_waiting.mp hedge)).1
    · obtain ⟨j, hmem, rfl⟩ := List.mem_map.mp hedge
      exact hc j hmem
  have hlen := (List.subperm_of_subset hall hsub).length_le
  simpa using hlen

/-- The children of a header that is taken from the queue get its slot and new ones. -/
theorem attachFamily_spec (k : Hash) (parent : Header) (before : Candidate)
    (queue : List (Hash × ℕ)) {child : Hash} {others : List Hash}
    (hfound : ∀ j ∈ child :: others, (s.draft.header? j).isSome)
    (hnodup : (child :: others).Nodup) (hi : i < s.candidates.size) :
    ∃ s₁ s₂, s.perform (attach k parent before i child) = (.ok (), s₁) ∧
      s₁.perform (attachCopies k parent before ((child, i) :: queue) others) =
        (.ok ((others.zipIdx s.candidates.size).reverse ++ (child, i) :: queue), s₂) ∧
      Grown s k parent before ((child, i) :: others.zipIdx s.candidates.size) s₂ := by
  obtain ⟨hnew, hnodup⟩ := List.nodup_cons.mp hnodup
  obtain ⟨y, hy⟩ := Option.isSome_iff_exists.mp (hfound child (by simp))
  obtain ⟨s₁, hattach, hsize, hfirst⟩ := attach_spec k parent before hy hi
  have hfound' : ∀ j ∈ others, (s₁.draft.header? j).isSome := by
    intro j hj
    have hne : j ∉ [child] := by
      rw [List.mem_singleton]
      rintro rfl
      exact hnew hj
    rw [hfirst.joined.header?, List.map_singleton, if_neg hne]
    exact hfound j (List.mem_cons_of_mem child hj)
  obtain ⟨s₂, hcopies, hrest⟩ :=
    attachCopies_spec k parent before ((child, i) :: queue) hfound' hnodup
  rw [hsize] at hcopies hrest
  refine ⟨s₁, s₂, hattach, hcopies, hfirst.append hrest ?_ ?_⟩
  · intro j hj hmem
    rw [List.zipIdx_map_fst] at hj
    obtain rfl : j = child := by simpa using hmem
    exact hnew hj
  · intro m hm hmem
    rw [List.zipIdx_map_snd, List.mem_range'_1] at hm
    have heq : m = i := by simpa using hmem
    omega

theorem family_of_waitingFor {child : Hash} {others : List Hash}
    (hchildren : s.draft.waitingFor k = child :: others) (hi : i < s.candidates.size) :
    Family s k i ((child, i) :: others.zipIdx s.candidates.size) := by
  refine ⟨?_, ?_, ?_, by simp, ?_⟩
  · intro j
    rw [← Draft.mem_waitingFor, hchildren, List.map_cons, List.zipIdx_map_fst]
  · rw [List.map_cons, List.zipIdx_map_fst, ← hchildren]
    exact s.draft.nodup_waitingFor k
  · rw [List.map_cons, List.zipIdx_map_snd, List.nodup_cons, List.mem_range'_1]
    exact ⟨by omega, List.nodup_range'⟩
  · intro m hm
    rw [List.map_cons, List.zipIdx_map_snd, List.mem_cons, List.mem_range'_1] at hm
    exact hm.imp_right And.left

theorem attachWaiting_bare {bound : ℕ} (hchildren : s.draft.waitingFor k = []) :
    s.perform (attachWaiting (bound + 1) ((k, i) :: queue)) =
      s.perform (attachWaiting bound queue) := by
  rw [attachWaiting, perform_bind, perform_get]
  simp only [hchildren]

/-- One turn of the loop attaches all children of a header, and puts them into the queue. -/
theorem attachWaiting_family {child : Hash} {others : List Hash} {before : Candidate}
    {parent : Header} (queue : List (Hash × ℕ)) (hchildren : s.draft.waitingFor k = child :: others)
    (hcand : s.candidates[i]? = some before) (hheader : s.draft.header? k = some parent)
    (hfound : ∀ j ∈ child :: others, (s.draft.header? j).isSome) :
    ∃ s', (∀ bound, s.perform (attachWaiting (bound + 1) ((k, i) :: queue)) =
        s'.perform (attachWaiting bound
          ((others.zipIdx s.candidates.size).reverse ++ (child, i) :: queue))) ∧
      Grown s k parent before ((child, i) :: others.zipIdx s.candidates.size) s' := by
  have hnodup := hchildren ▸ s.draft.nodup_waitingFor k
  obtain ⟨s₁, s', hattach, hcopies, hgrown⟩ := attachFamily_spec k parent before queue hfound hnodup
    (Array.getElem?_eq_some_iff.mp hcand).1
  refine ⟨s', fun bound => ?_, hgrown⟩
  rw [attachWaiting, perform_bind, perform_get]
  simp only [hchildren, hcand, perform_bind, perform_liftExcept, Draft.header_eq hheader, hattach,
    hcopies]

/-- The loop attaches all that waits if its bound is not below what there is to do, and a greater
bound changes nothing. On a contest that is alike it does the same. -/
theorem attachWaiting_spec (hd : Start d t x) {u : Contest}
    (h : Attaching d t x chain cands start s queue) (halike : s.Alike u) :
    ∃ s' u', (∀ bound, s.draft.waiting.length + queue.length ≤ bound →
        s.perform (attachWaiting bound queue) = (.ok (), s')) ∧
      (∀ bound, s.draft.waiting.length + queue.length ≤ bound →
        u.perform (attachWaiting bound queue) = (.ok (), u')) ∧
      Attaching d t x chain cands start s' [] ∧ s'.Alike u' := by
  -- Each turn ends edges and queues as many headers, or takes one from the queue.
  induction hm : s.draft.waiting.length + queue.length using Nat.strongRecOn
    generalizing s u queue with
  | _ m ih =>
    match queue, h with
    | [], h =>
      refine ⟨s, u, fun bound _ => ?_, fun bound _ => ?_, h, halike⟩ <;> cases bound <;> rfl
    | (k, i) :: queue, h =>
      rw [List.length_cons] at hm
      have hpos {bound : ℕ} (hbound : m ≤ bound) : ∃ b, bound = b + 1 ∧ m ≤ b + 1 :=
        ⟨bound - 1, by omega, by omega⟩
      have hchildren' := Draft.waitingFor_congr halike.isWaiting k
      cases hchildren : s.draft.waitingFor k with
      | nil =>
        obtain ⟨s', u', hloop, hloop', hdone, hsame⟩ :=
          ih _ (by omega) (h.drop hchildren) halike rfl
        refine ⟨s', u', fun bound hbound => ?_, fun bound hbound => ?_, hdone, hsame⟩ <;>
          obtain ⟨bound, rfl, hle⟩ := hpos hbound
        · rw [attachWaiting_bare hchildren]
          exact hloop bound (by omega)
        · rw [attachWaiting_bare (hchildren'.trans hchildren)]
          exact hloop' bound (by omega)
      | cons child others =>
        obtain ⟨-, parent, climb, hk, hheader, hcand⟩ := h.queued k i (by simp)
        have hf := family_of_waitingFor hchildren (Array.getElem?_eq_some_iff.mp hcand).1
        have hfound (j : Hash) (hj : j ∈ child :: others) : (s.draft.header? j).isSome := by
          rw [← hchildren, Draft.mem_waitingFor] at hj
          obtain ⟨y, hy, -⟩ := h.header?_of_waiting hd hj
          exact Option.isSome_of_eq_some hy
        obtain ⟨s₂, hturn, hgrown⟩ := attachWaiting_family queue hchildren hcand hheader hfound
        obtain ⟨u₂, hturn', hgrown'⟩ := attachWaiting_family (s := u) queue
          (hchildren'.trans hchildren) (halike.candidates ▸ hcand) (halike.header? ▸ hheader)
          (halike.header? ▸ hfound)
        rw [halike.candidates] at hturn' hgrown'
        have hfewer := hgrown.joined.length_waiting (fun j => (hf.children j).mp) hf.nodup_children
        have hrest : ((others.zipIdx s.candidates.size).reverse ++ (child, i) :: queue).Perm
            ((child, i) :: others.zipIdx s.candidates.size ++ queue) :=
          List.perm_middle.trans (((List.reverse_perm _).append_right queue).cons _)
        have hlen : s₂.draft.waiting.length +
            ((others.zipIdx s.candidates.size).reverse ++ (child, i) :: queue).length < m := by
          simp only [List.map_cons, List.length_cons, List.length_map, List.length_zipIdx,
            List.length_append, List.length_reverse] at hfewer ⊢
          omega
        obtain ⟨s', u', hloop, hloop', hdone, hsame⟩ := ih _ hlen
          (h.grow hd hf hk hgrown hrest hheader) (hgrown.alike halike hgrown') rfl
        refine ⟨s', u', fun bound hbound => ?_, fun bound hbound => ?_, hdone, hsame⟩ <;>
          obtain ⟨bound, rfl, hle⟩ := hpos hbound
        · rw [hturn]
          exact hloop bound (by omega)
        · rw [hturn']
          exact hloop' bound (by omega)

/-! ## All that waits -/

/-- All that waited under `t` is connected, and nothing else is changed. The slots in use hold one
candidate for each leaf under `t`. -/
structure Attached (d : Draft) (t : Hash) (x : Header) (chain : List Position)
    (cands : Array Candidate) (start : ℕ) (s : Contest) : Prop where
  frame : ∃ headers edges, s.draft = { d with headers, edges }
  connected : ∀ k h climb, Hangs d t x k h climb → s.draft.header? k = some h
  unchanged : ∀ k, (∀ h climb, ¬ Hangs d t x k h climb) → s.draft.header? k = d.header? k
  waiting : ∀ p k, s.draft.isWaiting ⟨p, k⟩ = true ↔
    d.isWaiting ⟨p, k⟩ = true ∧ ∀ h climb, ¬ Hangs d t x k h climb
  size : cands.size ≤ s.candidates.size
  others : ∀ i < cands.size, i ≠ start → s.candidates[i]? = cands[i]?
  used : ∀ i < s.candidates.size, i = start ∨ cands.size ≤ i → ∃ k h climb,
    Hangs d t x k h climb ∧ (∀ j, d.isWaiting ⟨k, j⟩ = false) ∧
      s.candidates[i]? = some ⟨h.isBanned, climb ++ chain⟩
  leaves : ∀ k h climb, Hangs d t x k h climb → (∀ j, d.isWaiting ⟨k, j⟩ = false) →
    ∃! i, (i = start ∨ cands.size ≤ i) ∧ s.candidates[i]? = some ⟨h.isBanned, climb ++ chain⟩

theorem Start.reached_iff (hd : Start d t x) : Reached d t x ⟨d, cands⟩ k ↔ k = t := by
  constructor
  · rintro ⟨h, climb, hk, hheader⟩
    have hconnected := hk.isDisconnected hd.connected
    cases hk with
    | root => rfl
    | child _ found _ waits _ =>
      have hsame := Option.some.inj (found.symm.trans hheader)
      rw [← hsame, waits] at hconnected
      simp at hconnected
  · rintro rfl
    exact ⟨x, [], .root, hd.found⟩

theorem Start.attaching (hd : Start d t x) (hslot : cands[start]? = some ⟨x.isBanned, chain⟩) :
    Attaching d t x chain cands start ⟨d, cands⟩ [(t, start)] := by
  have htip : Tip d t x chain ⟨d, cands⟩ start t := ⟨x, [], .root, hd.found, hslot⟩
  have hused {i : ℕ} (hi : i < cands.size) (h : i = start ∨ cands.size ≤ i) : i = start := by
    omega
  have hlt {i : ℕ} {k : Hash} (hi : Tip d t x chain ⟨d, cands⟩ i k) : i < cands.size := by
    obtain ⟨_, _, _, _, hcand⟩ := hi
    exact (Array.getElem?_eq_some_iff.mp hcand).1
  constructor
  case frame => exact ⟨_, _, rfl⟩
  case headers => exact fun k => .inl rfl
  case waiting =>
    intro p k
    rw [hd.reached_iff]
    refine ⟨fun hk => ⟨hk, ?_⟩, And.left⟩
    rintro rfl
    exact hd.not_waiting hk
  case closed =>
    intro p k hk hreached
    rw [hd.reached_iff] at hreached
    subst hreached
    exact absurd hk hd.not_waiting
  case size => exact le_rfl
  case others => exact fun i _ _ => rfl
  case used =>
    intro i hi h
    rw [hused hi h]
    exact ⟨t, htip⟩
  case distinct =>
    intro i j k hi hj hk hk'
    rw [hused (hlt hk) hi, hused (hlt hk') hj]
  case covered =>
    intro k hk
    rw [hd.reached_iff] at hk
    subst hk
    exact .inl ⟨start, .inl rfl, htip⟩
  case ends =>
    intro i k j hi hk hj hreached
    rw [hd.reached_iff] at hreached
    subst hreached
    exact hd.not_waiting hj
  case queued =>
    intro k i hmem
    obtain ⟨rfl, rfl⟩ := Prod.mk.inj (List.mem_singleton.mp hmem)
    exact ⟨.inl rfl, htip⟩
  case nodup => simp
  case pending =>
    intro p k hk hp
    rw [hd.reached_iff] at hp
    subst hp
    exact ⟨start, by simp⟩

theorem Attaching.reached_of_hangs (hd : Start d t x)
    (h : Attaching d t x chain cands start s []) {u : Header} (hk : Hangs d t x k u climb) :
    s.draft.header? k = some u := by
  have hreached : Reached d t x s k := by
    induction hk with
    | root =>
      rcases h.headers t with hsame | hreached
      · exact ⟨x, [], .root, hsame.trans hd.found⟩
      · exact hreached
    | @child k j v y climb under found named waits parent ih =>
      by_contra hnot
      have hbefore := (hd.edges ⟨k, j⟩).mpr ⟨y, found, named, waits, parent⟩
      have hwaiting := (h.waiting k j).mpr ⟨hbefore, hnot⟩
      obtain ⟨i, hmem⟩ := h.pending k j hwaiting ih
      simp at hmem
  obtain ⟨v, climb', hk', hheader⟩ := hreached
  rw [hheader, (hk.unique hd.found hd.connected hk').1]

theorem Attaching.attached (hd : Start d t x) (h : Attaching d t x chain cands start s []) :
    Attached d t x chain cands start s := by
  have hiff (k : Hash) : Reached d t x s k ↔ ∃ h climb, Hangs d t x k h climb := by
    constructor
    · rintro ⟨u, climb, hk, -⟩
      exact ⟨u, climb, hk⟩
    · rintro ⟨u, climb, hk⟩
      exact ⟨u, climb, hk, h.reached_of_hangs hd hk⟩
  have hchild {k j : Hash} (hk : Reached d t x s k) (hj : d.isWaiting ⟨k, j⟩ = true) :
      Reached d t x s j := by
    obtain ⟨y, hy, hname, hwaits, hparent⟩ := (hd.edges _).mp hj
    obtain ⟨u, climb, hk⟩ := (hiff k).mp hk
    exact (hiff j).mpr ⟨_, _, hk.child hy hname hwaits hparent⟩
  constructor
  case frame => exact h.frame
  case connected => exact fun k u climb hk => h.reached_of_hangs hd hk
  case unchanged =>
    intro k hk
    rcases h.headers k with hsame | hreached
    · exact hsame
    · obtain ⟨u, climb, hu⟩ := (hiff k).mp hreached
      exact absurd hu (hk u climb)
  case waiting =>
    intro p k
    rw [h.waiting, hiff]
    push Not
    rfl
  case size => exact h.size
  case others => exact h.others
  case used =>
    intro i hi hused
    obtain ⟨k, u, climb, hk, hheader, hcand⟩ := h.used i hi hused
    refine ⟨k, u, climb, hk, fun j => ?_, hcand⟩
    by_contra hj
    have hj := Bool.not_eq_false _ ▸ hj
    exact h.ends i k j hused ⟨u, climb, hk, hheader, hcand⟩ hj (hchild ⟨u, climb, hk, hheader⟩ hj)
  case leaves =>
    intro k u climb hk hleaf
    have hheader := h.reached_of_hangs hd hk
    rcases h.covered k ⟨u, climb, hk, hheader⟩ with
      ⟨i, hused, v, climb', hk', _, hcand⟩ | ⟨j, hj, -⟩
    · obtain ⟨rfl, rfl⟩ := hk.unique hd.found hd.connected hk'
      refine ⟨i, ⟨hused, hcand⟩, ?_⟩
      rintro m ⟨hm, hcand'⟩
      exact h.distinct m i k hm hused ⟨u, climb, hk, hheader, hcand'⟩ ⟨u, climb, hk, hheader, hcand⟩
    · rw [hleaf j] at hj
      simp at hj

theorem length_waiting_le (d : Draft) :
    d.waiting.length ≤ d.base.records.size + d.edges.added.size := by
  have hbase : d.base.waiting.length ≤ d.base.records.size := d.base.length_waiting_le
  have hfilter := List.length_filter_le (fun e => !d.edges.removed.contains e) d.base.waiting
  have hinsert := Std.TreeSet.size_insertMany_list_le (t := d.edges.added)
    (l := d.base.waiting.filter fun e => !d.edges.removed.contains e)
  rw [Draft.waiting, Changes.apply, Std.TreeSet.length_toList]
  omega

/-- The bound that attaching starts with. -/
def waitingBound (d : Draft) : ℕ := d.base.records.size + d.edges.added.size + 1

theorem perform_connectChildren {tip : Position} {before : Candidate}
    (hslot : s.candidates[start]? = some before) (htip : before.tip? = some tip) :
    s.perform (connectChildren start) =
      s.perform (attachWaiting (waitingBound s.draft) [(tip.hash, start)]) := by
  rw [connectChildren, perform_bind, perform_get]
  simp only [hslot, Option.bind_some, htip]
  rfl

/-- Attaching all that waits under the tip of a candidate succeeds, and does the same on a contest
that is alike. -/
theorem connectChildren_spec {tip : Position} (hd : Start d tip.hash x)
    (hslot : cands[start]? = some ⟨x.isBanned, chain⟩) (htip : chain.head? = some tip)
    {u : Contest} (halike : Alike ⟨d, cands⟩ u) :
    ∃ s' u', perform ⟨d, cands⟩ (connectChildren start) = (.ok (), s') ∧
      u.perform (connectChildren start) = (.ok (), u') ∧
      Attached d tip.hash x chain cands start s' ∧ s'.Alike u' := by
  have hbound := length_waiting_le d
  have hbound' := length_waiting_le u.draft
  rw [Draft.waiting_congr halike.isWaiting] at hbound'
  have hslot' : u.candidates[start]? = some ⟨x.isBanned, chain⟩ := by
    rw [halike.candidates]
    exact hslot
  have hends : Candidate.tip? ⟨x.isBanned, chain⟩ = some tip := htip
  obtain ⟨s', u', hloop, hloop', hdone, hsame⟩ :=
    attachWaiting_spec hd (hd.attaching hslot) halike
  refine ⟨s', u', ?_, ?_, hdone.attached hd, hsame⟩
  · rw [perform_connectChildren (s := ⟨d, cands⟩) hslot hends]
    exact hloop _ (Nat.add_le_add_right hbound 1)
  · rw [perform_connectChildren hslot' hends]
    exact hloop' _ (Nat.add_le_add_right hbound' 1)

end Contest

end HeaderChain
