import HeaderChain.Proofs.Adoption

/-!
# Recording tips

Tips off the best chain become siblings, and of those that were just given the ones that another
sibling descends from are dropped. A walk down from the other sibling tells that, because a walk
that stops at the height of an ancestor meets it there.
-/

namespace HeaderChain

/-- The header `a` is `b` or one of its ancestors. -/
def Ancestor (f : Forest) (g a b : Hash) : Prop := ∃ r s, Route f g a r ∧ Route f g b s ∧ r <:+ s

def Located (f : Forest) (g : Hash) (p : Position) : Prop :=
  ∃ x s, Route f g p.hash (x :: s) ∧ p.height = s.length

namespace Draft

variable {d e : Draft} {g k a b : Hash} {c p tip : Position} {tips : List Position}
variable {siblings : List Hash} {x : Link} {s r : List Link}

/-- Another one of the siblings descends from the header. -/
def Extended (d : Draft) (g : Hash) (siblings : List Hash) (k : Hash) : Prop :=
  ∃ m ∈ siblings, m ≠ k ∧ Ancestor (forestOf d.header?) g k m

/-! ## Drafts that differ in siblings only -/

def SameChain (d e : Draft) : Prop := ∃ siblings, e = { d with siblings }

theorem SameChain.refl (d : Draft) : d.SameChain d := ⟨d.siblings, rfl⟩

theorem SameChain.trans {d₁ d₂ d₃ : Draft} (h₁ : d₁.SameChain d₂) (h₂ : d₂.SameChain d₃) :
    d₁.SameChain d₃ := by
  obtain ⟨_, rfl⟩ := h₁
  obtain ⟨s, rfl⟩ := h₂
  exact ⟨s, rfl⟩

theorem SameChain.sameTree (h : d.SameChain e) : d.SameTree e := by
  obtain ⟨_, rfl⟩ := h
  exact ⟨rfl, rfl, rfl, rfl⟩

theorem SameChain.follows (h : d.SameChain e) (hd : d.Follows r) : e.Follows r := by
  obtain ⟨_, rfl⟩ := h
  exact hd.congr rfl rfl rfl

theorem SameChain.ancestor (h : d.SameChain e) : e.ancestor = d.ancestor := by
  obtain ⟨_, rfl⟩ := h
  rfl

/-- Siblings do not matter to where the best chain is cut. -/
theorem SameChain.spares {d₀ : Draft} {b : List Link} (h : d.SameChain e) (hd : d₀.Spares b r d) :
    d₀.Spares b r e := by
  unfold Spares
  rw [h.ancestor]
  exact hd

theorem SameChain.onBest (h : d.SameChain e) : e.onBest p = d.onBest p := by
  obtain ⟨_, rfl⟩ := h
  rfl

theorem sameChain_addSibling (d : Draft) (k : Hash) : d.SameChain (d.addSibling k) := ⟨_, rfl⟩

theorem sameChain_removeSibling (d : Draft) (k : Hash) : d.SameChain (d.removeSibling k) := ⟨_, rfl⟩

/-! ## Descent -/

theorem descends_spec (ht : Exact d.header? g c) (hb : Route (forestOf d.header?) g b r)
    (hp : Route (forestOf d.header?) g p.hash (x :: s)) (hheight : p.height = s.length) :
    d.descends b p = .ok (decide (x :: s <:+ r)) := by
  obtain ⟨y, r, rfl⟩ := List.exists_cons_of_ne_nil hb.ne_nil
  obtain ⟨w, hw, ⟨up, base, z, hsplit, -, hlast, hmet, habove⟩⟩ :=
    trace_route ht (fun h => h.height ≤ p.height || h.isDisconnected)
      (by simp [hheight]) hb
  have hz : Route (forestOf d.header?) g z.hash (z :: base) :=
    hb.of_suffix ht.named ⟨_, hsplit.symm⟩
  have hbase : base.length ≤ s.length := by
    rw [hlast] at hmet
    simpa [hheight] using hmet
  have hiff : z.hash = p.hash ↔ x :: s <:+ y :: r := by
    constructor
    · intro heq
      rw [heq] at hz
      rw [hp.unique hz, hsplit]
      exact List.suffix_append _ _
    · intro hs
      have hlen : s.length ≤ base.length := by
        by_contra hlt
        have := habove x s hs (not_le.mp hlt)
        simp [hheight] at this
      have hcons : z :: base = x :: s :=
        suffix_unique (r := y :: r) ⟨_, hsplit.symm⟩ hs (by simp; omega)
      cases hcons
      exact (hp.hash_eq ht.named)
  simp only [descends, header_eq (ht.placed hb), bind, Except.bind, hw, hlast, height_placed,
    hash_placed]
  simp only [hheight, Nat.cast_le, hbase, decide_true, Bool.true_and, pure, Except.pure]
  rw [beq_eq_decide, decide_eq_decide.mpr hiff]

theorem anyM_eq_ok {α ε : Type} {p : α → Except ε Bool} {q : α → Prop} {l : List α}
    (h : ∀ a ∈ l, ∃ b, p a = .ok b ∧ (b = true ↔ q a)) :
    ∃ b, l.anyM p = .ok b ∧ (b = true ↔ ∃ a ∈ l, q a) := by
  induction l with
  | nil => exact ⟨false, rfl, by simp⟩
  | cons a l ih =>
    obtain ⟨b, hb, hq⟩ := h a (by simp)
    obtain ⟨b', hb', hq'⟩ := ih fun x hx => h x (List.mem_cons_of_mem a hx)
    rw [List.anyM, hb]
    cases b with
    | true => exact ⟨true, rfl, by simpa using .inl (hq.mp rfl)⟩
    | false => exact ⟨b', hb', by simp [hq', ← hq]⟩

theorem isExtended_spec (ht : Exact d.header? g c)
    (hs : ∀ k ∈ siblings, ∃ r, Route (forestOf d.header?) g k r)
    (hp : Located (forestOf d.header?) g p) :
    ∃ b, d.isExtended siblings p = .ok b ∧ (b = true ↔ d.Extended g siblings p.hash) := by
  obtain ⟨x, s, hp, hheight⟩ := hp
  refine anyM_eq_ok fun m hm => ?_
  obtain ⟨r, hr⟩ := hs m hm
  by_cases heq : m = p.hash
  · exact ⟨false, by simp [heq]; rfl, by simp [heq]⟩
  · refine ⟨decide (x :: s <:+ r), ?_, ?_⟩
    · rw [if_neg heq, descends_spec ht hr hp hheight]
    · rw [decide_eq_true_eq]
      constructor
      · exact fun h => ⟨heq, _, _, hp, hr, h⟩
      · rintro ⟨-, _, _, hp', hr', h⟩
        rwa [hp.unique hp', hr.unique hr']

/-! ## Recording -/

theorem sameChain_addTip (d : Draft) (tip : Position) : d.SameChain (d.addTip tip) := by
  rw [addTip]
  split_ifs
  · exact .refl d
  · exact d.sameChain_addSibling tip.hash

theorem isSibling_addTip : (d.addTip tip).isSibling k = true ↔
    d.isSibling k = true ∨ tip.hash = k ∧ d.onBest tip = false := by
  rw [addTip]
  split_ifs with h
  · refine ⟨.inl, ?_⟩
    rintro (hk | ⟨rfl, hoff⟩)
    · exact hk
    · simpa [hoff] using h
  · simp only [isSibling_addSibling, Bool.or_eq_true, decide_eq_true_eq]
    simp only [Bool.or_eq_true, not_or, Bool.not_eq_true] at h
    tauto

theorem addTips_spec (d : Draft) (tips : List Position) :
    d.SameChain (tips.foldl addTip d) ∧ ∀ k, (tips.foldl addTip d).isSibling k = true ↔
      d.isSibling k = true ∨ ∃ tip ∈ tips, tip.hash = k ∧ d.onBest tip = false := by
  induction tips generalizing d with
  | nil => exact ⟨.refl d, by simp⟩
  | cons tip tips ih =>
    obtain ⟨hsame, hsib⟩ := ih (d.addTip tip)
    refine ⟨(sameChain_addTip d tip).trans hsame, fun k => ?_⟩
    simp only [List.foldl_cons, hsib, isSibling_addTip, (sameChain_addTip d tip).onBest,
      List.exists_mem_cons_iff, or_assoc]

theorem dropExtended_spec (ht : Exact d.header? g c)
    (hs : ∀ k ∈ siblings, ∃ r, Route (forestOf d.header?) g k r)
    (hp : Located (forestOf d.header?) g p) :
    ∃ e, dropExtended siblings d p = .ok e ∧ d.SameChain e ∧ ∀ k, e.isSibling k = true ↔
      d.isSibling k = true ∧ ¬ (p.hash = k ∧ k ∈ siblings ∧ d.Extended g siblings k) := by
  obtain ⟨b, hb, hext⟩ := isExtended_spec ht hs hp
  by_cases hdrop : p.hash ∈ siblings ∧ b = true
  · obtain ⟨hmem, rfl⟩ := hdrop
    refine ⟨d.removeSibling p.hash, ?_, d.sameChain_removeSibling _, fun k => ?_⟩
    · simp [dropExtended, hmem, hb, bind, Except.bind]
      rfl
    · simp only [isSibling_removeSibling, Bool.and_eq_true, Bool.not_eq_true',
        decide_eq_false_iff_not]
      constructor
      · exact fun ⟨hne, hk⟩ => ⟨hk, fun h => hne h.1⟩
      · refine fun ⟨hk, hno⟩ => ⟨?_, hk⟩
        rintro rfl
        exact hno ⟨rfl, hmem, hext.mp rfl⟩
  · refine ⟨d, ?_, .refl d, fun k => ⟨fun hk => ⟨hk, ?_⟩, And.left⟩⟩
    · by_cases hmem : p.hash ∈ siblings
      · have hfalse : b = false := by simpa [hmem] using hdrop
        simp [dropExtended, hmem, hb, hfalse, bind, Except.bind]
        rfl
      · simp [dropExtended, hmem]
        rfl
    · rintro ⟨rfl, hmem, h⟩
      exact hdrop ⟨hmem, hext.mpr h⟩

theorem dropAll_spec (ht : Exact d.header? g c)
    (hs : ∀ k ∈ siblings, ∃ r, Route (forestOf d.header?) g k r)
    (htips : ∀ p ∈ tips, Located (forestOf d.header?) g p) :
    ∃ e, tips.foldlM (dropExtended siblings) d = .ok e ∧ d.SameChain e ∧
      ∀ k, e.isSibling k = true ↔ d.isSibling k = true ∧
        ¬ ((∃ p ∈ tips, p.hash = k) ∧ k ∈ siblings ∧ d.Extended g siblings k) := by
  induction tips generalizing d with
  | nil => exact ⟨d, rfl, .refl d, by simp⟩
  | cons p tips ih =>
    obtain ⟨d', hd', hsame, hsib⟩ := dropExtended_spec ht hs (htips p (by simp))
    have hheader := hsame.sameTree.header?
    obtain ⟨e, he, hsame', hsib'⟩ := @ih d' (by rwa [hheader]) (by rwa [hheader])
      (by simpa only [hheader] using fun q hq => htips q (List.mem_cons_of_mem p hq))
    refine ⟨e, ?_, hsame.trans hsame', fun k => ?_⟩
    · simpa only [List.foldlM_cons, hd', bind, Except.bind] using he
    · have hextended : d'.Extended g siblings k ↔ d.Extended g siblings k := by
        rw [Extended, Extended, hheader]
      rw [hsib', hsib, hextended]
      rw [and_assoc, ← not_or, ← or_and_right, List.exists_mem_cons_iff]

/-- The siblings before the drop, once the tips off the best chain are among them. -/
def Recorded (d : Draft) (tips : List Position) (k : Hash) : Prop :=
  d.isSibling k = true ∨ ∃ tip ∈ tips, tip.hash = k ∧ d.onBest tip = false

/-- What is recorded are the siblings and the tips off the best chain, but no tip that another one
of these descends from. -/
theorem recordSiblings_spec (ht : Exact d.header? g c)
    (hs : ∀ k, d.isSibling k = true → ∃ r, Route (forestOf d.header?) g k r)
    (htips : ∀ p ∈ tips, Located (forestOf d.header?) g p) :
    ∃ e, d.recordSiblings tips = .ok e ∧ d.SameChain e ∧
      ∀ k, e.isSibling k = true ↔ d.Recorded tips k ∧ ¬ ((∃ p ∈ tips, p.hash = k) ∧
        ∃ m, d.Recorded tips m ∧ m ≠ k ∧ Ancestor (forestOf d.header?) g k m) := by
  obtain ⟨hsame, hsib⟩ := addTips_spec d tips
  have hheader := hsame.sameTree.header?
  have hrecorded : ∀ k, k ∈ (tips.foldl addTip d).allSiblings ↔ d.Recorded tips k := by
    intro k
    rw [mem_allSiblings, hsib, Recorded]
  have hroutes : ∀ k ∈ (tips.foldl addTip d).allSiblings,
      ∃ r, Route (forestOf (tips.foldl addTip d).header?) g k r := by
    intro k hk
    rw [hheader]
    rcases (hrecorded k).mp hk with hk | ⟨tip, hmem, rfl, -⟩
    · exact hs k hk
    · obtain ⟨x, s, hr, -⟩ := htips tip hmem
      exact ⟨_, hr⟩
  obtain ⟨e, he, hsame', hsib'⟩ := dropAll_spec (d := tips.foldl addTip d) (by rwa [hheader])
    hroutes (by simpa only [hheader] using htips)
  refine ⟨e, he, hsame.trans hsame', fun k => ?_⟩
  rw [hsib', hsib, Extended, hheader]
  simp only [hrecorded]
  exact and_congr_right fun hk => by rw [Recorded] at *; simp [hk]

end Draft

end HeaderChain
