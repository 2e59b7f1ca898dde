import HeaderChain.Draft
import HeaderChain.Proofs.Route

/-!
# The best chain of a draft

A store is continuous when its best chain has a block at every height from zero to the tip and
nowhere else. A draft over it is continuous when it cuts that chain at one of its blocks, and the
heights it stages follow the cut without a gap. Extending at the tip and cutting back to a block
of the chain keep this, and change the chain in no other way.
-/

namespace HeaderChain

/-- The best chain has blocks at the heights from zero to the tip and no others. -/
structure Store.Continuous (s : Store) : Prop where
  tip : 0 ≤ s.tipHeight
  bestAt : ∀ height, (s.bestAt? height).isSome ↔ 0 ≤ height ∧ height ≤ s.tipHeight

theorem Store.Continuous.bestAt?_of_lt {s : Store} (h : s.Continuous) {height : Height}
    (hlt : s.tipHeight < height) : s.bestAt? height = none := by
  rw [← Option.not_isSome_iff_eq_none, h.bestAt]
  lia

namespace Draft

/-- The height of what is left of the stored best chain. -/
def keptHeight (d : Draft) : Height := (d.ancestor.map Position.height).getD d.base.tipHeight

/-- The draft cuts the stored chain at one of its blocks below the tip, and the heights that it
stages follow that block. -/
structure Continuous (d : Draft) : Prop where
  base : d.base.Continuous
  ancestor : ∀ p, d.ancestor = some p →
    0 ≤ p.height ∧ p.height < d.base.tipHeight ∧ d.base.bestAt? p.height = some p.hash
  staged : ∀ height, height ∈ d.best ↔ d.keptHeight < height ∧ height ≤ d.tipHeight

/-- The heights that the draft stages follow what is left of the stored chain without a gap. -/
def Contiguous (d : Draft) : Prop :=
  ∀ height, height ∈ d.best ↔ d.keptHeight < height ∧ height ≤ d.tipHeight

variable {d : Draft} {p : Position} {height : Height}

theorem onBest_iff : d.onBest p = true ↔ d.bestAt? p.height = some p.hash := by
  simp [onBest]

@[simp] theorem keptHeight_mk (s : Store) : ({ base := s } : Draft).keptHeight = s.tipHeight := rfl

theorem contiguous_mk (s : Store) : ({ base := s } : Draft).Contiguous := by
  intro height
  rw [keptHeight_mk, tipHeight_mk]
  simp

theorem continuous_mk {s : Store} (h : s.Continuous) : ({ base := s } : Draft).Continuous := by
  constructor
  · exact h
  · simp
  · exact contiguous_mk s

theorem mem_best {hash : Hash} (h : d.best[height]? = some hash) : height ∈ d.best := by
  rw [Std.TreeMap.mem_iff_isSome_getElem?, h]
  rfl

theorem maxKey?_of_interval {m : Std.TreeMap Height Hash} {a b : Height}
    (h : ∀ x, x ∈ m ↔ a < x ∧ x ≤ b) : m.maxKey?.getD a = max a b := by
  rcases lt_or_ge a b with hab | hab
  · have hmax : m.maxKey? = some b := by
      rw [Std.TreeMap.maxKey?_eq_some_iff_mem_and_forall]
      exact ⟨(h b).mpr ⟨hab, le_rfl⟩, fun x hx => Std.isLE_compare.mpr ((h x).mp hx).2⟩
    rw [hmax, max_eq_right hab.le]
    rfl
  · have hnone : m.maxKey? = none := by
      rw [Std.TreeMap.maxKey?_eq_none_iff, Std.TreeMap.isEmpty_iff_forall_not_mem]
      intro x hx
      have := (h x).mp hx
      lia
    rw [hnone, max_eq_left hab]
    rfl

theorem tipHeight_eq (d : Draft) : d.tipHeight = d.best.maxKey?.getD d.keptHeight := by
  unfold tipHeight keptHeight
  cases d.best.maxKey? <;> cases d.ancestor <;> rfl

theorem keptHeight_le_base (h : ∀ p, d.ancestor = some p → p.height ≤ d.base.tipHeight) :
    d.keptHeight ≤ d.base.tipHeight := by
  unfold keptHeight
  cases ha : d.ancestor with
  | none => exact le_rfl
  | some p => exact h p ha

theorem keptHeight_nonneg (htip : 0 ≤ d.base.tipHeight)
    (h : ∀ p, d.ancestor = some p → 0 ≤ p.height) : 0 ≤ d.keptHeight := by
  unfold keptHeight
  cases ha : d.ancestor with
  | none => exact htip
  | some p => exact h p ha

theorem keptHeight_le_tipHeight (h : ∀ height ∈ d.best, d.keptHeight < height) :
    d.keptHeight ≤ d.tipHeight := by
  rw [tipHeight_eq d]
  cases hm : d.best.maxKey? with
  | none => exact le_rfl
  | some height => exact (h height (Std.TreeMap.maxKey?_eq_some_iff_mem_and_forall.mp hm).1).le

theorem Continuous.contiguous (h : d.Continuous) : d.Contiguous := h.staged

theorem Contiguous.keptHeight_le (h : d.Contiguous) : d.keptHeight ≤ d.tipHeight :=
  keptHeight_le_tipHeight fun height hheight => ((h height).mp hheight).1

theorem Continuous.keptHeight_le (h : d.Continuous) :
    0 ≤ d.keptHeight ∧ d.keptHeight ≤ d.tipHeight :=
  ⟨keptHeight_nonneg h.base.tip fun p hp => (h.ancestor p hp).1, h.contiguous.keptHeight_le⟩

theorem Continuous.keptHeight_le_base (h : d.Continuous) : d.keptHeight ≤ d.base.tipHeight :=
  Draft.keptHeight_le_base fun p hp => (h.ancestor p hp).2.1.le

/-- A draft shows what it stages, and what is left of the stored chain otherwise. -/
theorem bestAt?_of_base
    (hbase : ∀ height, d.base.tipHeight < height → d.base.bestAt? height = none) :
    d.bestAt? height =
      match d.best[height]? with
      | some hash => some hash
      | none => if height ≤ d.keptHeight then d.base.bestAt? height else none := by
  unfold bestAt?
  cases d.best[height]? with
  | some hash => rfl
  | none =>
    cases ha : d.ancestor with
    | none =>
      have hkept : d.keptHeight = d.base.tipHeight := by simp [keptHeight, ha]
      dsimp only
      split_ifs with hle
      · rfl
      · exact hbase height (by lia)
    | some p =>
      have hkept : d.keptHeight = p.height := by simp [keptHeight, ha]
      dsimp only
      rw [hkept]
      split_ifs <;> first | rfl | lia

/-- Below the cut a draft shows the stored chain, above it what is staged. -/
theorem Contiguous.bestAt?_eq (h : d.Contiguous)
    (hbase : ∀ height, d.base.tipHeight < height → d.base.bestAt? height = none) :
    d.bestAt? height =
      if height ≤ d.keptHeight then d.base.bestAt? height else d.best[height]? := by
  rw [bestAt?_of_base hbase]
  cases hs : d.best[height]? with
  | some hash =>
    have hlt := ((h height).mp (mem_best hs)).1
    exact (if_neg (by lia)).symm
  | none => rfl

theorem Continuous.bestAt?_eq (h : d.Continuous) :
    d.bestAt? height =
      if height ≤ d.keptHeight then d.base.bestAt? height else d.best[height]? :=
  h.contiguous.bestAt?_eq fun _ => h.base.bestAt?_of_lt

theorem Continuous.isSome_bestAt? (h : d.Continuous) :
    (d.bestAt? height).isSome ↔ 0 ≤ height ∧ height ≤ d.tipHeight := by
  have hle := h.keptHeight_le
  have hkept := h.keptHeight_le_base
  rw [h.bestAt?_eq]
  by_cases hk : height ≤ d.keptHeight
  · rw [if_pos hk, h.base.bestAt]
    lia
  · rw [if_neg hk, ← Std.TreeMap.mem_iff_isSome_getElem?, h.staged]
    lia

/-! ## Extending -/

theorem Contiguous.extend (h : d.Contiguous) (hp : p.height = d.tipHeight + 1) :
    (d.extend p).Contiguous ∧ (d.extend p).tipHeight = p.height := by
  have hle := h.keptHeight_le
  have hstaged (x : Height) : x ∈ (d.extend p).best ↔ d.keptHeight < x ∧ x ≤ p.height := by
    simp only [Draft.extend, Std.TreeMap.mem_insert, compare_eq_iff_eq, h x]
    lia
  have htip : (d.extend p).tipHeight = p.height := by
    rw [tipHeight_eq]
    have := maxKey?_of_interval hstaged
    change (d.extend p).best.maxKey?.getD d.keptHeight = _
    rw [this]
    lia
  refine ⟨fun x => ?_, htip⟩
  rw [htip]
  exact hstaged x

theorem Continuous.extend (h : d.Continuous) (hp : p.height = d.tipHeight + 1) :
    (d.extend p).Continuous ∧ (d.extend p).tipHeight = p.height := by
  obtain ⟨hstaged, htip⟩ := h.contiguous.extend hp
  exact ⟨⟨h.base, h.ancestor, hstaged⟩, htip⟩

/-! ## Cutting back -/

theorem keptHeight_rewind (d : Draft) (p : Position) :
    (d.rewind p).keptHeight = min p.height d.keptHeight := by
  change ((if p.height < d.keptHeight then some p else d.ancestor).map
    Position.height).getD d.base.tipHeight = _
  split_ifs with h
  · rw [min_eq_left h.le]
    rfl
  · rw [min_eq_right (not_lt.mp h)]
    rfl

theorem getElem?_best_rewind (d : Draft) (p : Position) (height : Height) :
    (d.rewind p).best[height]? = if height ≤ p.height then d.best[height]? else none := by
  change (d.best.filter fun height _ => decide (height ≤ p.height))[height]? = _
  rw [Std.TreeMap.getElem?_filter']
  split_ifs with h <;> cases d.best[height]? <;> simp [h]

theorem Contiguous.rewind (h : d.Contiguous) (hp : p.height ≤ d.tipHeight) :
    (d.rewind p).Contiguous ∧ (d.rewind p).tipHeight = p.height := by
  have hkept := keptHeight_rewind d p
  have hstaged (x : Height) :
      x ∈ (d.rewind p).best ↔ (d.rewind p).keptHeight < x ∧ x ≤ p.height := by
    rw [Std.TreeMap.mem_iff_isSome_getElem?, getElem?_best_rewind, hkept]
    split_ifs with hx
    · rw [← Std.TreeMap.mem_iff_isSome_getElem?, h x]
      lia
    · simp
      lia
  have htip : (d.rewind p).tipHeight = p.height := by
    rw [tipHeight_eq, maxKey?_of_interval hstaged, hkept]
    lia
  refine ⟨fun x => ?_, htip⟩
  rw [htip]
  exact hstaged x

theorem Continuous.rewind (h : d.Continuous) (hp : d.bestAt? p.height = some p.hash) :
    (d.rewind p).Continuous ∧ (d.rewind p).tipHeight = p.height := by
  have hin := h.isSome_bestAt?.mp (Option.isSome_of_eq_some hp)
  obtain ⟨hstaged, htip⟩ := h.contiguous.rewind hin.2
  refine ⟨⟨h.base, ?_, hstaged⟩, htip⟩
  intro q hq
  change (if p.height < d.keptHeight then some p else d.ancestor) = some q at hq
  split_ifs at hq with hlt
  · cases hq
    have hbase : d.base.bestAt? p.height = some p.hash := by
      rw [h.bestAt?_eq, if_pos hlt.le] at hp
      exact hp
    exact ⟨hin.1, lt_of_lt_of_le hlt h.keptHeight_le_base, hbase⟩
  · exact h.ancestor q hq

theorem Contiguous.bestAt?_rewind (h : d.Contiguous)
    (hbase : ∀ height, d.base.tipHeight < height → d.base.bestAt? height = none)
    (hp : p.height ≤ d.tipHeight) :
    (d.rewind p).bestAt? height = if height ≤ p.height then d.bestAt? height else none := by
  rw [(h.rewind hp).1.bestAt?_eq hbase, h.bestAt?_eq hbase, keptHeight_rewind,
    getElem?_best_rewind]
  change (if height ≤ min p.height d.keptHeight then d.base.bestAt? height else _) = _
  split_ifs <;> first | rfl | lia

theorem Continuous.bestAt?_rewind (h : d.Continuous) (hp : d.bestAt? p.height = some p.hash) :
    (d.rewind p).bestAt? height = if height ≤ p.height then d.bestAt? height else none := by
  have hin := h.isSome_bestAt?.mp (Option.isSome_of_eq_some hp)
  exact h.contiguous.bestAt?_rewind (fun _ => h.base.bestAt?_of_lt) hin.2

/-! ## Best chains along routes -/

/-- The best chain of the draft consists of the positions of a route. -/
structure Follows (d : Draft) (b : List Link) : Prop where
  continuous : d.Continuous
  bestAt : ∀ height hash, d.bestAt? height = some hash ↔ ⟨height, hash⟩ ∈ positions b

namespace Follows

variable {b s : List Link} {x : Link}

theorem onBest_iff (h : d.Follows b) : d.onBest p = true ↔ p ∈ positions b := by
  rw [Draft.onBest_iff]
  exact h.bestAt p.height p.hash

theorem tipHeight_eq (h : d.Follows (x :: b)) : d.tipHeight = b.length := by
  have hiff (height : Height) : height ≤ d.tipHeight ∧ 0 ≤ height ↔
      0 ≤ height ∧ height ≤ b.length := by
    rw [and_comm, ← h.continuous.isSome_bestAt?, Option.isSome_iff_exists]
    constructor
    · rintro ⟨hash, hhash⟩
      have := height_lt_of_mem_positions ((h.bestAt _ _).mp hhash)
      simp only [List.length_cons, Nat.cast_add] at this
      lia
    · rintro ⟨h0, hlen⟩
      obtain ⟨n, rfl⟩ := Int.eq_ofNat_of_zero_le h0
      obtain ⟨y, s, hs, rfl⟩ := exists_suffix_of_lt (r := x :: b) (n := n) (by simp; lia)
      exact ⟨y.hash, (h.bestAt _ _).mpr (mem_positions.mpr ⟨y, s, hs, rfl⟩)⟩
  have htip := h.continuous.keptHeight_le
  have h1 := (hiff d.tipHeight).mp ⟨le_rfl, htip.1.trans htip.2⟩
  have h2 := (hiff b.length).mpr ⟨Int.natCast_nonneg _, le_rfl⟩
  lia

theorem tip_eq (h : d.Follows (x :: b)) : d.tip = .ok ⟨b.length, x.hash⟩ := by
  have hbest := (h.bestAt b.length x.hash).mpr (by simp [positions])
  simp [tip, h.tipHeight_eq, hbest]

theorem extend (h : d.Follows (y :: b)) :
    (d.extend ⟨(y :: b).length, x.hash⟩).Follows (x :: y :: b) := by
  have hheight : ((y :: b).length : Height) = d.tipHeight + 1 := by
    rw [h.tipHeight_eq]
    simp
  refine ⟨(h.continuous.extend hheight).1, fun height hash => ?_⟩
  rw [bestAt?_extend, positions, List.mem_cons, Position.mk.injEq]
  by_cases heq : ((y :: b).length : Height) = height
  · have hnot : ⟨height, hash⟩ ∉ positions (y :: b) := by
      intro hmem
      have := height_lt_of_mem_positions hmem
      lia
    rw [if_pos heq]
    simp only [hnot, or_false, Option.some.injEq, heq, true_and, eq_comm]
  · rw [if_neg heq, h.bestAt]
    simp only [Ne.symm heq, false_and, false_or]

theorem rewind (h : d.Follows b) (hs : x :: s <:+ b) :
    (d.rewind ⟨s.length, x.hash⟩).Follows (x :: s) := by
  have hp : d.bestAt? s.length = some x.hash :=
    (h.bestAt _ _).mpr (mem_positions.mpr ⟨x, s, hs, rfl⟩)
  refine ⟨(h.continuous.rewind (p := ⟨s.length, x.hash⟩) hp).1, fun height hash => ?_⟩
  rw [h.continuous.bestAt?_rewind (p := ⟨s.length, x.hash⟩) hp]
  constructor
  · intro hb
    split_ifs at hb with hle
    obtain ⟨y, t, ht, heq⟩ := mem_positions.mp ((h.bestAt _ _).mp hb)
    obtain ⟨rfl, rfl⟩ := Position.mk.inj heq
    have hlen : (y :: t).length ≤ (x :: s).length := by simpa using hle
    exact mem_positions.mpr ⟨y, t, List.suffix_of_suffix_length_le ht hs hlen, rfl⟩
  · intro hmem
    have hle := (height_lt_of_mem_positions hmem).2
    obtain ⟨y, t, ht, heq⟩ := mem_positions.mp hmem
    rw [if_pos (by simp at hle; omega), h.bestAt, heq]
    exact mem_positions.mpr ⟨y, t, ht.trans hs, rfl⟩

/-- Only the store under the draft and what it stages of the best chain matter. -/
theorem congr {e : Draft} (h : d.Follows b) (hbase : e.base = d.base) (hbest : e.best = d.best)
    (hancestor : e.ancestor = d.ancestor) : e.Follows b := by
  obtain ⟨⟨hstore, hcut, hstaged⟩, hat⟩ := h
  refine ⟨⟨hbase ▸ hstore, ?_, ?_⟩, ?_⟩
  · rwa [hancestor, hbase]
  · simpa only [keptHeight, tipHeight, hbase, hbest, hancestor] using hstaged
  · simpa only [bestAt?, hbase, hbest, hancestor] using hat

end Follows

end Draft

end HeaderChain
