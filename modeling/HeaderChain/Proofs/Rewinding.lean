import HeaderChain.Proofs.Pinning

/-!
# Cutting the best chain of a draft

A draft is extended at its tip and cut back to positions of its best chain, any number of times. The
stored chain is kept up to the lowest position below its tip that the draft was cut back to, and the
heights that are staged follow that position without a gap. So cutting back leaves the best chain
below the cut as it is and takes away all above it.
-/

namespace HeaderChain

/-- The lowest of the positions, if it is below the tip, or nothing if none of them is. -/
def Store.LowestBelow (s : Store) (ps : List Position) : Option Position → Prop
  | none => ∀ p ∈ ps, s.tipHeight ≤ p.height
  | some low => low ∈ ps ∧ low.height < s.tipHeight ∧ ∀ p ∈ ps, low.height ≤ p.height

namespace Draft

/-- Drafts over a store that come from extending the best chain at its tip and cutting it back to
positions of it, with those positions. -/
inductive Rewound (s : Store) : List Position → Draft → Prop
  | start : Rewound s [] { base := s }
  | extend {ps : List Position} {d : Draft} (h : Rewound s ps d) (hash : Hash) :
    Rewound s ps (d.extend ⟨d.tipHeight + 1, hash⟩)
  | rewind {ps : List Position} {d : Draft} {p : Position} (h : Rewound s ps d)
    (hp : d.onBest p = true) : Rewound s (ps ++ [p]) (d.rewind p)

/-- How a draft stands over a store after it was cut back to positions: it keeps the stored chain up
to the lowest one below the tip, which is a block of that chain, and what it stages follows. -/
structure CutAt (s : Store) (ps : List Position) (d : Draft) : Prop where
  base : d.base = s
  ancestor : s.LowestBelow ps d.ancestor
  onBest : ∀ p, d.ancestor = some p → s.onBest p = true
  contiguous : d.Contiguous

end Draft

variable {s : Store} {ps : List Position} {d : Draft} {p : Position} {height : Height}

/-- A further position is the lowest one when it is below the one before, or below the tip if there
was none. -/
theorem Store.LowestBelow.concat {low : Option Position} (h : s.LowestBelow ps low) (p : Position) :
    s.LowestBelow (ps ++ [p])
      (if p.height < (low.map Position.height).getD s.tipHeight then some p else low) := by
  have hall {P : Position → Prop} : (∀ q ∈ ps ++ [p], P q) ↔ (∀ q ∈ ps, P q) ∧ P p := by
    rw [List.forall_mem_append, List.forall_mem_singleton]
  cases low with
  | none =>
    simp only [Option.map_none, Option.getD_none]
    split_ifs with hlt
    · exact ⟨by simp, hlt, hall.mpr ⟨fun q hq => hlt.le.trans (h q hq), le_rfl⟩⟩
    · exact hall.mpr ⟨h, not_lt.mp hlt⟩
  | some low =>
    obtain ⟨hmem, hbelow, hleast⟩ := h
    simp only [Option.map_some, Option.getD_some]
    split_ifs with hlt
    · exact ⟨by simp, hlt.trans hbelow, hall.mpr ⟨fun q hq => hlt.le.trans (hleast q hq), le_rfl⟩⟩
    · exact ⟨List.mem_append_left _ hmem, hbelow, hall.mpr ⟨hleast, not_lt.mp hlt⟩⟩

namespace Draft

/-! ## Steps -/

theorem CutAt.bestAt?_eq (h : CutAt s ps d) (hs : s.Indexed) : d.bestAt? height =
    if height ≤ d.keptHeight then s.bestAt? height else d.best[height]? := by
  have hbase := h.base
  subst hbase
  exact h.contiguous.bestAt?_eq fun _ => hs.bestAt?_of_lt

theorem CutAt.le_tipHeight (h : CutAt s ps d) (hs : s.Indexed) (hp : d.onBest p = true) :
    p.height ≤ d.tipHeight := by
  have hkept := h.contiguous.keptHeight_le
  rw [onBest_iff, h.bestAt?_eq hs] at hp
  split_ifs at hp with hle
  · lia
  · exact ((h.contiguous p.height).mp (mem_best hp)).2

theorem cutAt_start (s : Store) : CutAt s [] { base := s } where
  base := rfl
  ancestor := by simp [Store.LowestBelow]
  onBest := by simp
  contiguous := contiguous_mk s

theorem CutAt.extend (h : CutAt s ps d) (hash : Hash) :
    CutAt s ps (d.extend ⟨d.tipHeight + 1, hash⟩) where
  base := h.base
  ancestor := h.ancestor
  onBest := h.onBest
  contiguous := (h.contiguous.extend rfl).1

/-- A cut below what is kept of the stored chain is at one of its blocks. -/
theorem CutAt.rewind (h : CutAt s ps d) (hs : s.Indexed) (hp : d.onBest p = true) :
    CutAt s (ps ++ [p]) (d.rewind p) where
  base := h.base
  ancestor := by
    have hlow := h.ancestor.concat p
    rw [← h.base] at hlow ⊢
    exact hlow
  onBest := by
    intro q hq
    change (if p.height < d.keptHeight then some p else d.ancestor) = some q at hq
    split_ifs at hq with hlt
    · cases hq
      rw [Draft.onBest_iff, h.bestAt?_eq hs, if_pos hlt.le] at hp
      exact Store.onBest_iff.mpr hp
    · exact h.onBest q hq
  contiguous := (h.contiguous.rewind (h.le_tipHeight hs hp)).1

theorem Rewound.cutAt (h : Rewound s ps d) (hs : s.Indexed) : CutAt s ps d := by
  induction h with
  | start => exact cutAt_start s
  | extend h hash ih => exact ih.extend hash
  | rewind h hp ih => exact ih.rewind hs hp

/-! ## Cutting back -/

/-- Cutting back to a position of the best chain leaves the chain up to it and nothing above it, so
that it is the tip. The stored chain is cut at the lowest position below its tip that the draft was
ever cut back to, which is a block of that chain, or not at all, and the heights that are staged are
those from there up to the position. -/
theorem rewind_truncates (s : Store) (ps : List Position) (d : Draft) (p : Position)
    (hs : s.Indexed) (hd : Rewound s ps d) (hp : d.onBest p = true) :
    (∀ height, (d.rewind p).bestAt? height =
      if height ≤ p.height then d.bestAt? height else none) ∧
    (d.rewind p).tip = .ok p ∧
    s.LowestBelow (ps ++ [p]) (d.rewind p).ancestor ∧
    (∀ q, (d.rewind p).ancestor = some q → s.onBest q = true) ∧
    (∀ height, height ∈ (d.rewind p).best ↔
      ((d.rewind p).ancestor.map Position.height).getD s.tipHeight < height ∧
        height ≤ p.height) := by
  have hcut := hd.cutAt hs
  have hcut' := hcut.rewind hs hp
  have hle := hcut.le_tipHeight hs hp
  obtain ⟨hstaged, htip⟩ := hcut.contiguous.rewind hle
  have hbase (height : Height) (hlt : d.base.tipHeight < height) :
      d.base.bestAt? height = none := by
    rw [hcut.base] at hlt ⊢
    exact hs.bestAt?_of_lt hlt
  have hbelow (height : Height) : (d.rewind p).bestAt? height =
      if height ≤ p.height then d.bestAt? height else none :=
    hcut.contiguous.bestAt?_rewind hbase hle
  refine ⟨hbelow, ?_, hcut'.ancestor, hcut'.onBest, ?_⟩
  · rw [tip, htip, hbelow, if_pos le_rfl, onBest_iff.mp hp]
  · intro height
    rw [hstaged height, htip, keptHeight, hcut'.base]

/-- A draft that was cut back to the lower of two headers above genesis and got another header above
that one. -/
def forked (s : Store) : Draft :=
  (({ base := s } : Draft).rewind ⟨1, lowerHeader.hash⟩).extend
    ⟨2, (easyHeader lowerHeader.hash 1).hash⟩

/-- Cut back to genesis, the draft has genesis for its tip. -/
theorem rewind_forked_truncates :
    (History.upward.store .regtest).Indexed ∧
    Rewound (History.upward.store .regtest) [⟨1, lowerHeader.hash⟩]
      (forked (History.upward.store .regtest)) ∧
    (forked (History.upward.store .regtest)).onBest ⟨0, Network.regtest.genesisHash⟩ = true ∧
    ((forked (History.upward.store .regtest)).rewind ⟨0, Network.regtest.genesisHash⟩).tip =
      .ok ⟨0, Network.regtest.genesisHash⟩ := by
  have hs : (History.upward.store .regtest).Founded .regtest _ upwardLinks := founded_upward
  generalize History.upward.store .regtest = s at hs ⊢
  have hindexed : s.Indexed := hs.canonical.indexed hs.sound.follows.continuous.base
  have hlow : ({ base := s } : Draft).onBest ⟨1, lowerHeader.hash⟩ = true := by
    rw [hs.sound.follows.onBest_iff]
    exact .tail _ (.head _)
  have hgenesis : ({ base := s } : Draft).bestAt? 0 = some Network.regtest.genesisHash := by
    rw [hs.sound.follows.bestAt]
    exact .tail _ (.tail _ (.head _))
  have hcontinuous := hs.sound.follows.continuous
  have hat : ({ base := s } : Draft).bestAt? 1 = some lowerHeader.hash := onBest_iff.mp hlow
  obtain ⟨-, htip⟩ := hcontinuous.rewind (p := ⟨1, lowerHeader.hash⟩) hat
  have hforked : Rewound s [⟨1, lowerHeader.hash⟩] (forked s) := by
    have hextend := (Rewound.start.rewind hlow).extend (easyHeader lowerHeader.hash 1).hash
    rw [htip] at hextend
    exact hextend
  have hon : (forked s).onBest ⟨0, Network.regtest.genesisHash⟩ = true := by
    have hbelow : (({ base := s } : Draft).rewind ⟨1, lowerHeader.hash⟩).bestAt? 0 =
        some Network.regtest.genesisHash := by
      rw [hcontinuous.bestAt?_rewind (p := ⟨1, lowerHeader.hash⟩) hat, if_pos (by decide), hgenesis]
    rw [onBest, forked, bestAt?_extend, if_neg (by decide), hbelow, beq_self_eq_true]
  exact ⟨hindexed, hforked, hon, (rewind_truncates s _ _ _ hindexed hforked hon).2.1⟩

end Draft

end HeaderChain
