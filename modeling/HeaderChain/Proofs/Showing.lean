import HeaderChain.Proofs.Announcing
import HeaderChain.Proofs.Batching
import Mathlib.Data.List.DropRight

/-!
# What is shown of the best chain

The newest entries of the best chain are shown, lowest first, as many as the limit says. The limit
is taken as a signed number of 64 bits for that, so a limit from `2 ^ 63` on is negative: what is
computed from it leaves 64 bits, or it lies above the tip and nothing is shown.
-/

namespace HeaderChain

/-- The best chain, lowest block first. -/
structure Store.BestChain (s : Store) (chain : List Position) : Prop where
  length : (chain.length : Height) = s.tipHeight + 1
  entry : ∀ i : ℕ, chain[i]? = s.bestPosition i

def Console.signedLimit (limit : UInt64) : ℤ := (limit.toNat : ℤ).bmod (2 ^ 64)

/-- What is computed on the way to the first height that is shown has 64 bits. -/
structure Console.InRange (tip : Height) (limit : UInt64) : Prop where
  difference : (tip - signedLimit limit).Fits
  first : (tip - signedLimit limit + 1).Fits

/-- The command does what a limit asks for: it shows so many of the newest entries of the best
chain, or all if there are fewer, lowest first, without leaving 64 bits. -/
structure Tracker.Honours (t : Tracker) (limit : UInt64) : Prop where
  inRange : Console.InRange t.ledger.store.tipHeight limit
  shown : ∀ chain, t.ledger.store.BestChain chain → ∀ directory content out err,
    (Console.perform directory content (.bestChain limit)).run.run { tracker := t, out, err } =
      (.ok (), { tracker := t, out := out ++ (chain.rtake limit.toNat).map Console.row, err })

variable {s : Store} {t : Tracker} {n : Network} {links b : List Link} {chain : List Position}
variable {tip height : Height} {limit : UInt64}

/-! ## The best chain as a list -/

theorem exists_list_of_isSome {α : Type} {f : ℕ → Option α} {size : ℕ}
    (h : ∀ i, (f i).isSome ↔ i < size) : ∃ xs : List α, xs.length = size ∧ ∀ i, xs[i]? = f i := by
  refine ⟨List.ofFn fun i : Fin size => (f i).get ((h i).mpr i.isLt), List.length_ofFn, ?_⟩
  intro i
  rw [List.getElem?_ofFn]
  split_ifs with hi
  · rw [Option.some_get]
  · symm
    rwa [← Option.not_isSome_iff_eq_none, h]

theorem filterMap_getElem? {α : Type} (xs : List α) :
    (List.range xs.length).filterMap (fun i => xs[i]?) = xs := by
  induction xs with
  | nil => rfl
  | cons x xs ih =>
    rw [List.length_cons, List.range_succ_eq_map, List.filterMap_cons, List.filterMap_map]
    exact congrArg (x :: ·) ih

theorem Store.Continuous.exists_bestChain (h : s.Continuous) : ∃ chain, s.BestChain chain := by
  have htip := h.tip
  have hsome (i : ℕ) : (s.bestPosition i).isSome ↔ i < (s.tipHeight + 1).toNat := by
    rw [Store.bestPosition, Option.isSome_map, h.bestAt]
    lia
  obtain ⟨chain, hlen, hentry⟩ := exists_list_of_isSome hsome
  exact ⟨chain, by lia, hentry⟩

theorem Store.BestChain.drop (h : s.BestChain chain) {first : ℕ} (hfirst : first ≤ chain.length) :
    (List.range (s.tipHeight - first + 1).toNat).filterMap
      (fun (i : ℕ) => s.bestPosition (first + i)) = chain.drop first := by
  have hcount : (s.tipHeight - first + 1).toNat = (chain.drop first).length := by
    have hlen := h.length
    rw [List.length_drop]
    lia
  have hentries : (fun i : ℕ => s.bestPosition (first + i)) = fun i => (chain.drop first)[i]? := by
    funext i
    rw [List.getElem?_drop, h.entry, Nat.cast_add]
  rw [hcount, hentries, filterMap_getElem?]

/-! ## Running the command -/

namespace Console

def showEntry : Option Position → Work Unit
  | none => pure ()
  | some p => say (row p)

theorem run_showEntry (c : Console) (entry : Option Position) :
    (showEntry entry).run.run c = (.ok (), { c with out := c.out ++ entry.toList.map row }) := by
  cases entry with
  | none =>
    rw [Option.toList_none, List.map_nil, List.append_nil]
    rfl
  | some p => exact run_say c (row p)

theorem run_showEntries (entry : ℕ → Option Position) (is : List ℕ) (c : Console) :
    (is.forM fun i => showEntry (entry i)).run.run c =
      (.ok (), { c with out := c.out ++ (is.filterMap entry).map row }) := by
  induction is generalizing c with
  | nil =>
    rw [List.filterMap_nil, List.map_nil, List.append_nil]
    rfl
  | cons i is ih =>
    change (showEntry (entry i) >>= fun _ => is.forM fun i => showEntry (entry i)).run.run c = _
    rw [run_bind, run_showEntry]
    simp only [ih]
    cases hentry : entry i with
    | none => simp [hentry]
    | some p => simp [hentry]

theorem run_bestChain (limit : UInt64) {c : Console} {best : Position}
    (h : c.tracker.ledger.tip = .ok best) :
    (bestChain limit).run.run c = (.ok (), { c with
      out := c.out ++ ((List.range (best.height - firstShown best.height limit + 1).toNat).filterMap
        fun (i : ℕ) => c.tracker.ledger.store.bestPosition
          (firstShown best.height limit + i)).map row }) := by
  have hledger : ledger.run.run c = (.ok c.tracker.ledger, c) := rfl
  unfold bestChain
  rw [run_bind, hledger]
  simp only [run_bind, run_tip h]
  exact run_showEntries _ _ c

/-! ## Limits -/

theorem signedLimit_of_lt (h : limit.toNat < 2 ^ 63) : signedLimit limit = limit.toNat := by
  unfold signedLimit
  exact Int.bmod_eq_of_le_mul_two (by lia) (by lia)

theorem signedLimit_of_le (h : 2 ^ 63 ≤ limit.toNat) :
    signedLimit limit = limit.toNat - 2 ^ 64 := by
  have hlt := limit.toNat_lt
  unfold signedLimit
  rw [← Int.sub_bmod_right]
  exact Int.bmod_eq_of_le_mul_two (by lia) (by lia)

/-- Nothing leaves 64 bits for the limits that are not negative, zero at the greatest height apart,
and for those that lie far enough above them. -/
theorem inRange_iff (limit : UInt64) (hlo : 0 ≤ tip) (hhi : tip ≤ Height.greatest) :
    InRange tip limit ↔ limit.toNat < 2 ^ 63 ∧ tip - limit.toNat < Height.greatest ∨
      2 ^ 63 + tip + 1 < limit.toNat := by
  have hlt := limit.toNat_lt
  have hiff : InRange tip limit ↔
      (tip - signedLimit limit).Fits ∧ (tip - signedLimit limit + 1).Fits :=
    ⟨fun h => ⟨h.difference, h.first⟩, fun h => ⟨h.1, h.2⟩⟩
  rw [hiff]
  unfold Height.Fits Height.greatest at *
  by_cases hlimit : limit.toNat < 2 ^ 63
  · rw [signedLimit_of_lt hlimit]
    lia
  · rw [signedLimit_of_le (by lia)]
    lia

theorem firstShown_of_lt (h : limit.toNat < 2 ^ 63) :
    firstShown tip limit = max (tip - limit.toNat + 1) 0 := by
  rw [← signedLimit_of_lt h]
  rfl

/-- Where a negative limit leaves nothing out of range, it starts above the tip. -/
theorem lt_firstShown (hlo : 0 ≤ tip) (h : 2 ^ 63 + tip + 1 < limit.toNat) :
    tip < firstShown tip limit := by
  have hlt := limit.toNat_lt
  have hfirst : firstShown tip limit = max (tip - signedLimit limit + 1) 0 := rfl
  rw [hfirst, signedLimit_of_le (by lia)]
  lia

end Console

/-! ## Limits that are honoured -/

namespace Tracker

open Console

variable {directory : String} {content : Except FileFault String} {out err : List String}

theorem Founded.tip_bounds (ht : t.Founded n links b) :
    0 ≤ t.ledger.store.tipHeight ∧ t.ledger.store.tipHeight ≤ Height.greatest :=
  ⟨ht.store.sound.follows.continuous.base.tip, (Store.fits_tipHeight _).2⟩

theorem Founded.run_bestChain_of_lt (ht : t.Founded n links b)
    (hchain : t.ledger.store.BestChain chain) (hlimit : limit.toNat < 2 ^ 63) :
    (perform directory content (.bestChain limit)).run.run { tracker := t, out, err } =
      (.ok (), { tracker := t, out := out ++ (chain.rtake limit.toNat).map row, err }) := by
  obtain ⟨best, hbest⟩ := ht.tip_ok
  obtain ⟨hheight, -⟩ := (Ledger.tip_iff ht.store).mp hbest
  have hlen := hchain.length
  have hfirst : firstShown best.height limit = (chain.length - limit.toNat : ℕ) := by
    rw [firstShown_of_lt hlimit, hheight]
    lia
  have hrun := run_bestChain limit (c := { tracker := t, out, err }) hbest
  rw [hfirst, hheight, hchain.drop (Nat.sub_le _ _)] at hrun
  exact hrun

theorem Founded.run_bestChain_of_large (ht : t.Founded n links b)
    (hlimit : 2 ^ 63 + t.ledger.store.tipHeight + 1 < limit.toNat) :
    (perform directory content (.bestChain limit)).run.run { tracker := t, out, err } =
      (.ok (), { tracker := t, out, err }) := by
  obtain ⟨best, hbest⟩ := ht.tip_ok
  obtain ⟨hheight, -⟩ := (Ledger.tip_iff ht.store).mp hbest
  rw [← hheight] at hlimit
  have hlt := lt_firstShown (hheight ▸ ht.tip_bounds.1) hlimit
  have hcount : (best.height - firstShown best.height limit + 1).toNat = 0 := by lia
  have hrun := run_bestChain limit (c := { tracker := t, out, err }) hbest
  rw [hcount, List.range_zero, List.filterMap_nil, List.map_nil, List.append_nil] at hrun
  exact hrun

theorem Founded.honours_iff (ht : t.Founded n links b) : t.Honours limit ↔
    limit.toNat < 2 ^ 63 ∧ t.ledger.store.tipHeight - limit.toNat < Height.greatest := by
  obtain ⟨hlo, hhi⟩ := ht.tip_bounds
  constructor
  · intro h
    obtain hrange | hlarge := (inRange_iff limit hlo hhi).mp h.inRange
    · exact hrange
    · -- The tip is missing then, although the limit is not zero.
      obtain ⟨chain, hchain⟩ := ht.store.sound.follows.continuous.base.exists_bestChain
      have hshown := h.shown chain hchain "" (.ok "") [] []
      have hlen := hchain.length
      rw [ht.run_bestChain_of_large hlarge] at hshown
      have hnone : ([] : List String) = (chain.rtake limit.toNat).map row :=
        congrArg (fun s => s.2.out) hshown
      have hsize := congrArg List.length hnone
      rw [List.length_nil, List.length_map, List.rtake, List.length_drop] at hsize
      lia
  · intro h
    exact ⟨(inRange_iff limit hlo hhi).mpr (.inl h),
      fun chain hchain _ _ _ _ => ht.run_bestChain_of_lt hchain h.1⟩

end Tracker

/-- After every history, the best chain has an entry at each height up to the tip, and a limit shows
so many of the newest ones just when it is below `2 ^ 63`: for the limits from there on, either what
is computed leaves 64 bits, or nothing is shown. A limit of zero at the greatest height that there
is leaves 64 bits, too. -/
theorem History.best_chain_shown (h : History) (n : Network) (limit : UInt64) :
    (∃ chain, (h.store n).BestChain chain) ∧
    ((h.last n).Honours limit ↔
      limit.toNat < 2 ^ 63 ∧ (h.store n).tipHeight - limit.toNat < Height.greatest) ∧
    (2 ^ 63 ≤ limit.toNat → limit.toNat ≤ 2 ^ 63 + (h.store n).tipHeight + 1 →
      ¬ Console.InRange (h.store n).tipHeight limit) ∧
    (2 ^ 63 + (h.store n).tipHeight + 1 < limit.toNat →
      Console.InRange (h.store n).tipHeight limit ∧
      ∀ directory content out err, (Console.perform directory content (.bestChain limit)).run.run
        { tracker := h.last n, out, err } = (.ok (), { tracker := h.last n, out, err })) := by
  obtain ⟨b, ht⟩ := h.founded n
  obtain ⟨hlo, hhi⟩ := ht.tip_bounds
  have hrange := Console.inRange_iff limit hlo hhi
  refine ⟨ht.store.sound.follows.continuous.base.exists_bestChain, ht.honours_iff, ?_, ?_⟩
  · intro hle hge hin
    obtain hlt | hlt := hrange.mp hin
    · exact absurd hlt.1 hle.not_gt
    · exact absurd hlt hge.not_gt
  · intro hlarge
    exact ⟨hrange.mpr (.inr hlarge), fun _ _ _ _ => ht.run_bestChain_of_large hlarge⟩

theorem Store.bestChain_founding (n : Network) :
    (founding n).BestChain [⟨0, n.genesisHash⟩] where
  length := by
    rw [tipHeight_founding]
    rfl
  entry i := by
    rw [bestPosition, bestAt?_founding]
    cases i with
    | zero => simp
    | succ i =>
      have hne : (0 : Height) ≠ (i + 1 : ℕ) := by lia
      rw [if_neg hne]
      rfl

/-- The greatest limit shows nothing of the best chain of a new database, which has one entry. -/
theorem Console.greatest_limit_shows_nothing :
    (Tracker.fresh .unittest).ledger.store.BestChain [⟨0, Network.unittest.genesisHash⟩] ∧
    (perform "" (.ok "") (.bestChain 18446744073709551615)).run.run
      { tracker := Tracker.fresh .unittest } = (.ok (), { tracker := Tracker.fresh .unittest }) ∧
    ¬ (Tracker.fresh .unittest).Honours 18446744073709551615 := by
  have hfresh := Tracker.founded_fresh .unittest
  refine ⟨Store.bestChain_founding .unittest, hfresh.run_bestChain_of_large ?_, ?_⟩
  · change 2 ^ 63 + (Store.founding .unittest).tipHeight + 1 < _
    rw [Store.tipHeight_founding]
    decide
  rw [hfresh.honours_iff, not_and_or]
  exact .inl (by decide)

end HeaderChain
