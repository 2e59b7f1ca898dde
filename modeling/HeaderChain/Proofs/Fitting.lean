import HeaderChain.Proofs.Announcing
import HeaderChain.Proofs.Predicting
import Mathlib.Order.Interval.Finset.Basic
import Mathlib.Data.Int.Interval

/-!
# Drafts that fit

A draft fits when it cuts the stored best chain at one of its blocks, if at all, and stages heights
that follow the cut one by one. Just these drafts can be committed, whatever else they stage. The
chain is then what was left below the cut, with what is staged on it. A commit that is refused
leaves the ledger as it was.
-/

namespace HeaderChain

open Store

variable {s : Store} {d : Draft} {height : Height} {p : Position} {n : Network}

/-! ## Chains without holes -/

/-- The best chain has entries at the heights from zero to the tip and nowhere else, and the one at
the tip can be read. -/
structure Store.Spanned (s : Store) : Prop where
  indexed : s.Indexed
  tip : (s.bestAt? s.tipHeight).isSome

/-- Entries of the best chain are read in the same way before and during a commit. -/
theorem Store.Indexed.storedBest_iff (hs : s.Indexed) (hp : p.height.Fits) :
    s.storedBest p.height = .ok p ↔ s.onBest p = true := by
  rw [storedBest_eq_ok, onBest_iff, Store.bestAt?]
  split_ifs with hout
  · have hnone : s.get? (.best p.height) = none := by
      rw [← Option.not_isSome_iff_eq_none, hs.isSome_get? hp]
      have := s.fits_tipHeight.2
      lia
    simp [hnone]
  · simp [Hash.ofBytes?_eq_some, Option.bind_eq_some_iff]

theorem Store.Indexed.bounds_of_onBest (hs : s.Indexed) (hp : s.onBest p = true) :
    0 ≤ p.height ∧ p.height ≤ s.tipHeight := by
  rw [onBest_iff] at hp
  constructor
  · by_contra hneg
    rw [Store.bestAt?, if_pos (.inl (not_le.mp hneg))] at hp
    cases hp
  · by_contra habove
    rw [hs.bestAt?_of_lt (not_le.mp habove)] at hp
    cases hp

namespace Store.Spanned

variable (hs : s.Spanned)

include hs

theorem onBest_tip : ∃ p : Position, p.height = s.tipHeight ∧ s.onBest p = true := by
  obtain ⟨hash, hhash⟩ := Option.isSome_iff_exists.mp hs.tip
  exact ⟨⟨s.tipHeight, hash⟩, rfl, onBest_iff.mpr hhash⟩

/-- The height of the tip is stored, since there is no block at a blank height. -/
theorem storedTip_eq : s.storedTip = .ok s.tipHeight := by
  obtain ⟨p, hheight, hp⟩ := hs.onBest_tip
  have hnonneg := (hs.indexed.bounds_of_onBest hp).1
  rw [hheight] at hnonneg
  unfold tipHeight at hnonneg ⊢
  unfold storedTip
  cases hrecord : s.get? .tip with
  | none =>
    rw [hrecord] at hnonneg
    exact absurd hnonneg (by decide)
  | some record =>
    rw [hrecord] at hnonneg
    cases hread : heightOfRecord? record with
    | none =>
      rw [Option.bind_some, hread] at hnonneg
      exact absurd hnonneg (by decide)
    | some height => simp [hread]

theorem storedBest_tip : ∃ p, s.storedBest s.tipHeight = .ok p := by
  obtain ⟨p, hheight, hp⟩ := hs.onBest_tip
  rw [← hheight]
  exact ⟨p, (hs.indexed.storedBest_iff (hheight ▸ s.fits_tipHeight)).mpr hp⟩

end Store.Spanned

theorem Ledger.spanned_of_ofStore {l : Ledger} (h : Ledger.ofStore s n = .ok l)
    (hl : l.store.Indexed) : l.store.Spanned := by
  obtain ⟨s', -, h⟩ := bind_eq_ok.mp h
  obtain ⟨best, hbest, h⟩ := bind_eq_ok.mp h
  cases h
  refine ⟨hl, ?_⟩
  unfold Store.best at hbest
  cases hat : s'.bestAt? s'.tipHeight with
  | none => simp [hat] at hbest
  | some hash => rfl

/-! ## Fitting -/

/-- The draft cuts the best chain below it at one of its blocks, if at all, and the heights that it
stages are those after the cut, one by one. -/
structure Draft.Fitting (d : Draft) : Prop where
  ancestor : ∀ p, d.ancestor = some p → d.base.onBest p = true
  staged : ∀ height,
    height ∈ d.best ↔ d.keptHeight < height ∧ height ≤ d.keptHeight + d.best.size

namespace Draft

theorem size_of_interval {m : Std.TreeMap Height Hash} {a b : Height}
    (h : ∀ x, x ∈ m ↔ a < x ∧ x ≤ b) : m.size = (b - a).toNat := by
  have hkeys : m.keys.toFinset = Finset.Ioc a b := by
    ext x
    rw [List.mem_toFinset, Std.TreeMap.mem_keys, h, Finset.mem_Ioc]
  have hnodup : m.keys.Nodup := Std.TreeMap.nodup_keys
  rw [← Std.TreeMap.length_keys, ← List.toFinset_card_of_nodup hnodup, hkeys, Int.card_Ioc]

theorem Fitting.tipHeight_eq (hd : d.Fitting) : d.tipHeight = d.keptHeight + d.best.size := by
  rw [Draft.tipHeight_eq, maxKey?_of_interval hd.staged]
  lia

/-- A draft goes on from a chain without holes just when it fits. -/
theorem joins_iff_fitting (hd : d.Bounded) (hs : d.base.Spanned) : d.Joins ↔ d.Fitting := by
  constructor
  · intro hj
    have hle := (hj.keptHeight_le hs.indexed).2.2
    have hsize := size_of_interval hj.staged
    constructor
    case ancestor =>
      intro p hp
      exact (hs.indexed.storedBest_iff (hd.ancestor p hp)).mp (hj.ancestor p hp).2.2
    case staged =>
      intro height
      rw [hj.staged, hsize]
      lia
  · intro hfit
    constructor
    case tip => exact hs.storedTip_eq
    case best => exact hs.storedBest_tip
    case ancestor =>
      intro p hp
      have hon := hfit.ancestor p hp
      obtain ⟨h₀, hle⟩ := hs.indexed.bounds_of_onBest hon
      exact ⟨h₀, hle, (hs.indexed.storedBest_iff (hd.ancestor p hp)).mpr hon⟩
    case staged =>
      intro height
      rw [hfit.tipHeight_eq, hfit.staged]

/-! ## What a commit leaves of the best chain -/

theorem Writes.indexed (hw : d.Writes s) (hs : d.base.Indexed) (hj : d.Joins)
    (hfit : d.tipHeight.Fits) : s.Indexed := by
  obtain ⟨h₀, hkept, hle⟩ := hj.keptHeight_le hs
  intro height hf
  rw [contains_eq, tipHeight_of_written? hfit (hw.get? .tip trivial (by simp [OfHeader]))]
  by_cases hproper : (Key.best height).Proper
  · have hentry := hs.isSome_get? hf
    have hstaged := hj.staged height
    rw [Std.TreeMap.mem_iff_isSome_getElem?] at hstaged
    rw [hw.get? _ hproper (by simp [OfHeader]), written?]
    cases hat : d.best[height]? with
    | some hash =>
      rw [hat] at hstaged
      have := hstaged.mp rfl
      simp only [Option.isSome_some, true_iff]
      lia
    | none =>
      have hout : ¬ (d.keptHeight < height ∧ height ≤ d.tipHeight) := by
        rw [← hstaged, hat]
        exact Bool.false_ne_true
      dsimp only
      split_ifs with hlow
      · rw [hentry]
        lia
      · simp only [Option.isSome_none, Bool.false_eq_true, false_iff]
        lia
  · rw [hw.others.get?_of_not_proper (k := .best height) hf hproper, hs.isSome_get? hf]
    have hneg : height < 0 := by
      by_contra hnonneg
      exact hproper ⟨not_lt.mp hnonneg, hf.2⟩
    lia

theorem Joins.bestAt?_eq (hj : d.Joins) (hs : d.base.Indexed) : d.bestAt? height =
    if height ≤ d.keptHeight then d.base.bestAt? height else d.best[height]? := by
  rw [bestAt?_of_indexed hs]
  cases hat : d.best[height]? with
  | none => rfl
  | some hash =>
    have habove := ((hj.staged height).mp (mem_best hat)).1
    dsimp only
    rw [if_neg (not_le.mpr habove)]

end Draft

namespace Ledger

variable {l : Ledger}

/-- The ledger after a draft: as it was, when the draft was refused, since the store discards what
an aborted transaction has written. -/
def after (l : Ledger) (d : Draft) : Ledger := (l.apply d).toOption.getD l

/-- A commit fails in its transaction only, and then leaves the ledger as it was. -/
theorem after_of_refused (h : ¬ ∃ l', l.apply d = .ok l') :
    ∃ cause, l.apply d = .error (.aborted cause) ∧ l.after d = l := by
  cases hwrite : d.write with
  | ok c => exact absurd ⟨_, apply_eq_ok.mpr ⟨c, hwrite, rfl⟩⟩ h
  | error cause =>
    have happly : l.apply d = .error (.aborted cause) := by
      unfold apply Draft.commit
      rw [hwrite]
      rfl
    refine ⟨cause, happly, ?_⟩
    rw [after, happly]
    rfl

/-- A draft is committed just when it cuts the best chain at one of its blocks, if at all, and its
heights follow the cut one by one. The chain is then the old one up to the cut and what is staged
after it, with nothing above. Otherwise nothing changes. -/
theorem apply_iff_fitting (l : Ledger) (d : Draft) (hs : l.store.Spanned) (hbase : d.base = l.store)
    (hd : d.Bounded) :
    ((∃ l', l.apply d = .ok l') ↔ d.Fitting) ∧
    (∀ l', l.apply d = .ok l' → l'.store.Spanned ∧
      l'.store.tipHeight = d.keptHeight + d.best.size ∧
      ∀ height, l'.store.bestAt? height =
        if height ≤ d.keptHeight then l.store.bestAt? height else d.best[height]?) ∧
    (¬ d.Fitting → ∃ cause, l.apply d = .error (.aborted cause) ∧ l.after d = l) := by
  rw [← hbase] at hs ⊢
  have hfits := hd.fits_tipHeight
  have hiff : (∃ l', l.apply d = .ok l') ↔ d.Fitting := by
    rw [← Draft.joins_iff_fitting hd hs]
    constructor
    · rintro ⟨l', happly⟩
      obtain ⟨c, hwrite, -⟩ := write_of_apply happly
      exact hd.joins hs.indexed hwrite
    · intro hj
      obtain ⟨c, hwrite, -⟩ := hj.write hs.indexed hfits.2
      obtain ⟨l', happly, -⟩ := apply_of_write (l := l) hwrite
      exact ⟨l', happly⟩
  refine ⟨hiff, fun l' happly => ?_, fun hnot => after_of_refused fun h => hnot (hiff.mp h)⟩
  have hfitting := hiff.mp ⟨l', happly⟩
  have hj := (Draft.joins_iff_fitting hd hs).mpr hfitting
  obtain ⟨c, hwrite, hstore⟩ := write_of_apply happly
  obtain ⟨c', hwrite', hwrites⟩ := hj.write hs.indexed hfits.2
  rw [hwrite, Except.ok.injEq] at hwrite'
  rw [← hwrite', ← hstore] at hwrites
  have hbest (height : Height) (hheight : (Key.best height).Proper) :
      l'.store.get? (.best height) = d.written? (.best height) :=
    hwrites.get? _ hheight (by simp [OfHeader])
  have htip : l'.store.tipHeight = d.tipHeight :=
    Draft.tipHeight_of_written? hfits (hwrites.get? .tip trivial (by simp [OfHeader]))
  refine ⟨⟨hwrites.indexed hs.indexed hj hfits, ?_⟩, ?_, fun height => ?_⟩
  · rw [htip]
    exact Draft.isSome_bestAt?_of_written? hs.indexed hj hfits.2 hbest
  · rw [htip, hfitting.tipHeight_eq]
  · rw [Draft.bestAt?_of_written? hs.indexed hj hfits.2 hbest, hj.bestAt?_eq hs.indexed]

/-- A draft over a new ledger with a hole between the stored tip and the height that it stages. -/
def holed : Draft :=
  ((Tracker.fresh .regtest).ledger.draft.extend ⟨2, .fill 2⟩).addSibling (.fill 3)

theorem not_fitting_holed : ¬ holed.Fitting := by
  intro h
  have hkept : holed.keptHeight = 0 :=
    (Draft.keptHeight_of_none rfl).trans (tipHeight_founding (n := .regtest))
  have hsize : holed.best.size = 1 := by
    change (Std.TreeMap.insert ∅ (2 : Height) (Hash.fill 2)).size = 1
    simp [Std.TreeMap.size_insert]
  have hmem : (2 : Height) ∈ holed.best := by
    simp [holed, Draft.addSibling, Draft.extend]
  have hle := ((h.staged 2).mp hmem).2
  rw [hkept, hsize] at hle
  exact absurd hle (by decide)

theorem bounded_holed : holed.Bounded := by
  have hformed : (Mutation.runAll (Tracker.fresh .regtest).ledger.draft
      [.extend ⟨2, .fill 2⟩ (by constructor <;> decide), .addSibling (.fill 3)]).WellFormed :=
    ((Draft.wellFormed_mk _).runAll (regular_founding .regtest) _).2
  exact hformed.bounded

/-- A chain of rivals is committed to a new ledger, a chain with a hole is not. -/
theorem apply_rivalry_holed :
    (∃ l', (Tracker.fresh .regtest).ledger.apply
      (Mutation.runAll (Tracker.fresh .regtest).ledger.draft rivalry) = .ok l') ∧
    (Tracker.fresh .regtest).ledger.after holed = (Tracker.fresh .regtest).ledger := by
  set l := (Tracker.fresh .regtest).ledger
  have hs : l.store.Spanned :=
    spanned_of_ofStore (create_eq .regtest) (regular_founding .regtest).indexed
  obtain ⟨hbase, hformed⟩ :=
    (Draft.wellFormed_mk l.store).runAll (regular_founding .regtest) rivalry
  have hfitting := (Draft.joins_iff_fitting hformed.bounded (hbase ▸ hs)).mp
    (continuous_rivalry.joins canonical_founding)
  obtain ⟨hiff, -, -⟩ := apply_iff_fitting l _ hs hbase hformed.bounded
  obtain ⟨-, -, hrefused⟩ := apply_iff_fitting l holed hs rfl bounded_holed
  obtain ⟨-, -, hafter⟩ := hrefused not_fitting_holed
  exact ⟨hiff.mpr hfitting, hafter⟩

end Ledger

end HeaderChain
