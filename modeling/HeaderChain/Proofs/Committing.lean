import HeaderChain.Proofs.Overlay
import HeaderChain.Proofs.Storing

/-!
# Commits succeed

After a commit the store shows what the draft showed. A commit of a draft over a canonical store
succeeds when the draft is continuous, and stores just what the draft shows.
-/

namespace HeaderChain

open Store

variable {s : Store} {d : Draft} {n : Network} {height : Height}

/-! ## What the store shows after a commit -/

namespace Draft

theorem bestAt?_of_written? (hs : d.base.Indexed) (hj : d.Joins)
    (hfit : d.tipHeight ≤ Height.greatest)
    (hl : ∀ height, (Key.best height).Proper →
      s.get? (.best height) = d.written? (.best height)) : s.bestAt? = d.bestAt? := by
  funext height
  rw [bestAt?_of_indexed hs, Store.bestAt?]
  by_cases hout : height < 0 ∨ Height.greatest < height
  · have hunstaged : d.best[height]? = none := by
      rw [← Option.not_isSome_iff_eq_none, ← Std.TreeMap.mem_iff_isSome_getElem?, hj.staged]
      have hnonneg := (hj.keptHeight_le hs).1
      lia
    rw [if_pos hout, hunstaged]
    simp [Store.bestAt?, hout]
  · have hproper : (Key.best height).Proper := by
      rw [not_or, not_lt, not_lt] at hout
      exact hout
    rw [if_neg hout, hl height hproper, written?]
    cases d.best[height]? with
    | some hash => simp
    | none =>
      dsimp only
      split_ifs
      · rw [Store.bestAt?, if_neg hout]
      · rfl

theorem isSome_bestAt?_of_written? (hs : d.base.Indexed) (hj : d.Joins)
    (hfit : d.tipHeight ≤ Height.greatest)
    (hl : ∀ height, (Key.best height).Proper →
      s.get? (.best height) = d.written? (.best height)) : (s.bestAt? d.tipHeight).isSome := by
  obtain ⟨h₀, -, h₁⟩ := hj.keptHeight_le hs
  obtain ⟨hash, hhash⟩ := hj.written?_tip hs
  rw [Store.bestAt?, if_neg (by lia), hl d.tipHeight ⟨h₀.trans h₁, hfit⟩, hhash]
  simp

theorem tipHeight_of_written? (hfit : d.tipHeight.Fits) (hl : s.get? .tip = d.written? .tip) :
    s.tipHeight = d.tipHeight := by
  rw [Store.tipHeight, hl]
  simp [written?, heightOfRecord?_heightRecord hfit]

namespace Leaves

theorem hasHeader (hl : d.Leaves s) (k : Hash) : s.hasHeader k = d.hasHeader k := by
  rw [Store.hasHeader, contains_eq, hl.get? (.header k) trivial, written?, Draft.hasHeader,
    Std.TreeMap.contains_eq_isSome_getElem?]
  cases d.headers[k]? with
  | some h => rfl
  | none =>
    rw [Store.hasHeader, contains_eq]
    rfl

theorem header? (hl : d.Leaves s) (hd : d.WellFormed) (k : Hash) :
    s.header? k = d.header? k := by
  have hrecord := hl.get? (.header k) trivial
  rw [written?] at hrecord
  unfold Draft.header?
  cases hstaged : d.headers[k]? with
  | some h =>
    rw [hstaged] at hrecord
    unfold Store.header? Store.load
    rw [hrecord]
    simp only [Header.ofRecord_toRecord (hd.storable k h hstaged), Except.toOption]
  | none =>
    rw [hstaged] at hrecord
    exact header?_congr hrecord

theorem checkpoint (hl : d.Leaves s) (hd : d.WellFormed) : s.checkpoint = d.currentCheckpoint := by
  rw [Store.checkpoint, hl.get? .checkpoint trivial]
  cases hchange : d.checkpoint with
  | keep => simp only [written?, currentCheckpoint, hchange, Store.checkpoint]
  | set p =>
    have hread := Position.ofRecord_toRecord (hd.checkpoint p hchange)
    simp [written?, currentCheckpoint, hchange, hread, Except.toOption]
  | clear => simp [written?, currentCheckpoint, hchange]

theorem shows (hl : d.Leaves s) (hs : d.base.Indexed) (hj : d.Joins) (hd : d.WellFormed) :
    s.Shows d := by
  constructor
  case header? => exact funext (hl.header? hd)
  case bestAt? =>
    exact bestAt?_of_written? hs hj hd.fits_tipHeight.2 fun height => hl.get? (.best height)
  case isWaiting =>
    funext e
    rw [Store.isWaiting, contains_eq, hl.get? (.edge e) trivial, written?, Changes.isSome_record?,
      ← contains_eq]
    rfl
  case isSibling =>
    funext k
    rw [Store.isSibling, contains_eq, hl.get? (.sibling k) trivial, written?,
      Changes.isSome_record?, ← contains_eq]
    rfl
  case tipHeight => exact tipHeight_of_written? hd.fits_tipHeight (hl.get? .tip trivial)
  case checkpoint => exact hl.checkpoint hd

end Leaves

end Draft

/-! ## Canonical stores -/

namespace Store.Canonical

theorem get?_best (hs : s.Canonical n) (hheight : (Key.best height).Proper) :
    s.get? (.best height) = (s.bestAt? height).map Hash.bytes := by
  have hstored := hs.get? _ hheight
  rwa [Draft.record?, Draft.bestAt?_mk] at hstored

theorem storedTip_eq (hs : s.Canonical n) : s.storedTip = .ok s.tipHeight := by
  have htip := hs.get? .tip trivial
  simp only [Draft.record?, Draft.tipHeight_mk] at htip
  simp only [storedTip, htip, heightOfRecord?_heightRecord s.fits_tipHeight]

theorem storedBest_eq {hash : Hash} (hs : s.Canonical n) (h₀ : 0 ≤ height)
    (h₁ : height ≤ Height.greatest) (hat : s.bestAt? height = some hash) :
    s.storedBest height = .ok ⟨height, hash⟩ := by
  rw [storedBest_eq_ok, hs.get?_best ⟨h₀, h₁⟩, hat]
  exact ⟨rfl, rfl⟩

/-- A canonical store has no entries of the best chain but those that can be read. -/
theorem indexed (hs : s.Canonical n) (hc : s.Continuous) : s.Indexed := by
  intro height hf
  rw [contains_eq]
  by_cases h₀ : 0 ≤ height
  · rw [hs.get?_best ⟨h₀, hf.2⟩, Option.isSome_map, hc.bestAt]
  · constructor
    · intro hentry
      obtain ⟨k, hk, heq⟩ := hs.keyed _ hentry
      rw [Key.bytes_inj hk.fits (l := .best height) hf] at heq
      subst heq
      exact absurd hk.1 h₀
    · intro h
      exact absurd h.1 h₀

end Store.Canonical

namespace Draft

theorem Continuous.joins (hd : d.Continuous) (hbase : d.base.Canonical n) : d.Joins := by
  have htop := d.base.fits_tipHeight.2
  constructor
  case tip => exact hbase.storedTip_eq
  case best =>
    have hsome := (hd.base.bestAt d.base.tipHeight).mpr ⟨hd.base.tip, le_rfl⟩
    obtain ⟨hash, hhash⟩ := Option.isSome_iff_exists.mp hsome
    exact ⟨_, hbase.storedBest_eq hd.base.tip htop hhash⟩
  case ancestor =>
    intro p hp
    obtain ⟨h₀, hlt, hat⟩ := hd.ancestor p hp
    exact ⟨h₀, hlt.le, hbase.storedBest_eq h₀ (hlt.le.trans htop) hat⟩
  case staged => exact hd.staged

/-- Over a canonical store a commit leaves the records of what the draft shows. -/
theorem Continuous.written?_eq (hd : d.Continuous) (hbase : d.base.Canonical n)
    (hset : ∀ p, d.checkpoint = .set p → p.isBlank = false) {k : Key} (hk : k.Proper) :
    d.written? k = d.record? n k := by
  cases k with
  | header k =>
    have hstored := hbase.get? (.header k) hk
    rw [record?, header?_mk] at hstored
    rw [written?, hstored, record?, header?]
    cases d.headers[k]? <;> rfl
  | best height =>
    rw [written?, record?, hd.bestAt?_eq, hbase.get?_best hk]
    cases hstaged : d.best[height]? with
    | some hash =>
      have habove := ((hd.staged height).mp (mem_best hstaged)).1
      dsimp only
      rw [if_neg (not_le.mpr habove)]
      rfl
    | none =>
      dsimp only
      split_ifs <;> rfl
  | edge e =>
    have hwaits : ({ base := d.base } : Draft).isWaiting e = d.base.isWaiting e :=
      Changes.holds_empty e _
    rw [written?, hbase.get? (.edge e) hk, record?, hwaits, Changes.record?_of_member]
    rfl
  | sibling k =>
    have hmember : ({ base := d.base } : Draft).isSibling k = d.base.isSibling k :=
      Changes.holds_empty k _
    rw [written?, hbase.get? (.sibling k) hk, record?, hmember, Changes.record?_of_member]
    rfl
  | tip => rfl
  | checkpoint =>
    rw [written?, hbase.get? .checkpoint hk]
    cases hchange : d.checkpoint with
    | keep =>
      simp only [record?, currentCheckpoint, hchange]
      rfl
    | set p => simp [record?, currentCheckpoint, hchange, hset p hchange]
    | clear => simp [record?, currentCheckpoint, hchange]
  | network =>
    rw [written?, hbase.get? .network hk]
    rfl

theorem Continuous.wellFormed (hd : d.Continuous) (hfits : d.Fits)
    (hnamed : ∀ (k : Hash) (h : Header), d.headers[k]? = some h → h.hash = k) : d.WellFormed := by
  constructor
  case named => exact hnamed
  case storable =>
    intro k h hk
    apply hfits.header k
    simp [header?, hk]
  case best =>
    intro height hheight
    obtain ⟨hlow, hhigh⟩ := (hd.staged height).mp hheight
    exact .of_nonneg (hd.keptHeight_le.1.trans hlow.le) (hhigh.trans hfits.tip)
  case ancestor =>
    intro p hp
    obtain ⟨h₀, hlt, -⟩ := hd.ancestor p hp
    exact ⟨.of_nonneg h₀ (hlt.le.trans d.base.fits_tipHeight.2), hlt⟩
  case checkpoint =>
    intro p hp
    have hfit := hfits.checkpoint
    rwa [currentCheckpoint, hp] at hfit

/-- A commit succeeds, and the store holds and shows what the draft shows. -/
theorem write_spec (hbase : d.base.Canonical n) (hd : d.Continuous) (hfits : d.Fits)
    (hnamed : ∀ (k : Hash) (h : Header), d.headers[k]? = some h → h.hash = k)
    (hset : ∀ p, d.checkpoint = .set p → p.isBlank = false) :
    ∃ c, d.write = .ok c ∧ c.store.Holds d n ∧ c.store.Shows d := by
  have hindexed := hbase.indexed hd.base
  have hjoins := hd.joins hbase
  have hformed := hd.wellFormed hfits hnamed
  obtain ⟨c, hwrite, hleaves⟩ := hformed.write hindexed hjoins
  refine ⟨c, hwrite, ⟨hleaves.others.keyed hbase.keyed, ?_⟩,
    hleaves.shows hindexed hjoins hformed⟩
  intro k hk
  rw [hleaves.get? k hk, hd.written?_eq hbase hset hk]

end Draft

end HeaderChain
