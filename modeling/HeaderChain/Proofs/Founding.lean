import HeaderChain.Ledger
import HeaderChain.Proofs.Committing

/-!
# Founded stores

A store is founded on the genesis header of a network when it stores the first header that was
brought for each hash, and what holds of drafts between operations holds of it. A new store with
the genesis header is founded.
-/

namespace HeaderChain

/-- The forest of the first link for each hash. -/
def firsts (links : List Link) : Forest := fun k => links.find? fun x => x.hash = k

variable {links more : List Link} {x y : Link} {g k : Hash} {r b : List Link}

theorem accept_firsts (links : List Link) (x : Link) :
    accept (firsts links) x = firsts (links ++ [x]) := by
  funext k
  unfold firsts accept
  rw [List.find?_append]
  by_cases hk : k = x.hash
  · subst hk
    cases hx : links.find? fun y => decide (y.hash = x.hash) <;> simp [hx, plant]
  · have hne : ¬ x.hash = k := Ne.symm hk
    split_ifs <;> simp [plant, hk, hne]

theorem foldl_accept (links more : List Link) :
    more.foldl accept (firsts links) = firsts (links ++ more) := by
  induction more generalizing links with
  | nil => simp
  | cons x more ih =>
    rw [List.foldl_cons, accept_firsts, ih, List.append_assoc]
    rfl

theorem firsts_append_of_some (more : List Link) (h : firsts links k = some x) :
    firsts (links ++ more) k = some x := by
  unfold firsts at h ⊢
  rw [List.find?_append, h]
  rfl

theorem named_firsts (links : List Link) : Named (firsts links) := by
  intro k x hx
  unfold firsts at hx
  simpa using List.find?_some hx

theorem mem_of_firsts (h : firsts links k = some x) : x ∈ links := List.mem_of_find?_eq_some h

theorem isSome_firsts : (firsts links k).isSome ↔ ∃ x ∈ links, x.hash = k := by
  simp [firsts, List.find?_isSome]

theorem length_route_firsts_le (h : Route (firsts links) g k r) : r.length ≤ links.length := by
  have hlen := h.length_le (l := links.map Link.hash) (named_firsts links) ?_
  · simpa using hlen
  · intro a ha
    obtain ⟨x, hx, rfl⟩ := isSome_firsts.mp ha
    exact List.mem_map_of_mem hx

/-! ## What fits -/

theorem Link.work_le (x : Link) : x.work ≤ 2 ^ 256 := by
  unfold Link.work Target.workOfBits
  cases Target.ofBits x.raw.bits with
  | none => exact Nat.zero_le _
  | some target => exact Nat.div_le_self _ _

theorem totalWork_le (r : List Link) : totalWork r ≤ r.length * 2 ^ 256 := by
  induction r with
  | nil => exact Nat.zero_le _
  | cons x r ih =>
    have hx := x.work_le
    rw [totalWork_cons, List.length_cons, Nat.succ_mul]
    omega

theorem mul_two_pow_lt {a i j m : ℕ} (ha : a ≤ 2 ^ i) (h : i + m < j) : a * 2 ^ m < 2 ^ j := by
  calc a * 2 ^ m ≤ 2 ^ i * 2 ^ m := Nat.mul_le_mul_right _ ha
    _ = 2 ^ (i + m) := (Nat.pow_add 2 i m).symm
    _ < 2 ^ j := Nat.pow_lt_pow_right Nat.one_lt_two h

/-- As many headers as there are heights above genesis, and no more, fit into a store. -/
def Roomy (links : List Link) : Prop := (links.length : Height) ≤ Height.greatest

theorem roomy_append_iff {hs : List Header} : Roomy (links ++ hs.map Header.link) ↔
    ((links.length + hs.length : ℕ) : Height) ≤ Height.greatest := by
  rw [Roomy, List.length_append, List.length_map]

theorem Roomy.left (h : Roomy (links ++ more)) : Roomy links := by
  unfold Roomy at h ⊢
  rw [List.length_append] at h
  lia

theorem storable_placed {c : Position} (hlen : (r.length : Height) ≤ Height.greatest) :
    (x.placed c r).Storable := by
  constructor
  · exact .of_nonneg (Int.natCast_nonneg _) hlen
  · have hbound : (x :: r).length ≤ 2 ^ 63 := by
      unfold Height.greatest at hlen
      rw [List.length_cons]
      lia
    have hwork : (x.placed c r).work < Bytes.capacity (4 * 10) := by
      rw [Bytes.capacity_eq_pow]
      exact lt_of_le_of_lt (totalWork_le (x :: r)) (mul_two_pow_lt hbound (by decide))
    exact lt_of_le_of_lt (Record.length_workDigits_le_iff.mpr hwork) (by decide)

theorem storable_disconnect (h : Header) : h.disconnect.Storable := by
  constructor
  · exact Height.fits_blank
  · have hwork : h.disconnect.work = 0 := rfl
    rw [hwork, Record.workDigits, if_pos rfl]
    exact Bytes.capacity_pos 8

/-! ## Founded stores -/

/-- What a checkpoint may be: none, or one that is not too low. -/
def Position.Settable (p : Position) : Prop :=
  p = .blank ∨ Height.leastCheckpoint ≤ p.height ∧ p.height ≤ Height.greatest

/-- What holds of a store between operations, when `links` were brought after genesis and `b` is the
best chain. -/
structure Store.Founded (s : Store) (n : Network) (links b : List Link) : Prop where
  sound : ({ base := s } : Draft).Sound n.genesisHash b
  canonical : s.Canonical n
  forest : forestOf s.header? = firsts (n.genesis.link :: links)
  checkpoint : s.checkpoint.Settable

namespace Draft

variable {d : Draft}

theorem Sound.tipHeight_le (hd : d.Sound g b) (hforest : forestOf d.header? = firsts (y :: links))
    (hroomy : Roomy links) : d.tipHeight ≤ Height.greatest := by
  obtain ⟨l, hl⟩ := hd.optimal.route
  obtain ⟨x, s, rfl⟩ := List.exists_cons_of_ne_nil hl.ne_nil
  rw [hd.follows.tipHeight_eq]
  rw [hforest] at hl
  have hlen := length_route_firsts_le hl
  rw [List.length_cons, List.length_cons] at hlen
  unfold Roomy at hroomy
  lia

/-- What a sound draft shows fits into records when there are not too many links. -/
theorem Sound.fits (hd : d.Sound g b) (hforest : forestOf d.header? = firsts (y :: links))
    (hroomy : Roomy links) (hcheckpoint : d.currentCheckpoint.Settable) : d.Fits := by
  constructor
  case header =>
    intro k h hk
    by_cases hconnected : h.isDisconnected = true
    · rw [hd.exact.waiting hk ((hd.exact.isDisconnected_iff hk).mp hconnected)]
      exact storable_disconnect h
    · rw [Bool.not_eq_true] at hconnected
      obtain ⟨r, hr, hplaced⟩ := hd.exact.route_of_connected hk hconnected
      rw [hforest] at hr
      have hlen := length_route_firsts_le hr
      rw [List.length_cons, List.length_cons] at hlen
      rw [hplaced]
      apply storable_placed
      unfold Roomy at hroomy
      lia
  case tip => exact hd.tipHeight_le hforest hroomy
  case checkpoint =>
    rcases hcheckpoint with hblank | ⟨hlow, hhigh⟩
    · rw [hblank]
      exact Height.fits_blank
    · unfold Height.leastCheckpoint at hlow
      exact .of_nonneg (by lia) hhigh

end Draft

/-! ## New stores -/

/-- The store that has nothing but the genesis header of a network. -/
def Store.founding (n : Network) : Store := ({} : Store).importGenesis n

theorem Network.storable_genesis (n : Network) : n.genesis.Storable := by
  have hplaced : n.genesis.link.placed .blank [] = n.genesis := placed_genesis n (by decide)
  rw [← hplaced]
  apply storable_placed
  decide

namespace Store

variable {n : Network} {height : Height}

theorem get?_founding {k : Key} (hk : k.Proper) : (founding n).get? k =
    if .network = k then some [n.tag]
    else if .tip = k then some (heightRecord 0)
    else if .best 0 = k then some n.genesisHash.bytes
    else if .header n.genesisHash = k then some n.genesis.toRecord
    else none := by
  have hbest : (Key.best 0).Proper := by constructor <;> decide
  unfold founding importGenesis
  rw [get?_put_eq (l := .network) trivial hk, get?_put_eq (l := .tip) trivial hk,
    get?_put_eq hbest hk, get?_put_eq (l := .header n.genesis.hash) trivial hk]
  rfl

theorem keyed_founding : (founding n).Keyed := by
  have hbest : (Key.best 0).Proper := by constructor <;> decide
  have hempty : ({} : Store).Keyed := by
    intro bytes hb
    simp at hb
  apply (onlyAt_put (l := .network) trivial).keyed
  apply (onlyAt_put (l := .tip) trivial).keyed
  apply (onlyAt_put hbest).keyed
  exact (onlyAt_put (l := .header n.genesis.hash) trivial).keyed hempty

theorem header?_founding {k : Hash} :
    (founding n).header? k = if n.genesisHash = k then some n.genesis else none := by
  unfold header? load
  rw [get?_founding (k := .header k) trivial]
  by_cases hk : n.genesisHash = k
  · simp [hk, Header.ofRecord_toRecord n.storable_genesis, Except.toOption]
  · simp [hk, Except.toOption]

theorem bestAt?_founding :
    (founding n).bestAt? height = if 0 = height then some n.genesisHash else none := by
  unfold bestAt?
  by_cases hheight : 0 = height
  · subst hheight
    have hbest : (Key.best 0).Proper := by constructor <;> decide
    rw [if_neg (by decide), get?_founding hbest]
    simp
  · rw [if_neg hheight]
    split_ifs with hout
    · rfl
    · rw [not_or, not_lt, not_lt] at hout
      rw [get?_founding (k := .best height) hout]
      simp [hheight]

theorem tipHeight_founding : (founding n).tipHeight = 0 := by
  unfold tipHeight
  rw [get?_founding (k := .tip) trivial]
  have hread : heightOfRecord? (heightRecord 0) = some 0 :=
    heightOfRecord?_heightRecord (by constructor <;> decide)
  simp [hread]

theorem isWaiting_founding {e : Edge} : (founding n).isWaiting e = false := by
  rw [isWaiting, contains_eq, get?_founding (k := .edge e) trivial]
  simp

theorem isSibling_founding {k : Hash} : (founding n).isSibling k = false := by
  rw [isSibling, contains_eq, get?_founding (k := .sibling k) trivial]
  simp

theorem checkpoint_founding : (founding n).checkpoint = .blank := by
  unfold checkpoint
  rw [get?_founding (k := .checkpoint) trivial]
  rfl

theorem canonical_founding : (founding n).Canonical n := by
  refine ⟨keyed_founding, ?_⟩
  intro k hk
  rw [get?_founding hk]
  cases k with
  | header k =>
    rw [Draft.record?, Draft.header?_mk, header?_founding]
    by_cases hk : n.genesisHash = k <;> simp [hk]
  | best height =>
    rw [Draft.record?, Draft.bestAt?_mk, bestAt?_founding]
    by_cases hheight : 0 = height <;> simp [hheight]
  | edge e => simp [Draft.record?, Draft.isWaiting, isWaiting_founding]
  | sibling k => simp [Draft.record?, Draft.isSibling, isSibling_founding]
  | tip => simp [Draft.record?, tipHeight_founding]
  | checkpoint =>
    have hblank : ({ base := founding n } : Draft).currentCheckpoint = .blank :=
      checkpoint_founding (n := n)
    simp [Draft.record?, hblank]
  | network => simp [Draft.record?]

theorem forest_founding : forestOf (founding n).header? = firsts [n.genesis.link] := by
  funext k
  unfold forestOf firsts
  rw [header?_founding]
  by_cases hk : n.genesisHash = k
  · simp [hk, Network.genesis, Header.link]
  · simp [hk, Network.genesis, Header.link]

/-- Genesis is on the only route there is. -/
theorem route_founding (h : Route (firsts [n.genesis.link]) n.genesisHash k r) :
    k = n.genesisHash ∧ r = [n.genesis.link] := by
  obtain ⟨x, s, rfl⟩ := List.exists_cons_of_ne_nil h.ne_nil
  have hx : x = n.genesis.link := List.mem_singleton.mp (mem_of_firsts h.found)
  have hk : k = n.genesisHash := by
    rw [← h.hash_eq (named_firsts _), hx]
    rfl
  subst hk
  obtain ⟨y, hy⟩ := h.of_genesis
  rw [hy, (List.cons.inj hy).1.symm.trans hx]
  exact ⟨rfl, rfl⟩

theorem genesis_route (n : Network) :
    Route (firsts [n.genesis.link]) n.genesisHash n.genesisHash [n.genesis.link] := by
  apply Route.genesis
  simp [firsts, Network.genesis, Header.link]

theorem exact_founding : Exact (founding n).header? n.genesisHash .blank := by
  have hplaced : n.genesis.link.placed .blank [] = n.genesis := placed_genesis n (by decide)
  constructor
  case named =>
    rw [forest_founding]
    exact named_firsts _
  case rooted =>
    rw [forest_founding, (genesis_route n).found]
    rfl
  case placed =>
    intro k x r hr
    rw [forest_founding] at hr
    obtain ⟨rfl, heq⟩ := route_founding hr
    cases heq
    rw [header?_founding, if_pos rfl, hplaced]
  case waiting =>
    intro k h hk hnone
    rw [header?_founding] at hk
    split_ifs at hk with heq
    subst heq
    rw [forest_founding] at hnone
    exact absurd (genesis_route n) (hnone _)

theorem continuous_founding : (founding n).Continuous := by
  constructor
  · rw [tipHeight_founding]
  · intro height
    rw [bestAt?_founding, tipHeight_founding]
    split_ifs with h
    · simp [← h]
    · simp
      lia

theorem regular_founding (n : Network) : (founding n).Regular := by
  constructor
  · exact canonical_founding.indexed continuous_founding
  · intro hash h hh
    exact exact_founding.hash_eq hh

theorem follows_founding : ({ base := founding n } : Draft).Follows [n.genesis.link] := by
  constructor
  · exact Draft.continuous_mk continuous_founding
  · intro height hash
    have hname : n.genesis.link.hash = n.genesisHash := rfl
    rw [Draft.bestAt?_mk, bestAt?_founding]
    simp only [positions, List.length_nil, Nat.cast_zero, List.mem_singleton, Position.mk.injEq,
      hname, @eq_comm _ height, @eq_comm _ hash]
    split_ifs with h <;> simp [h]

theorem optimal_founding :
    Optimal (firsts [n.genesis.link]) n.genesisHash .blank [n.genesis.link] := by
  constructor
  case route => exact ⟨_, genesis_route n⟩
  case clear =>
    have hstanding : n.genesis.link.standing 0 .blank = .normal := if_pos (by decide)
    simp [conflicts, hstanding]
  case maximal =>
    intro k r hr _
    rw [(route_founding hr).2]

theorem sound_founding :
    ({ base := founding n } : Draft).Sound n.genesisHash [n.genesis.link] := by
  have hheader : ({ base := founding n } : Draft).header? = (founding n).header? :=
    Draft.header?_mk _
  have hcheckpoint : ({ base := founding n } : Draft).currentCheckpoint = .blank :=
    checkpoint_founding (n := n)
  constructor
  case readable => exact canonical_founding.readable (.refl _)
  case exact =>
    rw [hheader, hcheckpoint]
    exact exact_founding
  case edges =>
    intro e
    have hedge : ({ base := founding n } : Draft).isWaiting e = false := by
      simp [Draft.isWaiting, isWaiting_founding]
    rw [hedge, hheader, header?_founding]
    simp only [Bool.false_eq_true, false_iff]
    rintro ⟨h, hh, hwaits, -⟩
    split_ifs at hh
    cases hh
    simp [Header.isDisconnected, Network.genesis] at hwaits
  case follows => exact follows_founding
  case optimal =>
    rw [hheader, hcheckpoint, forest_founding]
    exact optimal_founding
  case siblings =>
    intro k
    rw [hheader, forest_founding]
    have hsib : ({ base := founding n } : Draft).isSibling k = false := by
      simp [Draft.isSibling, isSibling_founding]
    rw [hsib]
    simp only [Bool.false_eq_true, false_iff]
    rintro ⟨hleaf, hoff⟩
    obtain ⟨r, hr⟩ := hleaf.route
    exact hoff n.genesis.link (by simp) (route_founding hr).1.symm

theorem founded_founding (n : Network) : (founding n).Founded n [] [n.genesis.link] := by
  constructor
  case sound => exact sound_founding
  case canonical => exact canonical_founding
  case forest => exact forest_founding
  case checkpoint => exact .inl checkpoint_founding

end Store

end HeaderChain
