import HeaderChain.Network
import HeaderChain.Trace
import Mathlib.Tactic

/-!
# Routes to genesis

The reference that stored chain state is compared with. A forest gives the links that are stored,
without any chain state; the route of a header lists the links from it down to genesis. Height,
work and standing of a header are read off its route and the checkpoint alone. A header has one
route at most, and every suffix of a route is the route of an ancestor.
-/

namespace HeaderChain

/-- A header without its chain state. -/
structure Link where
  hash : Hash
  raw : RawHeader
deriving DecidableEq

namespace Link

def parent (x : Link) : Hash := x.raw.previous

def work (x : Link) : Nat := (Target.workOfBits x.raw.bits).getD 0

/-- How a link at a height stands against a checkpoint. -/
def standing (x : Link) (height : Height) (c : Position) : Standing :=
  if c.height ≠ height then .normal else if c.hash = x.hash then .checkpoint else .banned

end Link

def Header.link (h : Header) : Link := ⟨h.hash, h.raw⟩

abbrev Forest := Hash → Option Link

def Named (f : Forest) : Prop := ∀ k x, f k = some x → x.hash = k

/-- The links from a header down to genesis, which is stored under `g`. -/
inductive Route (f : Forest) (g : Hash) : Hash → List Link → Prop
  | genesis {x} (found : f g = some x) : Route f g g [x]
  | child {k x rest} (other : k ≠ g) (found : f k = some x) (up : Route f g x.parent rest) :
      Route f g k (x :: rest)

/-! ## What a route says about its header -/

def totalWork (r : List Link) : Nat := (r.map Link.work).sum

/-- The positions of a route, highest first. -/
def positions : List Link → List Position
  | [] => []
  | x :: rest => ⟨rest.length, x.hash⟩ :: positions rest

/-- Whether the checkpoint rules out one of the links. -/
def conflicts (c : Position) : List Link → Bool
  | [] => false
  | x :: rest => x.standing rest.length c == .banned || conflicts c rest

/-- The header of a link that stands on a route. -/
def Link.placed (c : Position) (x : Link) (rest : List Link) : Header where
  raw := x.raw
  hash := x.hash
  height := rest.length
  work := totalWork (x :: rest)
  own := x.standing rest.length c
  inherited := if conflicts c rest then .banned else .normal

/-- The positions of links that stand one on the other, from a route upward. -/
def ascend : (route up : List Link) → List Position
  | _, [] => []
  | route, x :: up => ⟨route.length, x.hash⟩ :: ascend (x :: route) up

variable {f : Forest} {g k : Hash} {r s up : List Link} {x y : Link} {c p : Position}

@[simp] theorem totalWork_cons : totalWork (x :: r) = x.work + totalWork r := by
  simp [totalWork]

theorem totalWork_le_of_suffix (h : s <:+ r) : totalWork s ≤ totalWork r := by
  obtain ⟨t, rfl⟩ := h
  simp [totalWork]

theorem totalWork_lt_of_suffix (h : s <:+ r) (hne : s ≠ r) (hwork : ∀ x ∈ r, 0 < x.work) :
    totalWork s < totalWork r := by
  obtain ⟨u, rfl⟩ := h
  cases u with
  | nil => exact absurd rfl hne
  | cons x u =>
    have hpos := hwork x (by simp)
    simp [totalWork]
    omega

@[simp] theorem link_placed : (x.placed c r).link = x := rfl

@[simp] theorem hash_placed : (x.placed c r).hash = x.hash := rfl

@[simp] theorem parent_placed : (x.placed c r).parent = x.parent := rfl

@[simp] theorem height_placed : (x.placed c r).height = r.length := rfl

@[simp] theorem work_placed : (x.placed c r).work = totalWork (x :: r) := rfl

@[simp] theorem position_placed : (x.placed c r).position = ⟨r.length, x.hash⟩ := rfl

@[simp] theorem isBanned_placed : (x.placed c r).isBanned = conflicts c (x :: r) := by
  by_cases h : conflicts c r <;> simp [Header.isBanned, Link.placed, conflicts, h]

@[simp] theorem isDisconnected_placed : (x.placed c r).isDisconnected = false := by
  have hown : x.standing r.length c ≠ .disconnected := by
    unfold Link.standing
    split_ifs <;> simp
  by_cases h : conflicts c r <;> simp [Header.isDisconnected, Link.placed, h, hown]

@[simp] theorem isRoot_placed : (x.placed c r).isRoot = r.isEmpty := by
  cases r <;> simp [Header.isRoot]

/-- Connecting a header to one that stands on a route puts it on top of that route. -/
theorem connect_placed (h : Header) :
    h.connect (y.placed c r) c = h.link.placed c (y :: r) := by
  have hheight : (r.length : Int) + 1 = ((y :: r).length : Int) := by simp
  have hbequest : (y.placed c r).bequest = if conflicts c (y :: r) then .banned else .normal := by
    by_cases hb : conflicts c (y :: r) <;> simp [Header.bequest, hb]
  simp only [Header.connect, Header.inheritWork, Header.inheritStanding, Header.inheritHeight,
    Header.compareTo, Link.placed, Header.link, hbequest, hheight] at *
  simp [Header.ownWork, totalWork, Link.work, Link.standing]
  omega

theorem placed_genesis (n : Network) (hc : c.height ≠ 0) :
    n.genesis.link.placed c [] = n.genesis := by
  simp [Link.placed, Header.link, Network.genesis, Link.standing, hc, conflicts, totalWork,
    Link.work]

/-! ## Positions -/

theorem mem_positions : p ∈ positions r ↔ ∃ x s, x :: s <:+ r ∧ p = ⟨s.length, x.hash⟩ := by
  induction r with
  | nil => simp [positions]
  | cons y r ih =>
    simp only [positions, List.mem_cons, ih, List.suffix_cons_iff]
    constructor
    · rintro (rfl | ⟨x, s, hs, rfl⟩)
      · exact ⟨y, r, .inl rfl, rfl⟩
      · exact ⟨x, s, .inr hs, rfl⟩
    · rintro ⟨x, s, hs | hs, rfl⟩
      · cases hs
        exact .inl rfl
      · exact .inr ⟨x, s, hs, rfl⟩

theorem height_lt_of_mem_positions (h : p ∈ positions r) : 0 ≤ p.height ∧ p.height < r.length := by
  obtain ⟨x, s, hs, rfl⟩ := mem_positions.mp h
  have := hs.length_le
  simp at this ⊢
  omega

theorem suffix_unique {a b : List Link} (ha : a <:+ r) (hb : b <:+ r) (h : a.length = b.length) :
    a = b :=
  (List.suffix_of_suffix_length_le ha hb h.le).eq_of_length h

theorem exists_suffix_of_lt {n : ℕ} (h : n < r.length) : ∃ x s, x :: s <:+ r ∧ s.length = n := by
  have hlen : (r.drop (r.length - (n + 1))).length = n + 1 := by
    rw [List.length_drop]
    omega
  obtain ⟨x, s, hs⟩ := List.exists_cons_of_length_eq_add_one hlen
  refine ⟨x, s, hs ▸ List.drop_suffix _ _, ?_⟩
  rw [hs] at hlen
  simpa using hlen

/-! ## Routes -/

theorem Route.ne_nil (h : Route f g k r) : r ≠ [] := by
  cases h <;> simp

theorem Route.found (h : Route f g k (x :: r)) : f k = some x := by
  cases h with
  | genesis found => exact found
  | child _ found _ => exact found

theorem Route.of_genesis (h : Route f g g r) : ∃ x, r = [x] := by
  cases h with
  | genesis => exact ⟨_, rfl⟩
  | child other _ _ => exact absurd rfl other

/-- What is below the first link of a route is the route of its parent, unless that is genesis. -/
theorem Route.parent (h : Route f g k (x :: y :: r)) : k ≠ g ∧ Route f g x.parent (y :: r) := by
  cases h with
  | child other _ up => exact ⟨other, up⟩

theorem Route.unique (h : Route f g k r) : Route f g k s → r = s := by
  induction h generalizing s with
  | genesis found =>
    intro hs
    obtain ⟨y, rfl⟩ := hs.of_genesis
    rw [Option.some.inj (found.symm.trans hs.found)]
  | child other found _ ih =>
    intro hs
    cases hs with
    | genesis => exact absurd rfl other
    | child _ found' up' =>
      cases Option.some.inj (found.symm.trans found')
      rw [ih up']

theorem Route.hash_eq (hn : Named f) (h : Route f g k (x :: r)) : x.hash = k := hn k x h.found

theorem Route.target_unique {j : Hash} (hn : Named f) (h : Route f g k r) (h' : Route f g j r) :
    k = j := by
  obtain ⟨x, s, rfl⟩ := List.exists_cons_of_ne_nil h.ne_nil
  rw [← h.hash_eq hn, h'.hash_eq hn]

theorem Route.of_suffix (hn : Named f) (h : Route f g k r) (hs : x :: s <:+ r) :
    Route f g x.hash (x :: s) := by
  induction h with
  | @genesis y found =>
    have hs' : x :: s = [y] := by
      simpa [List.suffix_cons_iff] using hs
    cases hs'
    rw [hn g _ found]
    exact .genesis found
  | child other found up ih =>
    rcases List.suffix_cons_iff.mp hs with heq | hs
    · cases heq
      rw [hn _ _ found]
      exact .child other found up
    · exact ih hs

theorem Route.genesis_suffix (h : Route f g k r) : ∃ x, f g = some x ∧ [x] <:+ r := by
  induction h with
  | genesis found => exact ⟨_, found, List.suffix_refl _⟩
  | child _ _ _ ih =>
    obtain ⟨x, hx, hs⟩ := ih
    exact ⟨x, hx, hs.trans (List.suffix_cons _ _)⟩

theorem Route.singleton_suffix {j : Hash} (h : Route f g k [x]) (hr : Route f g j r) :
    [x] <:+ r := by
  obtain ⟨y, hy, hbelow⟩ := hr.genesis_suffix
  obtain ⟨z, hz, hx⟩ := h.genesis_suffix
  cases hy.symm.trans hz
  have hsame : [y] = [x] := hx.eq_of_length rfl
  rw [← hsame]
  exact hbelow

theorem Route.mono {f' : Forest} (hf : ∀ k x, f k = some x → f' k = some x)
    (h : Route f g k r) : Route f' g k r := by
  induction h with
  | genesis found => exact .genesis (hf _ _ found)
  | child other found _ ih => exact .child other (hf _ _ found) ih

theorem Route.nodup (hn : Named f) (h : Route f g k r) : (r.map Link.hash).Nodup := by
  induction h with
  | genesis => simp
  | @child k x rest other found up ih =>
    simp only [List.map_cons, List.nodup_cons, ih, and_true, List.mem_map, not_exists, not_and]
    intro y hy heq
    obtain ⟨t, s, hrest⟩ := List.append_of_mem hy
    have hs : y :: s <:+ rest := ⟨t, hrest.symm⟩
    have hroute : Route f g x.hash (y :: s) := heq ▸ up.of_suffix hn hs
    have hself : Route f g x.hash (x :: rest) := by
      rw [hn _ _ found]
      exact .child other found up
    have hlen := hs.length_le
    have hsame := congrArg List.length (hroute.unique hself)
    simp only [List.length_cons] at hlen hsame
    omega

/-- A position of a known header is on a route exactly when its own route is a part of that. -/
theorem Route.mem_positions_iff (hn : Named f) (hk : Route f g k (x :: s)) {b : Hash}
    (h : Route f g b r) : ⟨s.length, k⟩ ∈ positions r ↔ x :: s <:+ r := by
  rw [mem_positions]
  constructor
  · rintro ⟨y, t, ht, heq⟩
    obtain ⟨_, rfl⟩ := Position.mk.inj heq
    rw [hk.unique (h.of_suffix hn ht)]
    exact ht
  · intro hs
    exact ⟨x, s, hs, by rw [hk.hash_eq hn]⟩

/-- Two routes that share a position share all that is below it. -/
theorem Route.common_suffix {b : Hash} {t : List Link} {p : Position} (hn : Named f)
    (h : Route f g k r) (h' : Route f g b t) (hp : p ∈ positions r) (hp' : p ∈ positions t) :
    ∃ s, s <:+ r ∧ s <:+ t ∧ p.height + 1 = s.length := by
  obtain ⟨y, s, hs, rfl⟩ := mem_positions.mp hp
  exact ⟨y :: s, hs, ((h.of_suffix hn hs).mem_positions_iff hn h').mp hp', by simp⟩

theorem Route.exists_mem_iff (hn : Named f) (hk : Route f g k s) {b : Hash} (h : Route f g b r) :
    (∃ x ∈ r, x.hash = k) ↔ s <:+ r := by
  constructor
  · rintro ⟨x, hx, rfl⟩
    obtain ⟨t, u, rfl⟩ := List.append_of_mem hx
    have hu : x :: u <:+ t ++ x :: u := List.suffix_append t (x :: u)
    rw [hk.unique (h.of_suffix hn hu)]
    exact hu
  · intro hs
    obtain ⟨x, s, rfl⟩ := List.exists_cons_of_ne_nil hk.ne_nil
    exact ⟨x, hs.subset (by simp), hk.hash_eq hn⟩

/-- A route forks off the best chain `b` above `base`, which is all that it shares with it. -/
structure Forks (r b up base : List Link) : Prop where
  split : r = up.reverse ++ base
  suffix : base <:+ b
  longest : ∀ s, s <:+ r → s <:+ b → s <:+ base

theorem Forks.of_suffix {r b : List Link} (h : r <:+ b) : Forks r b [] r :=
  ⟨rfl, h, fun _ hs _ => hs⟩

theorem Forks.unique {r b up up' base base' : List Link} (h : Forks r b up base)
    (h' : Forks r b up' base') : up = up' ∧ base = base' := by
  have hle := h'.longest base (h.split ▸ List.suffix_append _ _) h.suffix
  have hge := h.longest base' (h'.split ▸ List.suffix_append _ _) h'.suffix
  have hbase : base = base' := hle.eq_of_length_le hge.length_le
  subst hbase
  exact ⟨List.reverse_injective (List.append_cancel_right (h.split.symm.trans h'.split)), rfl⟩

theorem Route.length_le {l : List Hash} (hn : Named f) (h : Route f g k r)
    (hl : ∀ k, (f k).isSome → k ∈ l) : r.length ≤ l.length := by
  have hsub : r.map Link.hash ⊆ l := by
    intro a ha
    obtain ⟨y, hy, rfl⟩ := List.mem_map.mp ha
    obtain ⟨t, s, hr⟩ := List.append_of_mem hy
    exact hl _ (by rw [(h.of_suffix hn ⟨t, hr.symm⟩).found]; rfl)
  simpa using (List.subperm_of_subset (h.nodup hn) hsub).length_le

end HeaderChain
