import HeaderChain.Proofs.Paths

/-!
# The last ancestor that two headers share

Two headers with a place share the part of their routes that both have. The path from the last
header of that part up to one of them is found by walking down from both until they meet, first from
the higher one alone and then from both together. Between two blocks of the best chain it is what
lies between them there.
-/

namespace HeaderChain

variable {s : Store} {n : Network} {links b r r' t u up base : List Link} {f : Forest}
variable {g j k : Hash} {start target : Position} {x y : Link} {h : Header}

/-- The last one of the ancestors that two headers share. -/
structure Meets (f : Forest) (g a j k : Hash) : Prop where
  left : Ancestor f g a j
  right : Ancestor f g a k
  last : ∀ b, Ancestor f g b j → Ancestor f g b k → Ancestor f g b a

/-- A longer route forks where its part of the height of the other route does. -/
theorem Forks.append (h : Forks t r up base) (hlen : t.length = r.length) (u : List Link) :
    Forks (u.reverse ++ t) r (up ++ u) base := by
  refine ⟨?_, h.suffix, fun v hv hvr => h.longest v ?_ hvr⟩
  · rw [List.reverse_append, List.append_assoc, ← h.split]
  · exact List.suffix_of_suffix_length_le hv (List.suffix_append _ _) (hlen ▸ hvr.length_le)

theorem Forks.meets (hn : Named f) (hj : Route f g j r) (hk : Route f g k r')
    (h : Forks r' r up (x :: base)) : Meets f g x.hash j k := by
  have hx := hj.of_suffix hn h.suffix
  refine ⟨⟨_, _, hx, hj, h.suffix⟩, ⟨_, _, hx, hk, h.split ▸ List.suffix_append _ _⟩, ?_⟩
  rintro b ⟨t, _, ht, hj', htj⟩ ⟨t', _, ht', hk', htk⟩
  rw [hj'.unique hj] at htj
  rw [hk'.unique hk, ht'.unique ht] at htk
  exact ⟨t, x :: base, ht, hx, h.longest t htk htj⟩

/-! ## Reading -/

theorem Store.load_of_header? (hk : s.header? k = some h) : s.load k = .ok h := by
  unfold Store.header? at hk
  cases hload : s.load k with
  | error cause => simp [hload, Except.toOption] at hk
  | ok h' =>
    rw [hload] at hk
    cases hk
    rfl

namespace Store.Founded

variable (hs : s.Founded n links b)

include hs

theorem load_of_none (hk : s.header? k = none) : s.load k = .error (.unknownHeader k) := by
  have hnone := hs.hasHeader_eq k
  rw [hk, Store.hasHeader, contains_eq, Option.isSome_none, Option.isSome_eq_false_iff] at hnone
  unfold Store.load
  rw [Option.isNone_iff_eq_none.mp hnone]

theorem connected_cases (k : Hash) :
    (∃ x r, Route (forestOf s.header?) n.genesisHash k (x :: r) ∧
      s.connected k = .ok (x.placed s.checkpoint r)) ∨
    (∀ r, ¬ Route (forestOf s.header?) n.genesisHash k r) ∧
      (s.connected k = .error (.store (.unknownHeader k)) ∨
        s.connected k = .error (.notConnected (.waiting k))) := by
  unfold Store.connected
  cases hk : s.header? k with
  | none =>
    refine .inr ⟨fun r hr => ?_, .inl (by rw [hs.load_of_none hk])⟩
    obtain ⟨x, hx, -⟩ := hs.connected_iff.mpr ⟨r, hr⟩
    rw [hk] at hx
    cases hx
  | some h =>
    rw [load_of_header? hk]
    cases hplace : h.isDisconnected with
    | true =>
      exact .inr ⟨(hs.exact.isDisconnected_iff hk).mp hplace, .inr (by simp [hplace])⟩
    | false =>
      obtain ⟨r, hr, hplaced⟩ := hs.exact.route_of_connected hk hplace
      exact .inl ⟨_, r, hr, by simp [hplace, ← hplaced]⟩

theorem connected_of_route (hr : Route (forestOf s.header?) n.genesisHash k (x :: r)) :
    s.connected k = .ok (x.placed s.checkpoint r) := by
  unfold Store.connected
  rw [load_of_header? (hs.exact.placed hr)]
  simp

theorem parentOf_placed (hr : Route (forestOf s.header?) n.genesisHash k (x :: y :: r)) :
    s.parentOf (x.placed s.checkpoint (y :: r)) = .ok (y.placed s.checkpoint r) := by
  unfold Store.parentOf
  rw [parent_placed, load_of_header? (hs.exact.placed hr.parent.2)]
  rfl

theorem length_lt_bound (hr : Route (forestOf s.header?) n.genesisHash k r) :
    r.length < s.bound := by
  have hlt := Draft.length_route_lt (d := { base := s }) (by
    rw [Draft.header?_mk]
    exact hs.exact.named) (by
    rw [Draft.header?_mk]
    exact hr)
  simpa [Draft.bound, Store.bound] using hlt

/-! ## The walk down from both -/

/-- Two headers of one height go down together until they meet, at genesis at the latest. -/
theorem meet_spec (failure : ChainError) {bound : ℕ}
    (hk : Route (forestOf s.header?) n.genesisHash k (y :: t))
    (hj : Route (forestOf s.header?) n.genesisHash j (x :: u)) (hlen : t.length = u.length)
    (hbound : t.length < bound) :
    ∃ up base z, Forks (y :: t) (x :: u) up (z :: base) ∧
      s.meet failure bound (y.placed s.checkpoint t) (x.placed s.checkpoint u) =
        .ok (ascend base (z :: up)).reverse := by
  obtain ⟨bound, rfl⟩ : ∃ m, bound = m + 1 := ⟨bound - 1, by omega⟩
  induction t generalizing k j x y u bound with
  | nil =>
    obtain rfl := List.length_eq_zero_iff.mp hlen.symm
    have hsame : [y] = [x] := (hk.singleton_suffix hj).eq_of_length rfl
    cases hsame
    exact ⟨[], [], x, .of_suffix (List.suffix_refl _), by simp [Store.meet, ascend]⟩
  | cons y' t ih =>
    obtain ⟨x', u, rfl⟩ := List.exists_cons_of_length_eq_add_one hlen.symm
    by_cases hhash : y.hash = x.hash
    · have hsame : k = j := by
        rw [← hk.hash_eq hs.exact.named, hhash, hj.hash_eq hs.exact.named]
      subst hsame
      cases hk.unique hj
      exact ⟨[], y' :: t, x, .of_suffix (List.suffix_refl _), by simp [Store.meet, ascend]⟩
    · obtain ⟨bound, rfl⟩ : ∃ m, bound = m + 1 := ⟨bound - 1, by simp at hbound; omega⟩
      obtain ⟨up, base, z, hforks, hmeet⟩ := ih hk.parent.2 hj.parent.2
        (by simpa using hlen) bound (by simpa using hbound)
      refine ⟨up ++ [y], base, z, ⟨by simp [hforks.split], ?_, ?_⟩, ?_⟩
      · exact hforks.suffix.trans (List.suffix_cons _ _)
      · intro v hv hv'
        rcases List.suffix_cons_iff.mp hv with rfl | hv
        · have hsame := hv'.eq_of_length (by simpa using hlen)
          exact absurd (congrArg Link.hash (List.cons.inj hsame).1) hhash
        · apply hforks.longest v hv
          rcases List.suffix_cons_iff.mp hv' with rfl | hv'
          · have hle := hv.length_le
            simp only [List.length_cons] at hle hlen
            omega
          · exact hv'
      · have hheight : ¬ ((y' :: t).length : Height) ≤ 0 := by simp
        rw [Store.meet, hash_placed, hash_placed, height_placed, if_neg hhash, if_neg hheight,
          hs.parentOf_placed hk, hs.parentOf_placed hj]
        simp only [bind, Except.bind, hmeet]
        have hsplit : (y' :: t) = up.reverse ++ z :: base := hforks.split
        rw [← List.cons_append, ascend_append]
        simp [ascend, hsplit, pure, Except.pure]

/-- The walk from a header down to the height of another one ends just there. -/
theorem trace_level (x : Link) (hk : Route (forestOf s.header?) n.genesisHash k (y :: t))
    (hle : u.length ≤ t.length) :
    ∃ w up base z, Trace.run (.contradiction (.endless (y.placed s.checkpoint t).position))
        (fun hash => (s.load hash).mapError ChainError.store)
        (fun h => h.height ≤ (x.placed s.checkpoint u).height) s.bound (y.placed s.checkpoint t) =
          .ok w ∧
      y :: t = up.reverse ++ z :: base ∧ w.passed = (ascend (z :: base) up).reverse ∧
      w.last = z.placed s.checkpoint base ∧ base.length = u.length := by
  have hread (k : Hash) (x : Link) (r : List Link)
      (hr : Route (forestOf s.header?) n.genesisHash k (x :: r)) :
      (s.load k).mapError ChainError.store = .ok (x.placed s.checkpoint r) := by
    rw [load_of_header? (hs.exact.placed hr)]
    rfl
  have hlen := hs.length_lt_bound hk
  rw [List.length_cons] at hlen
  obtain ⟨w, hw, up, base, z, hsplit, hpassed, hlast, hmet, habove⟩ :=
    Trace.run_route (.contradiction (.endless (y.placed s.checkpoint t).position))
      (fun h => h.height ≤ (x.placed s.checkpoint u).height) hread (by simp) hk
      (show t.length ≤ s.bound by omega)
  refine ⟨w, up, base, z, hw, hsplit, hpassed, hlast, ?_⟩
  apply le_antisymm
  · rw [hlast] at hmet
    simpa using hmet
  · by_contra hlt
    obtain ⟨v, l, hl, hllen⟩ := exists_suffix_of_lt (r := y :: t) (n := u.length) (by
      rw [List.length_cons]
      omega)
    have hstop := habove v l hl (by omega)
    simp [hllen] at hstop

/-- The walk from the higher header goes down to the height of the other one first, and on with it
until both meet. -/
theorem treePath_spec (hj : Route (forestOf s.header?) n.genesisHash start.hash (x :: u))
    (hk : Route (forestOf s.header?) n.genesisHash target.hash (y :: t))
    (hle : u.length ≤ t.length) (limit : ℕ) :
    ∃ up base z, Forks (y :: t) (x :: u) up (z :: base) ∧
      s.treePath start target limit = .ok (front limit (ascend base (z :: up))) := by
  obtain ⟨w, up, base, z, hw, hsplit, hpassed, hlast, hbase⟩ := hs.trace_level x hk hle
  have hroute := hk.of_suffix hs.exact.named ⟨_, hsplit.symm⟩
  have hsquare : base.length < s.bound * s.bound := by
    have hlt := hs.length_lt_bound hroute
    have hle := Nat.le_mul_self s.bound
    rw [List.length_cons] at hlt
    omega
  obtain ⟨up', base', z', hforks, hmeet⟩ :=
    hs.meet_spec (.notConnected (.unrelated start target)) hroute hj hbase hsquare
  refine ⟨up' ++ up, base', z', hsplit ▸ hforks.append (by simp [hbase]) up, ?_⟩
  have hheight : ¬ (x.placed s.checkpoint u).height > (y.placed s.checkpoint t).height := by
    simpa using hle
  have hpath : (w.passed ++ (ascend base' (z' :: up')).reverse).reverse =
      ascend base' (z' :: (up' ++ up)) := by
    rw [hpassed, List.reverse_append, List.reverse_reverse, List.reverse_reverse,
      ← List.cons_append, ascend_append, List.reverse_cons, List.append_assoc,
      List.singleton_append, ← hforks.split]
  unfold Store.treePath
  simp only [hs.connected_of_route hj, hs.connected_of_route hk, bind, Except.bind,
    if_neg hheight, hw, hlast, hmeet, hpath, take_limited, pure, Except.pure]

/-! ## The best chain -/

/-- Between two blocks of the best chain the path is what the walk would find. -/
theorem bestPath_eq (hstart : s.onBest start = true) (htarget : s.onBest target = true)
    (hle : start.height ≤ target.height) (limit : ℕ) :
    s.bestPath start target limit = s.treePath start target limit := by
  obtain ⟨x, u, hu, hlow, hj⟩ := hs.onBest_cases hstart
  obtain ⟨y, t, ht, htop, hk⟩ := hs.onBest_cases htarget
  have hlen : u.length ≤ t.length := by
    rw [hlow, htop] at hle
    exact_mod_cast hle
  obtain ⟨up, base, z, hforks, htree⟩ := hs.treePath_spec hj hk hlen limit
  have hsuffix : x :: u <:+ y :: t :=
    List.suffix_of_suffix_length_le hu ht (by simpa using hlen)
  have hsame : z :: base = x :: u :=
    hforks.suffix.eq_of_length_le (hforks.longest _ hsuffix (List.suffix_refl _)).length_le
  cases hsame
  have hcount : (target.height - start.height + 1).toNat = (x :: up).length := by
    have := congrArg List.length hforks.split
    simp only [List.length_cons, List.length_append, List.length_reverse] at this ⊢
    lia
  have hup : (x :: up).reverse ++ u <:+ b := by
    rw [List.reverse_cons, List.append_assoc, List.singleton_append, ← hforks.split]
    exact ht
  have hbetween : s.bestBetween start.height target.height limit =
      front limit (ascend u (x :: up)) := by
    rw [hlow] at hcount ⊢
    exact hs.bestBetween_eq hup hcount limit
  have hlength : (front limit (ascend u (x :: up))).length = limited limit (x :: up).length := by
    rw [← length_ascend u (x :: up)]
    unfold front limited
    split_ifs
    · rfl
    · exact List.length_take
  unfold Store.bestPath
  rw [htree, hbetween, hcount]
  simp only [hlength, if_pos]

/-- The best chain is a short cut: where it is not taken, the walk finds the same. -/
theorem ancestors_eq (hle : start.height ≤ target.height) (limit : ℕ) :
    s.ancestors start target limit = s.treePath start target limit := by
  unfold Store.ancestors
  rw [if_neg (not_lt.mpr hle)]
  split_ifs with hboth
  · rw [Bool.and_eq_true] at hboth
    exact hs.bestPath_eq hboth.1 hboth.2 hle limit
  · rfl

end Store.Founded

/-! ## Paths that are asked for -/

/-- Both hashes are those of stored headers with a place, and the first one is not the higher. -/
def Store.Comparable (s : Store) (j k : Hash) : Prop :=
  ∃ x y, s.header? j = some x ∧ x.isDisconnected = false ∧ s.header? k = some y ∧
    y.isDisconnected = false ∧ x.height ≤ y.height

/-- A header of the two is not stored or has no place, or the first one is the higher. -/
def Store.Refused (j k : Hash) (cause : ChainError) : Prop :=
  (∃ m, (m = j ∨ m = k) ∧
    (cause = .store (.unknownHeader m) ∨ cause = .notConnected (.waiting m))) ∨
  ∃ p q, cause = .invalidPosition p q

namespace Store.Founded

variable (hs : s.Founded n links b)

include hs

theorem comparable_iff : s.Comparable j k ↔ ∃ x u y t,
    Route (forestOf s.header?) n.genesisHash j (x :: u) ∧
      Route (forestOf s.header?) n.genesisHash k (y :: t) ∧ u.length ≤ t.length := by
  constructor
  · rintro ⟨x, y, hx, hplace, hy, hplace', hle⟩
    obtain ⟨u, hu, hxu⟩ := hs.exact.route_of_connected hx hplace
    obtain ⟨t, ht, hyt⟩ := hs.exact.route_of_connected hy hplace'
    rw [hxu, hyt, height_placed, height_placed, Nat.cast_le] at hle
    exact ⟨_, u, _, t, hu, ht, hle⟩
  · rintro ⟨x, u, y, t, hu, ht, hle⟩
    exact ⟨_, _, hs.exact.placed hu, isDisconnected_placed, hs.exact.placed ht,
      isDisconnected_placed, by simpa using hle⟩

theorem comparable_of_onBest (hstart : s.onBest start = true) (htarget : s.onBest target = true)
    (hle : start.height ≤ target.height) : s.Comparable start.hash target.hash := by
  obtain ⟨x, u, -, hlow, hj⟩ := hs.onBest_cases hstart
  obtain ⟨y, t, -, htop, hk⟩ := hs.onBest_cases htarget
  rw [hlow, htop, Nat.cast_le] at hle
  exact hs.comparable_iff.mpr ⟨x, u, y, t, hj, hk, hle⟩

theorem treePath_ok (hcompare : s.Comparable start.hash target.hash) (limit : ℕ) :
    ∃ a path, Meets (forestOf s.header?) n.genesisHash a start.hash target.hash ∧
      s.Leads a target.hash path ∧ s.treePath start target limit = .ok (front limit path) := by
  obtain ⟨x, u, y, t, hj, hk, hle⟩ := hs.comparable_iff.mp hcompare
  obtain ⟨up, base, z, hforks, htree⟩ := hs.treePath_spec hj hk hle limit
  refine ⟨z.hash, _, hforks.meets hs.exact.named hj hk, ?_, htree⟩
  rw [hforks.split] at hk
  exact hs.leads_ascend hk

theorem treePath_error (hcompare : ¬ s.Comparable start.hash target.hash) (limit : ℕ) :
    ∃ cause, s.treePath start target limit = .error cause ∧
      Store.Refused start.hash target.hash cause := by
  unfold Store.treePath
  rcases hs.connected_cases start.hash with ⟨x, u, hj, hother⟩ | ⟨-, hother | hother⟩
  · rcases hs.connected_cases target.hash with ⟨y, t, hk, hcursor⟩ | ⟨-, hcursor | hcursor⟩
    · have hlt : (x.placed s.checkpoint u).height > (y.placed s.checkpoint t).height := by
        by_contra hle
        apply hcompare
        exact hs.comparable_iff.mpr ⟨x, u, y, t, hj, hk, by simpa using hle⟩
      refine ⟨_, ?_, .inr ⟨(x.placed s.checkpoint u).position, (y.placed s.checkpoint t).position,
        rfl⟩⟩
      simp only [hother, hcursor, bind, Except.bind, if_pos hlt]
      rfl
    · refine ⟨_, ?_, .inl ⟨_, .inr rfl, .inl rfl⟩⟩
      simp only [hother, hcursor, bind, Except.bind]
    · refine ⟨_, ?_, .inl ⟨_, .inr rfl, .inr rfl⟩⟩
      simp only [hother, hcursor, bind, Except.bind]
  · refine ⟨_, ?_, .inl ⟨_, .inl rfl, .inl rfl⟩⟩
    simp only [hother, bind, Except.bind]
  · refine ⟨_, ?_, .inl ⟨_, .inl rfl, .inr rfl⟩⟩
    simp only [hother, bind, Except.bind]

end Store.Founded

/-- Two positions that are asked for in their order by height get the path from the last ancestor
that their headers share up to the second, under the limit; there is no other such path. It does not
matter whether the best chain is taken or the walk over parents. Without a path they are refused for
a header that is not stored or has no place, or since the first one is the higher. -/
theorem History.ancestors_exact (h : History) (n : Network) (start target : Position) (limit : ℕ) :
    (target.height < start.height →
      (h.store n).ancestors start target limit = .error (.invalidPosition start target)) ∧
    (start.height ≤ target.height →
      (((h.store n).onBest start = true ∧ (h.store n).onBest target = true) ∨
        (h.store n).Comparable start.hash target.hash) →
      ∃ a path, Meets (forestOf (h.store n).header?) n.genesisHash a start.hash target.hash ∧
        (h.store n).Leads a target.hash path ∧
        (∀ path', (h.store n).Leads a target.hash path' → path' = path) ∧
        (h.store n).ancestors start target limit = .ok (front limit path)) ∧
    (start.height ≤ target.height →
      ¬ ((h.store n).onBest start = true ∧ (h.store n).onBest target = true) →
      ¬ (h.store n).Comparable start.hash target.hash →
      ∃ cause, (h.store n).ancestors start target limit = .error cause ∧
        Store.Refused start.hash target.hash cause) ∧
    (start.height ≤ target.height → (h.store n).onBest start = true →
      (h.store n).onBest target = true →
      (h.store n).bestPath start target limit = (h.store n).treePath start target limit) ∧
    ∀ cause, (h.store n).ancestors start target limit = .error cause →
      (∀ p q, cause ≠ .notConnected (.unrelated p q)) ∧ ∀ c, cause ≠ .contradiction c := by
  obtain ⟨b, hs⟩ := h.store_founded n
  have habove (hlt : target.height < start.height) :
      (h.store n).ancestors start target limit = .error (.invalidPosition start target) := by
    unfold Store.ancestors
    rw [if_pos hlt]
  have hrefused (hle : start.height ≤ target.height)
      (hnot : ¬ (h.store n).Comparable start.hash target.hash) :
      ∃ cause, (h.store n).ancestors start target limit = .error cause ∧
        Store.Refused start.hash target.hash cause := by
    rw [hs.ancestors_eq hle]
    exact hs.treePath_error hnot limit
  refine ⟨habove, ?_, fun hle _ => hrefused hle, fun hle hstart htarget =>
    hs.bestPath_eq hstart htarget hle limit, ?_⟩
  · intro hle hsound
    have hcompare : (h.store n).Comparable start.hash target.hash :=
      hsound.elim (fun hboth => hs.comparable_of_onBest hboth.1 hboth.2 hle) id
    obtain ⟨a, path, hmeets, hleads, htree⟩ := hs.treePath_ok hcompare limit
    rw [hs.ancestors_eq hle]
    exact ⟨a, path, hmeets, hleads, fun _ hleads' => hleads'.unique hleads, htree⟩
  · intro cause hcause
    rcases lt_or_ge target.height start.height with hlt | hle
    · cases (habove hlt).symm.trans hcause
      exact ⟨fun _ _ => by simp, fun _ => by simp⟩
    · by_cases hcompare : (h.store n).Comparable start.hash target.hash
      · obtain ⟨a, path, -, -, htree⟩ := hs.treePath_ok hcompare limit
        rw [hs.ancestors_eq hle, htree] at hcause
        cases hcause
      · obtain ⟨cause', hfails, hwhy⟩ := hrefused hle hcompare
        cases hfails.symm.trans hcause
        rcases hwhy with ⟨m, -, rfl | rfl⟩ | ⟨p, q, rfl⟩ <;> simp

end HeaderChain
