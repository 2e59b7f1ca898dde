import HeaderChain.Proofs.Contenders

/-!
# Adopting a path

The winning path is given as positions upward from a part of the best chain. What is on the best
chain already is passed over; the first other position cuts the chain back, unless the path
continues it; all after that are put on top. In the end the best chain is the route of the path's
last header, and what is on it is no sibling any more.
-/

namespace HeaderChain.Draft

/-- When the best chain `b` of `d` makes room for `r`, it is cut back no lower than they part. -/
def Spares (d : Draft) (b r : List Link) (e : Draft) : Prop :=
  ∀ q, e.ancestor = some q → d.ancestor = some q ∨
    ∀ t, t <:+ b → t <:+ r → (t.length : Height) ≤ q.height + 1

/-- Adopting the links of `r` changes the draft `d`, whose best chain was `b`, into `e`. -/
structure Adopted (d : Draft) (b r : List Link) (rewound : Bool) (e : Draft) : Prop where
  sameTree : d.SameTree e
  follows : e.Follows r
  rewound : rewound = true ↔ ¬ b <:+ r
  spares : d.Spares b r e
  isSibling : ∀ k, e.isSibling k = true ↔ d.isSibling k = true ∧ ∀ x ∈ r, x.hash ≠ k

def Free (d : Draft) (r : List Link) : Prop := ∀ k, d.isSibling k = true → ∀ x ∈ r, x.hash ≠ k

variable {d e : Draft} {g k : Hash} {b r s up : List Link} {x y : Link} {c p current : Position}

theorem spares_of_ancestor (h : e.ancestor = d.ancestor) : d.Spares b r e := by
  intro q hq
  exact .inl (h ▸ hq)

theorem Spares.congr {d' : Draft} (h : d'.ancestor = d.ancestor) (hs : d'.Spares b r e) :
    d.Spares b r e := by
  unfold Spares at hs
  rwa [h] at hs

/-- Cutting the best chain back to the top of `y :: s` spares it when the new one has no more of
it. -/
theorem spares_rewind (he : e.ancestor = (d.rewind ⟨s.length, y.hash⟩).ancestor)
    (hpart : ∀ t, t <:+ b → t <:+ r → t.length ≤ s.length + 1) : d.Spares b r e := by
  intro q hq
  rw [he] at hq
  change (if _ then some _ else d.ancestor) = some q at hq
  split_ifs at hq
  · cases hq
    right
    intro t hb hr
    have hlen := hpart t hb hr
    lia
  · exact .inl hq

/-! ## Enlisting -/

theorem sameTree_enlist (d : Draft) (p : Position) : d.SameTree (d.enlist p) := by
  rw [enlist]
  split_ifs
  · exact (d.sameTree_removeSibling p.hash).trans (sameTree_extend _ p)
  · exact d.sameTree_extend p

theorem isSibling_enlist :
    (d.enlist p).isSibling k = true ↔ p.hash ≠ k ∧ d.isSibling k = true := by
  rw [enlist]
  change (if d.isSibling p.hash then d.removeSibling p.hash else d).isSibling k = true ↔ _
  rw [isSibling_leave, and_comm]

theorem Follows.enlist (h : d.Follows (y :: b)) :
    (d.enlist ⟨(y :: b).length, x.hash⟩).Follows (x :: y :: b) := by
  refine (h.extend (x := x)).congr ?_ ?_ ?_
  all_goals
    unfold Draft.enlist
    split_ifs <;> rfl

theorem ancestor_enlist (d : Draft) (p : Position) : (d.enlist p).ancestor = d.ancestor := by
  unfold enlist
  split_ifs <;> rfl

theorem free_enlist (h : d.Free s) : (d.enlist ⟨s.length, x.hash⟩).Free (x :: s) := by
  intro k hk z hz
  obtain ⟨hx, hk⟩ := isSibling_enlist.mp hk
  rcases List.mem_cons.mp hz with rfl | hz
  · exact hx
  · exact h k hk z hz

/-! ## The walk up the path -/

theorem adopt_above (current : Position) (rewound : Bool) (up : List Link)
    (hd : d.Follows (y :: s)) (hs : d.Free (y :: s))
    (hover : rewound = true ∨ current.height < (y :: s).length) :
    ∃ e, adopt current d rewound (ascend (y :: s) up) = .ok (rewound, e) ∧ d.SameTree e ∧
      e.ancestor = d.ancestor ∧ e.Follows (up.reverse ++ y :: s) ∧
      ∀ k, e.isSibling k = true ↔
        d.isSibling k = true ∧ ∀ z ∈ up.reverse ++ y :: s, z.hash ≠ k := by
  induction up generalizing d y s with
  | nil =>
    refine ⟨d, rfl, .refl d, rfl, hd, fun k => ⟨fun hk => ⟨hk, hs k hk⟩, And.left⟩⟩
  | cons x up ih =>
    have hnext : (d.enlist ⟨(y :: s).length, x.hash⟩).Follows (x :: y :: s) := hd.enlist
    obtain ⟨e, he, htree, hancestor, hfollows, hsiblings⟩ := ih hnext (free_enlist hs)
      (hover.imp_right fun h => h.trans (by simp))
    refine ⟨e, ?_, (sameTree_enlist d _).trans htree, hancestor.trans (ancestor_enlist d _),
      by simpa using hfollows, fun k => ?_⟩
    · have hskip : (!rewound && decide (((y :: s).length : Height) ≤ current.height)) = false := by
        rcases hover with rfl | hlt
        · rfl
        · simp only [Bool.and_eq_false_iff, decide_eq_false_iff_not, not_le]
          exact .inr hlt
      rw [ascend, adopt, hskip]
      exact he
    · rw [hsiblings, isSibling_enlist]
      simp only [List.reverse_cons, List.append_assoc, List.cons_append, List.nil_append]
      constructor
      · rintro ⟨⟨-, hk⟩, hall⟩
        exact ⟨hk, hall⟩
      · rintro ⟨hk, hall⟩
        exact ⟨⟨hall x (by simp), hk⟩, hall⟩

/-- The first position off the best chain cuts it back, and is put on top with all after it. -/
theorem adopt_off (current : Position) (up : List Link) (ht : Exact d.header? g c)
    (hb : Route (forestOf d.header?) g k b) (hd : d.Follows b) (hs : d.Free b)
    (hsuffix : y :: s <:+ b) (hlow : (y :: s).length < b.length)
    (hle : ((y :: s).length : Height) ≤ current.height)
    (hx : Route (forestOf d.header?) g x.hash (x :: y :: s)) (hon : ¬ x :: y :: s <:+ b) :
    ∃ e, adopt current d false (ascend (y :: s) (x :: up)) = .ok (true, e) ∧
      Adopted d b (up.reverse ++ x :: y :: s) true e := by
  have hparent : x.parent = y.hash := (hx.parent.2.hash_eq ht.named).symm
  have hheight : ((y :: s).length : Height) - 1 = s.length := by simp
  have hcut := hd.rewind hsuffix
  have hfree : (d.rewind ⟨s.length, y.hash⟩).Free (y :: s) :=
    fun k hk z hz => hs k hk z (hsuffix.subset hz)
  have hnext : ((d.rewind ⟨s.length, y.hash⟩).enlist ⟨(y :: s).length, x.hash⟩).Follows
      (x :: y :: s) := hcut.enlist
  obtain ⟨e, he, htree, hancestor, hfollows, hsiblings⟩ :=
    adopt_above current true up hnext (free_enlist hfree) (.inl rfl)
  refine ⟨e, ?_, ?_⟩
  · rw [ascend, adopt]
    simp only [Bool.not_false, Bool.true_and, decide_eq_true_eq, hle, if_true]
    rw [if_neg fun h => hon ((hx.mem_positions_iff ht.named hb).mp (hd.onBest_iff.mp h))]
    -- The header tells the position that the chain is cut back to.
    simp only [header_eq (ht.placed hx), bind, Except.bind, parent_placed, hparent, hheight]
    exact he
  constructor
  case sameTree => exact ((sameTree_rewind d _).trans (sameTree_enlist _ _)).trans htree
  case follows => exact hfollows
  case rewound =>
    refine ⟨fun _ hbr => hon ?_, fun _ => rfl⟩
    exact List.suffix_of_suffix_length_le (List.suffix_append _ _) hbr hlow
  case spares =>
    refine spares_rewind (hancestor.trans (ancestor_enlist _ _)) ?_
    intro t htb htr
    -- A longer part of both would reach up to the link that is not on the best chain.
    by_contra hlong
    have hreach : x :: y :: s <:+ t := List.suffix_of_suffix_length_le (List.suffix_append _ _) htr
      (by simp only [List.length_cons]; omega)
    exact hon (hreach.trans htb)
  case isSibling =>
    intro k
    rw [hsiblings, isSibling_enlist]
    constructor
    · rintro ⟨⟨-, hk⟩, hall⟩
      exact ⟨hk, hall⟩
    · rintro ⟨hk, hall⟩
      exact ⟨⟨hall x (by simp), hk⟩, hall⟩

/-- Adopting a path upward from a part of the best chain makes its route the best chain. -/
theorem adopt_spec (current : Position) (ht : Exact d.header? g c)
    (hb : Route (forestOf d.header?) g k b) (hd : d.Follows b) (hs : d.Free b)
    (hcurrent : current.height + 1 = b.length) (hsuffix : y :: s <:+ b) {j : Hash}
    (hr : Route (forestOf d.header?) g j (up.reverse ++ y :: s))
    (hend : up.reverse ++ y :: s <:+ b → up.reverse ++ y :: s = b) :
    ∃ rewound e, adopt current d false (ascend (y :: s) up) = .ok (rewound, e) ∧
      Adopted d b (up.reverse ++ y :: s) rewound e := by
  induction up generalizing y s with
  | nil =>
    have heq : y :: s = b := hend hsuffix
    refine ⟨false, d, rfl, .refl d, ?_, ?_, spares_of_ancestor rfl, fun k => ?_⟩
    · simpa [heq] using hd
    · simp [heq]
    · simp only [List.reverse_nil, List.nil_append, heq]
      exact ⟨fun hk => ⟨hk, hs k hk⟩, And.left⟩
  | cons x up ih =>
    have hsame : (x :: up).reverse ++ y :: s = up.reverse ++ x :: y :: s := by simp
    rw [hsame] at hr hend ⊢
    have hx : Route (forestOf d.header?) g x.hash (x :: y :: s) := hr.of_suffix ht.named (by simp)
    by_cases hlow : (y :: s).length < b.length
    · have hle : ((y :: s).length : Height) ≤ current.height := by lia
      by_cases hon : x :: y :: s <:+ b
      · rw [ascend, adopt]
        simp only [Bool.not_false, Bool.true_and, decide_eq_true_eq, hle, if_true]
        rw [if_pos (hd.onBest_iff.mpr ((hx.mem_positions_iff ht.named hb).mpr hon))]
        exact ih hon hr hend
      · exact ⟨true, adopt_off current up ht hb hd hs hsuffix hlow hle hx hon⟩
    · have heq : y :: s = b := hsuffix.eq_of_length_le (not_lt.mp hlow)
      rw [← heq] at hd hs hcurrent
      obtain ⟨e, he, htree, hancestor, hfollows, hsiblings⟩ :=
        adopt_above current false (x :: up) hd hs (.inr (by lia))
      rw [hsame] at hfollows hsiblings
      refine ⟨false, e, he, htree, hfollows, ?_, spares_of_ancestor hancestor, hsiblings⟩
      rw [← heq]
      simp only [Bool.false_eq_true, false_iff, not_not]
      exact ⟨up.reverse ++ [x], by simp⟩

end HeaderChain.Draft
