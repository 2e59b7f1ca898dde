import HeaderChain.Draft
import Mathlib.Tactic

/-!
# What a draft shows

The lists that scans give have exactly the members that the tests for one member accept: in a
store because keys are ordered, in a draft because added and removed members are never the same.
They are in ascending order, so stores and drafts that accept the same members show the same lists.
-/

namespace HeaderChain

/-! ## Ascending lists -/

abbrev Ascending {α : Type} [Ord α] (l : List α) : Prop := l.Pairwise fun a b => compare a b = .lt

section Ascending

variable {α : Type} [Ord α] [Std.TransOrd α] [Std.LawfulEqOrd α] {l l' : List α}

omit [Std.TransOrd α] in
theorem Ascending.nodup (h : Ascending l) : l.Nodup := by
  refine h.imp ?_
  intro a b hab heq
  rw [heq, Std.ReflOrd.compare_self] at hab
  cases hab

theorem Ascending.ext (h : Ascending l) (h' : Ascending l') (hmem : ∀ x, x ∈ l ↔ x ∈ l') :
    l = l' := by
  have hperm : l.Perm l' := (List.perm_ext_iff_of_nodup h.nodup h'.nodup).mpr hmem
  refine hperm.eq_of_pairwise ?_ h h'
  intro a b _ _ hab hba
  exact absurd hba (Std.OrientedCmp.not_lt_of_lt hab)

end Ascending

/-! ## Scans -/

theorem takeWhile_eq_filter {α : Type} {p : α → Bool} {l : List α}
    (h : l.Pairwise fun a b => p b = true → p a = true) : l.takeWhile p = l.filter p := by
  induction l with
  | nil => rfl
  | cons a l ih =>
    obtain ⟨ha, hl⟩ := List.pairwise_cons.mp h
    cases hp : p a with
    | true => simp [hp, ih hl]
    | false =>
      have hnone : l.filter p = [] := by
        rw [List.filter_eq_nil_iff]
        intro b hb hpb
        simp [ha b hb hpb] at hp
      simp [hp, hnone]

/-- Between a byte string and one that it begins, all begin with it. -/
theorem isPrefixOf_of_between {front a b : Bytes} (ha : (compare a front).isGE)
    (hab : compare a b = .lt) (hb : front.isPrefixOf b = true) : front.isPrefixOf a = true := by
  induction front generalizing a b with
  | nil => simp
  | cons u front ih =>
    cases b with
    | nil => simp at hb
    | cons w b =>
      cases a with
      | nil => simp at ha
      | cons v a =>
        simp only [List.isPrefixOf, Bool.and_eq_true, beq_iff_eq] at hb ⊢
        obtain ⟨rfl, hb⟩ := hb
        simp only [List.compare_cons_cons] at ha hab
        cases hv : compare v u with
        | lt => simp [hv] at ha
        | eq =>
          rw [hv] at ha hab
          exact ⟨(Std.LawfulEqOrd.eq_of_compare hv).symm, ih ha hab hb⟩
        | gt => simp [hv] at hab

theorem isGE_compare_append (front rest : Bytes) : (compare (front ++ rest) front).isGE := by
  induction front with
  | nil => exact List.isGE_compare_nil_right
  | cons u front ih => simpa using ih

theorem compare_replicate_zero (bytes : Bytes) :
    (compare (List.replicate bytes.length 0) bytes).isLE := by
  induction bytes with
  | nil => rfl
  | cons b bytes ih =>
    rw [List.length_cons, List.replicate_succ, List.compare_cons_cons]
    cases hb : compare 0 b with
    | lt => rfl
    | eq => exact ih
    | gt =>
      have hle : (0 : UInt8) ≤ b := UInt8.le_iff_toNat_le.mpr (Nat.zero_le _)
      rw [← Std.isLE_compare, hb] at hle
      exact absurd hle (by simp)

theorem compare_append {a b : Bytes} (h : a.length = b.length) (c d : Bytes) :
    compare (a ++ c) (b ++ d) = (compare a b).then (compare c d) := by
  induction a generalizing b with
  | nil =>
    rw [List.eq_nil_of_length_eq_zero h.symm]
    rfl
  | cons u a ih =>
    cases b with
    | nil => simp at h
    | cons v b =>
      rw [List.cons_append, List.cons_append, List.compare_cons_cons, List.compare_cons_cons,
        ih (Nat.succ.inj h), Ordering.then_assoc]

namespace Edge

/-- Edges are ordered as their bytes are. -/
theorem compare_eq (a b : Edge) : compare a b = compare a.bytes b.bytes := by
  rw [bytes, bytes, compare_append (by rw [a.parent.length_bytes, b.parent.length_bytes])]
  rfl

theorem ofBytes?_eq_some {e : Edge} {bytes : Bytes} :
    ofBytes? bytes = some e ↔ e.bytes = bytes := by
  constructor
  · intro h
    unfold ofBytes? at h
    split at h
    · cases h
      exact List.take_append_drop 32 bytes
    · cases h
  · rintro rfl
    exact ofBytes?_bytes e

end Edge

namespace Store

def isWaiting (s : Store) (e : Edge) : Bool := s.contains (.edge e)

theorem contains_eq (s : Store) (key : Key) : s.contains key = (s.get? key).isSome :=
  Std.TreeMap.contains_eq_isSome_getElem?

theorem isSome_get?_of_header? {s : Store} {k : Hash} (h : (s.header? k).isSome) :
    (s.get? (.header k)).isSome := by
  unfold header? load at h
  cases hk : s.get? (.header k) with
  | none => simp [hk, Except.toOption] at h
  | some record => rfl

theorem header?_congr {s s' : Store} {k : Hash} (h : s'.get? (.header k) = s.get? (.header k)) :
    s'.header? k = s.header? k := by
  simp only [header?, load, h]

theorem scan_eq (s : Store) (front : Bytes) :
    s.scan front = ((s.records.toList.filter fun e => (compare e.1 front).isGE).filter fun e =>
      front.isPrefixOf e.1).map fun e => e.1.drop front.length := by
  have hsorted : (s.records.toList.filter fun e => (compare e.1 front).isGE).Pairwise
      fun a b => front.isPrefixOf b.1 = true → front.isPrefixOf a.1 = true := by
    rw [List.pairwise_filter]
    refine s.records.ordered_keys_toList.imp ?_
    intro a b hab ha _ hb
    exact isPrefixOf_of_between ha hab hb
  simp only [scan, Std.Iter.toList_takeWhile_of_finite, Std.Slice.toList_iter,
    Std.TreeMap.toList_rci, takeWhile_eq_filter hsorted]

theorem mem_scan {s : Store} {front x : Bytes} :
    x ∈ s.scan front ↔ s.records.contains (front ++ x) = true := by
  simp only [scan_eq, List.mem_map, List.mem_filter]
  constructor
  · rintro ⟨⟨key, value⟩, ⟨⟨hmem, _⟩, hfront⟩, rfl⟩
    obtain ⟨rest, rfl⟩ := List.isPrefixOf_iff_prefix.mp hfront
    rw [List.drop_left, Std.TreeMap.contains_eq_isSome_getElem?,
      Std.TreeMap.mem_toList_iff_getElem?_eq_some.mp hmem]
    rfl
  · intro h
    rw [Std.TreeMap.contains_eq_isSome_getElem?] at h
    obtain ⟨value, hv⟩ := Option.isSome_iff_exists.mp h
    refine ⟨(front ++ x, value), ⟨⟨?_, isGE_compare_append front x⟩, ?_⟩, List.drop_left⟩
    · exact Std.TreeMap.mem_toList_iff_getElem?_eq_some.mpr hv
    · exact List.isPrefixOf_iff_prefix.mpr (List.prefix_append front x)

theorem ascending_scan (s : Store) (front : Bytes) : Ascending (s.scan front) := by
  rw [scan_eq, Ascending, List.pairwise_map]
  refine ((s.records.ordered_keys_toList.filter _).filter _).imp_of_mem ?_
  intro a b ha hb hab
  obtain ⟨x, hx⟩ := List.isPrefixOf_iff_prefix.mp (List.mem_filter.mp ha).2
  obtain ⟨y, hy⟩ := List.isPrefixOf_iff_prefix.mp (List.mem_filter.mp hb).2
  rw [← hx, ← hy, compare_append rfl, Std.ReflOrd.compare_self] at hab
  rw [← hx, ← hy, List.drop_left, List.drop_left]
  exact hab

theorem ascending_filterMap_hash {l : List Bytes} (h : Ascending l) :
    Ascending (l.filterMap Hash.ofBytes?) := by
  rw [Ascending, List.pairwise_filterMap]
  refine h.imp ?_
  intro x y hxy a ha b hb
  rw [← Hash.ofBytes?_eq_some.mp ha, ← Hash.ofBytes?_eq_some.mp hb] at hxy
  exact hxy

theorem ascending_siblings (s : Store) : Ascending s.siblings :=
  ascending_filterMap_hash (s.ascending_scan _)

theorem ascending_waitingFor (s : Store) (parent : Hash) : Ascending (s.waitingFor parent) :=
  ascending_filterMap_hash (s.ascending_scan _)

theorem ascending_waiting (s : Store) : Ascending s.waiting := by
  rw [Ascending, waiting, List.pairwise_filterMap]
  refine (s.ascending_scan Key.edges).imp ?_
  intro x y hxy a ha b hb
  rwa [Edge.compare_eq, Edge.ofBytes?_eq_some.mp ha, Edge.ofBytes?_eq_some.mp hb]

@[simp] theorem mem_siblings {s : Store} {k : Hash} : k ∈ s.siblings ↔ s.isSibling k = true := by
  simp only [siblings, List.mem_filterMap, Hash.ofBytes?_eq_some, mem_scan, isSibling, contains]
  constructor
  · rintro ⟨_, hx, rfl⟩
    exact hx
  · intro h
    exact ⟨_, h, rfl⟩

@[simp] theorem mem_waitingFor {s : Store} {p k : Hash} :
    k ∈ s.waitingFor p ↔ s.isWaiting ⟨p, k⟩ = true := by
  simp only [waitingFor, List.mem_filterMap, Hash.ofBytes?_eq_some, mem_scan, isWaiting, contains,
    Key.bytes, Edge.bytes, List.append_assoc]
  constructor
  · rintro ⟨_, hx, rfl⟩
    exact hx
  · intro h
    exact ⟨_, h, rfl⟩

@[simp] theorem mem_waiting {s : Store} {e : Edge} : e ∈ s.waiting ↔ s.isWaiting e = true := by
  simp only [waiting, List.mem_filterMap, Edge.ofBytes?_eq_some, mem_scan, isWaiting, contains]
  constructor
  · rintro ⟨_, hx, rfl⟩
    exact hx
  · intro h
    exact ⟨_, h, rfl⟩

theorem length_scan_le (s : Store) (front : Bytes) : (s.scan front).length ≤ s.records.size := by
  simp only [scan, Std.Iter.toList_takeWhile_of_finite, Std.Slice.toList_iter,
    Std.TreeMap.toList_rci, List.length_map]
  refine (List.takeWhile_sublist _).length_le.trans ((List.length_filter_le _ _).trans ?_)
  rw [Std.TreeMap.length_toList]

theorem length_waiting_le (s : Store) : s.waiting.length ≤ s.records.size :=
  (List.length_filterMap_le _ _).trans (s.length_scan_le _)

end Store

/-! ## Members -/

theorem Changes.holds_iff {α : Type} [Ord α] [DecidableEq α] [Std.TransOrd α]
    [Std.LawfulEqOrd α] {c : Changes α} {x : α} {before : Bool} :
    c.holds x before = true ↔ x ∈ c.added ∨ before = true ∧ x ∉ c.removed := by
  simp [holds, ← Std.TreeSet.contains_iff_mem, and_comm]

namespace Draft

def isWaiting (d : Draft) (e : Edge) : Bool := d.edges.holds e (d.base.isWaiting e)

@[simp] theorem mem_allSiblings {d : Draft} {k : Hash} :
    k ∈ d.allSiblings ↔ d.isSibling k = true := by
  simp [allSiblings, Changes.mem_apply, isSibling, Changes.holds_iff]

@[simp] theorem mem_waiting {d : Draft} {e : Edge} : e ∈ d.waiting ↔ d.isWaiting e = true := by
  simp [waiting, Changes.mem_apply, isWaiting, Changes.holds_iff]

theorem mem_newlyWaiting {d : Draft} {p k : Hash} :
    k ∈ d.newlyWaiting p ↔ ⟨p, k⟩ ∈ d.edges.added := by
  have hzero (a : Hash) : (compare Hash.zero a).isLE := by
    have h := compare_replicate_zero a.bytes
    rwa [a.length_bytes] at h
  have hsorted : (d.edges.added.toList.filter fun e => (compare e ⟨p, .zero⟩).isGE).Pairwise
      fun a b => decide (b.parent = p) = true → decide (a.parent = p) = true := by
    rw [List.pairwise_filter]
    refine d.edges.added.ordered_toList.imp ?_
    intro a b hab ha _ hb
    rw [decide_eq_true_eq] at hb ⊢
    rw [Edge.compare_def] at hab ha
    rw [hb] at hab
    cases hp : compare a.parent p with
    | lt => simp [hp] at ha
    | eq => exact Std.LawfulEqOrd.eq_of_compare hp
    | gt => simp [hp] at hab
  simp only [newlyWaiting, Std.Iter.toList_takeWhile_of_finite, Std.Slice.toList_iter,
    Std.TreeSet.toList_rci, takeWhile_eq_filter hsorted, List.mem_map, List.mem_filter,
    Std.TreeSet.mem_toList, decide_eq_true_eq]
  constructor
  · rintro ⟨e, ⟨⟨he, _⟩, rfl⟩, rfl⟩
    exact he
  · intro h
    refine ⟨⟨p, k⟩, ⟨⟨h, ?_⟩, rfl⟩, rfl⟩
    have hge : (compare k Hash.zero).isGE := by
      rw [Std.OrientedOrd.eq_swap, Ordering.isGE_swap]
      exact hzero k
    rw [Edge.compare_def, Std.ReflOrd.compare_self]
    exact hge

@[simp] theorem mem_waitingFor {d : Draft} {p k : Hash} :
    k ∈ d.waitingFor p ↔ d.isWaiting ⟨p, k⟩ = true := by
  simp [waitingFor, isWaiting, Changes.holds_iff, mem_newlyWaiting, or_comm,
    ← Std.TreeSet.contains_iff_mem]

theorem ascending_allSiblings (d : Draft) : Ascending d.allSiblings := Std.TreeSet.ordered_toList

theorem ascending_waiting (d : Draft) : Ascending d.waiting := Std.TreeSet.ordered_toList

theorem ascending_waitingFor (d : Draft) (p : Hash) : Ascending (d.waitingFor p) :=
  Std.TreeSet.ordered_toList

theorem nodup_waiting (d : Draft) : d.waiting.Nodup := d.ascending_waiting.nodup

theorem nodup_waitingFor (d : Draft) (p : Hash) : (d.waitingFor p).Nodup :=
  (d.ascending_waitingFor p).nodup

theorem waiting_congr {d e : Draft} (h : e.isWaiting = d.isWaiting) : e.waiting = d.waiting :=
  e.ascending_waiting.ext d.ascending_waiting fun edge => by rw [mem_waiting, mem_waiting, h]

theorem waitingFor_congr {d e : Draft} (h : e.isWaiting = d.isWaiting) (p : Hash) :
    e.waitingFor p = d.waitingFor p :=
  (e.ascending_waitingFor p).ext (d.ascending_waitingFor p) fun child => by
    rw [mem_waitingFor, mem_waitingFor, h]

end Draft

end HeaderChain
