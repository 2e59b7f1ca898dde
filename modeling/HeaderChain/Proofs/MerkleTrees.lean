import HeaderChain.Hash.Merkle
import Mathlib.Tactic

/-!
# What a merkle root commits to

A root is the hash of the last one of several rounds of hashing. The first round hashes the leaves,
and every other one hashes the byte strings that are joined from the hashes of two neighbours, the
last one being its own neighbour where there is no other. So the tree is that over its completed
row, in which the last leaves are repeated until every node has two children. Where two byte strings
that are hashed have the same hash only if they are equal, the root tells the completed row, but not
on which round it was a row of leaves.
-/

namespace HeaderChain

namespace Merkle

variable {α β : Type} {row row' : List α} {p : α × α} {ps : List (α × α)} {a : α}

/-! ## Completed rows -/

/-- The neighbours in a row, a last one without a neighbour beside itself. -/
def pairs : List α → List (α × α)
  | [] => []
  | [last] => [(last, last)]
  | a :: b :: rest => (a, b) :: pairs rest

def unpair (ps : List (α × α)) : List α := ps.flatMap fun p => [p.1, p.2]

theorem length_pairs : ∀ row : List α, (pairs row).length = (row.length + 1) / 2
  | [] => by simp [pairs]
  | [_] => by simp [pairs]
  | a :: b :: rest => by
    simp only [pairs, List.length_cons, length_pairs rest]
    omega

/-- The row with its last members repeated, on every level on which one of them has no neighbour. -/
def complete {α : Type} (row : List α) : List α :=
  if row.length ≤ 1 then row else unpair (complete (pairs row))
termination_by row.length
decreasing_by
  rw [length_pairs]
  omega

theorem complete_of_le (h : row.length ≤ 1) : complete row = row := by rw [complete, if_pos h]

theorem complete_of_lt (h : 1 < row.length) : complete row = unpair (complete (pairs row)) := by
  rw [complete, if_neg (not_le.mpr h)]

theorem length_pairs_lt (h : 1 < row.length) : (pairs row).length < row.length := by
  rw [length_pairs]
  omega

@[simp] theorem unpair_cons : unpair (p :: ps) = p.1 :: p.2 :: unpair ps := rfl

theorem length_unpair (ps : List (α × α)) : (unpair ps).length = 2 * ps.length := by
  induction ps with
  | nil => rfl
  | cons p ps ih =>
    rw [unpair_cons, List.length_cons, List.length_cons, ih, List.length_cons]
    omega

theorem pairs_unpair (ps : List (α × α)) : pairs (unpair ps) = ps := by
  induction ps with
  | nil => rfl
  | cons p ps ih => rw [unpair_cons, pairs, ih]

theorem pairs_map (f : α → β) : ∀ row, pairs (row.map f) = (pairs row).map (Prod.map f f)
  | [] => rfl
  | [_] => rfl
  | a :: b :: rest => congrArg ((f a, f b) :: ·) (pairs_map f rest)

theorem unpair_map (f : α → β) (ps : List (α × α)) :
    unpair (ps.map (Prod.map f f)) = (unpair ps).map f := by
  induction ps with
  | nil => rfl
  | cons p ps ih => simp [ih]

theorem mem_of_mem_pairs : ∀ {row : List α}, p ∈ pairs row → p.1 ∈ row ∧ p.2 ∈ row
  | [_], h => by
    obtain rfl := List.mem_singleton.mp h
    simp
  | a :: b :: rest, h => by
    obtain rfl | h := List.mem_cons.mp h
    · simp
    · have hmem := mem_of_mem_pairs h
      simp [hmem]

theorem prefix_unpair_pairs : ∀ row : List α, row <+: unpair (pairs row)
  | [] => List.nil_prefix
  | [a] => ⟨[a], rfl⟩
  | a :: b :: rest => by
    obtain ⟨more, hmore⟩ := prefix_unpair_pairs rest
    exact ⟨more, congrArg (a :: b :: ·) hmore⟩

/-! On a row with neighbours, what holds of the completed row comes from the row of the pairs. -/

theorem complete_map {α β : Type} (f : α → β) (row : List α) :
    complete (row.map f) = (complete row).map f := by
  by_cases h : row.length ≤ 1
  · rw [complete_of_le h, complete_of_le (by simpa using h)]
  · rw [complete_of_lt (not_le.mp h), complete_of_lt (by simpa using h), pairs_map,
      complete_map, unpair_map]
termination_by row.length
decreasing_by exact length_pairs_lt (not_le.mp h)

theorem mem_of_mem_complete {α : Type} {row : List α} {a : α} (ha : a ∈ complete row) :
    a ∈ row := by
  by_cases h : row.length ≤ 1
  · rwa [complete_of_le h] at ha
  · rw [complete_of_lt (not_le.mp h)] at ha
    obtain ⟨p, hp, hmem⟩ := List.mem_flatMap.mp ha
    have hpair := mem_of_mem_pairs (mem_of_mem_complete hp)
    obtain rfl | rfl : a = p.1 ∨ a = p.2 := by simpa using hmem
    · exact hpair.1
    · exact hpair.2
termination_by row.length
decreasing_by exact length_pairs_lt (not_le.mp h)

theorem prefix_complete {α : Type} (row : List α) : row <+: complete row := by
  by_cases h : row.length ≤ 1
  · rw [complete_of_le h]
  · rw [complete_of_lt (not_le.mp h)]
    obtain ⟨more, hmore⟩ := prefix_complete (pairs row)
    rw [← hmore, unpair, List.flatMap_append]
    exact (prefix_unpair_pairs row).trans (List.prefix_append _ _)
termination_by row.length
decreasing_by exact length_pairs_lt (not_le.mp h)

example : complete [1, 2, 3, 4, 5] = [1, 2, 3, 4, 5, 5, 5, 5] := by decide +kernel

theorem length_complete_congr {α β : Type} {row : List α} {row' : List β}
    (hlen : row.length = row'.length) : (complete row).length = (complete row').length := by
  have hunits : row.map (fun _ => ()) = row'.map fun _ => () := by
    simp only [List.map_const', hlen]
  calc (complete row).length = ((complete row).map fun _ => ()).length := by rw [List.length_map]
    _ = ((complete row').map fun _ => ()).length := by rw [← complete_map, hunits, complete_map]
    _ = (complete row').length := by rw [List.length_map]

/-! ## Roots -/

theorem pairUp_eq : ∀ row, pairUp row = (pairs row).map fun p => parent p.1 p.2
  | [] => rfl
  | [_] => rfl
  | a :: b :: rest => congrArg (parent a b :: ·) (pairUp_eq rest)

theorem root_of_lt {row : List Hash} (h : 1 < row.length) : root row = root (pairUp row) := by
  match row, h with
  | a :: b :: rest, _ => exact root_pairUp a b rest

/-- The tree over a row is the tree over its completed row. -/
theorem root_complete (row : List Hash) : root (complete row) = root row := by
  by_cases h : row.length ≤ 1
  · rw [complete_of_le h]
  · have hlt := not_le.mp h
    have hlong : 1 < (complete row).length := hlt.trans_le (prefix_complete row).length_le
    have hup : pairUp (complete row) = complete (pairUp row) := by
      rw [pairUp_eq, complete_of_lt hlt, pairs_unpair, pairUp_eq, complete_map]
    rw [root_of_lt hlong, hup, root_complete (pairUp row), root_of_lt hlt]
termination_by row.length
decreasing_by
  rw [length_pairUp]
  omega

/-! ## Rounds of hashing -/

/-- The two hashes that a node is made from, one after the other. -/
def join (p : Bytes × Bytes) : Bytes := (Hash.ofData p.1).bytes ++ (Hash.ofData p.2).bytes

/-- What is hashed after a round. -/
def nextRound (round : List Bytes) : List Bytes := (pairs round).map join

/-- All rounds of hashing up to the root, the leaves first. -/
def rounds (leaves : List Bytes) : List (List Bytes) :=
  if leaves.length ≤ 1 then [leaves] else leaves :: rounds (nextRound leaves)
termination_by leaves.length
decreasing_by
  rw [nextRound, List.length_map, length_pairs]
  omega

/-- All byte strings that are hashed on the way to the root. -/
def hashed (leaves : List Bytes) : List Bytes := (rounds leaves).flatten

def rootOf (leaves : List Bytes) : Hash := root (leaves.map Hash.ofData)

variable {leaves leaves' round strings : List Bytes} {s s' : Bytes}

theorem rounds_of_le (h : leaves.length ≤ 1) : rounds leaves = [leaves] := by
  rw [rounds, if_pos h]

theorem rounds_of_lt (h : 1 < leaves.length) :
    rounds leaves = leaves :: rounds (nextRound leaves) := by
  rw [rounds, if_neg (not_le.mpr h)]

@[simp] theorem rounds_singleton (s : Bytes) : rounds [s] = [[s]] := rounds_of_le le_rfl

@[simp] theorem rounds_cons_cons (s s' : Bytes) (rest : List Bytes) :
    rounds (s :: s' :: rest) = (s :: s' :: rest) :: rounds (nextRound (s :: s' :: rest)) :=
  rounds_of_lt (by simp)

theorem mem_rounds_self (leaves : List Bytes) : leaves ∈ rounds leaves := by
  by_cases h : leaves.length ≤ 1
  · simp [rounds_of_le h]
  · simp [rounds_of_lt (not_le.mp h)]

theorem nextRound_ne_nil (h : leaves ≠ []) : nextRound leaves ≠ [] := by
  rw [← List.length_pos_iff, nextRound, List.length_map, length_pairs]
  have := List.length_pos_of_ne_nil h
  omega

/-- The hashes of a round are the row above those of the round before. -/
theorem map_ofData_nextRound (round : List Bytes) :
    (nextRound round).map Hash.ofData = pairUp (round.map Hash.ofData) := by
  rw [nextRound, pairUp_eq, pairs_map, List.map_map, List.map_map]
  rfl

theorem rootOf_of_lt (h : 1 < leaves.length) : rootOf leaves = rootOf (nextRound leaves) := by
  rw [rootOf, rootOf, map_ofData_nextRound]
  exact root_of_lt (by simpa using h)

theorem rootOf_complete (leaves : List Bytes) : rootOf (complete leaves) = rootOf leaves := by
  rw [rootOf, ← complete_map, root_complete, rootOf]

theorem rootOf_of_mem_rounds (h : round ∈ rounds leaves) : rootOf round = rootOf leaves := by
  induction leaves using rounds.induct with
  | case1 leaves hle =>
    rw [rounds_of_le hle, List.mem_singleton] at h
    rw [h]
  | case2 leaves hlt ih =>
    rw [rounds_of_lt (not_le.mp hlt), List.mem_cons] at h
    obtain rfl | h := h
    · rfl
    · rw [ih h, rootOf_of_lt (not_le.mp hlt)]

theorem exists_last (h : leaves ≠ []) : ∃ s, [s] ∈ rounds leaves := by
  induction leaves using rounds.induct with
  | case1 leaves hle =>
    rw [rounds_of_le hle]
    match leaves, h, hle with
    | [s], _, _ => exact ⟨s, .head _⟩
  | case2 leaves hlt ih =>
    rw [rounds_of_lt (not_le.mp hlt)]
    obtain ⟨s, hs⟩ := ih (nextRound_ne_nil h)
    exact ⟨s, .tail _ hs⟩

theorem rootOf_singleton (s : Bytes) : rootOf [s] = Hash.ofData s := root_singleton _

theorem mem_hashed_of_mem (hround : round ∈ rounds leaves) (hs : s ∈ round) : s ∈ hashed leaves :=
  List.mem_flatten.mpr ⟨round, hround, hs⟩

theorem hashed_nextRound_subset (h : 1 < leaves.length) :
    hashed (nextRound leaves) ⊆ hashed leaves := by
  intro s hs
  rw [hashed, rounds_of_lt h, List.flatten_cons]
  exact List.mem_append_right _ hs

/-- A round after the first one comes from the round before it. -/
theorem exists_of_mem_rounds_nextRound (hlt : 1 < leaves.length)
    (h : round ∈ rounds (nextRound leaves)) :
    ∃ before ∈ rounds leaves, 1 < before.length ∧ round = nextRound before := by
  induction leaves using rounds.induct with
  | case1 leaves hle => exact absurd hlt (not_lt.mpr hle)
  | case2 leaves _ ih =>
    rw [rounds_of_lt hlt]
    by_cases hnext : (nextRound leaves).length ≤ 1
    · rw [rounds_of_le hnext, List.mem_singleton] at h
      exact ⟨leaves, .head _, hlt, h⟩
    · rw [rounds_of_lt (not_le.mp hnext), List.mem_cons] at h
      obtain rfl | h := h
      · exact ⟨leaves, .head _, hlt, rfl⟩
      · obtain ⟨before, hmem, hlen, heq⟩ := ih (not_le.mp hnext) h
        exact ⟨before, .tail _ hmem, hlen, heq⟩

theorem length_complete_nextRound (h : 1 < leaves.length) :
    (complete leaves).length = 2 * (complete (nextRound leaves)).length := by
  rw [complete_of_lt h, length_unpair, nextRound, complete_map, List.length_map]

theorem length_complete_lt (hround : round ∈ rounds leaves) :
    round = leaves ∨ (complete round).length < (complete leaves).length := by
  induction leaves using rounds.induct with
  | case1 leaves hle =>
    rw [rounds_of_le hle, List.mem_singleton] at hround
    exact .inl hround
  | case2 leaves hlong ih =>
    have hlt := not_le.mp hlong
    have hhalf := length_complete_nextRound hlt
    have hpos := hlt.trans_le (prefix_complete leaves).length_le
    rw [rounds_of_lt hlt, List.mem_cons] at hround
    obtain rfl | hround := hround
    · exact .inl rfl
    · obtain rfl | hshort := ih hround
      · exact .inr (by omega)
      · exact .inr (by omega)

/-! ## Collisions -/

/-- Two of the byte strings differ and have the same hash. -/
def Collision (strings : List Bytes) : Prop :=
  ∃ s ∈ strings, ∃ s' ∈ strings, s ≠ s' ∧ Hash.ofData s = Hash.ofData s'

theorem eq_of_ofData_eq (hfree : ¬ Collision strings) (hs : s ∈ strings) (hs' : s' ∈ strings)
    (h : Hash.ofData s = Hash.ofData s') : s = s' := by
  by_contra hne
  exact hfree ⟨s, hs, s', hs', hne, h⟩

theorem Collision.mono {strings' : List Bytes} (h : Collision strings) (hsub : strings ⊆ strings') :
    Collision strings' := by
  obtain ⟨s, hs, s', hs', hne, heq⟩ := h
  exact ⟨s, hsub hs, s', hsub hs', hne, heq⟩

theorem Collision.append_mono {left right left' right' : List Bytes} (h : Collision (left ++ right))
    (hleft : left ⊆ left') (hright : right ⊆ right') : Collision (left' ++ right') :=
  h.mono (List.append_subset.mpr ⟨fun _ hs => List.mem_append_left _ (hleft hs),
    fun _ hs => List.mem_append_right _ (hright hs)⟩)

theorem not_collision_of_nodup (h : (strings.map Hash.ofData).Nodup) : ¬ Collision strings := by
  rintro ⟨s, hs, s', hs', hne, heq⟩
  exact hne (List.inj_on_of_nodup_map h hs hs' heq)

theorem join_inj (hfree : ¬ Collision strings) {p q : Bytes × Bytes}
    (hp : p.1 ∈ strings ∧ p.2 ∈ strings) (hq : q.1 ∈ strings ∧ q.2 ∈ strings)
    (h : join p = join q) : p = q := by
  obtain ⟨hleft, hright⟩ := List.append_inj h
    ((Hash.ofData p.1).length_bytes.trans (Hash.ofData q.1).length_bytes.symm)
  exact Prod.ext (eq_of_ofData_eq hfree hp.1 hq.1 (Hash.ext hleft))
    (eq_of_ofData_eq hfree hp.2 hq.2 (Hash.ext hright))

theorem eq_of_map_eq {f : α → β} {row row' : List α} (h : row.map f = row'.map f)
    (hinj : ∀ a ∈ row, ∀ a' ∈ row', f a = f a' → a = a') : row = row' := by
  induction row generalizing row' with
  | nil => exact (List.map_eq_nil_iff.mp h.symm).symm
  | cons a row ih =>
    cases row' with
    | nil => cases h
    | cons a' row' =>
      obtain ⟨hhead, htail⟩ := List.cons.inj h
      have ha := hinj a (.head _) a' (.head _) hhead
      have hrow := ih htail fun b hb b' hb' => hinj b (.tail _ hb) b' (.tail _ hb')
      rw [ha, hrow]

/-- One step down: completed rounds that agree come from completed rounds that agree. -/
theorem complete_of_nextRound (hfree : ¬ Collision (leaves ++ leaves')) (hlt : 1 < leaves.length)
    (hlt' : 1 < leaves'.length) (h : complete (nextRound leaves) = complete (nextRound leaves')) :
    complete leaves = complete leaves' := by
  rw [nextRound, nextRound, complete_map, complete_map] at h
  rw [complete_of_lt hlt, complete_of_lt hlt']
  refine congrArg unpair (eq_of_map_eq h fun p hp q hq => join_inj hfree ?_ ?_)
  · have hmem := mem_of_mem_pairs (mem_of_mem_complete hp)
    exact ⟨List.mem_append_left _ hmem.1, List.mem_append_left _ hmem.2⟩
  · have hmem := mem_of_mem_pairs (mem_of_mem_complete hq)
    exact ⟨List.mem_append_right _ hmem.1, List.mem_append_right _ hmem.2⟩

/-- The leaves are those of a round of the other hashing, when both are completed: its leaves with
some of the last ones repeated, or the byte strings of a later round. -/
def Imitates (leaves leaves' : List Bytes) : Prop :=
  ∃ round ∈ rounds leaves', complete leaves = complete round

instance (leaves leaves' : List Bytes) : Decidable (Imitates leaves leaves') :=
  inferInstanceAs (Decidable (∃ round ∈ rounds leaves', _))

theorem Imitates.rootOf_eq (h : Imitates leaves leaves') : rootOf leaves = rootOf leaves' := by
  obtain ⟨round, hround, heq⟩ := h
  rw [← rootOf_complete leaves, heq, rootOf_complete, rootOf_of_mem_rounds hround]

theorem Imitates.eq_of_length (h : Imitates leaves leaves')
    (hlen : leaves.length = leaves'.length) : leaves = leaves' := by
  obtain ⟨round, hround, heq⟩ := h
  have hsame := length_complete_congr hlen
  obtain rfl | hshort := length_complete_lt hround
  · have hprefix := prefix_complete leaves
    rw [heq] at hprefix
    have hshorter := List.prefix_of_prefix_length_le hprefix (prefix_complete round) hlen.le
    exact hshorter.eq_of_length hlen
  · rw [heq] at hsame
    omega

/-- A single leaf is imitated by that of the last round. -/
theorem imitates_singleton (hne : leaves ≠ []) (hfree : ¬ Collision (hashed [s] ++ hashed leaves))
    (hroot : rootOf [s] = rootOf leaves) : Imitates [s] leaves := by
  obtain ⟨s', hlast⟩ := exists_last hne
  rw [← rootOf_of_mem_rounds hlast, rootOf_singleton, rootOf_singleton] at hroot
  have hs : s ∈ hashed [s] ++ hashed leaves :=
    List.mem_append_left _ (mem_hashed_of_mem (mem_rounds_self [s]) (.head _))
  have hs' : s' ∈ hashed [s] ++ hashed leaves :=
    List.mem_append_right _ (mem_hashed_of_mem hlast (.head _))
  obtain rfl := eq_of_ofData_eq hfree hs hs' hroot
  exact ⟨[s], hlast, rfl⟩

/-- An imitation of the next round comes from one of the leaves. -/
theorem Imitates.of_nextRound (hfree : ¬ Collision (hashed leaves ++ hashed leaves'))
    (hlt : 1 < leaves.length) (hlt' : 1 < leaves'.length)
    (h : Imitates (nextRound leaves) (nextRound leaves')) : Imitates leaves leaves' := by
  obtain ⟨round, hround, heq⟩ := h
  obtain ⟨before, hbefore, hlong, rfl⟩ := exists_of_mem_rounds_nextRound hlt' hround
  refine ⟨before, hbefore, complete_of_nextRound (fun hcollision => hfree ?_) hlt hlong heq⟩
  exact hcollision.append_mono (fun _ => mem_hashed_of_mem (mem_rounds_self leaves))
    fun _ => mem_hashed_of_mem hbefore

/-- Where no two of the byte strings that are hashed collide, two rows of leaves have the same root
only if one of them imitates the other. -/
theorem imitates_of_rootOf_eq (hne : leaves ≠ []) (hne' : leaves' ≠ [])
    (hfree : ¬ Collision (hashed leaves ++ hashed leaves'))
    (hroot : rootOf leaves = rootOf leaves') :
    Imitates leaves leaves' ∨ Imitates leaves' leaves := by
  have single {leaves : List Bytes} (hne : leaves ≠ []) (hle : leaves.length ≤ 1) :
      ∃ s, leaves = [s] :=
    List.length_eq_one_iff.mp (le_antisymm hle (List.length_pos_of_ne_nil hne))
  induction leaves using rounds.induct generalizing leaves' with
  | case1 leaves hle =>
    obtain ⟨s, rfl⟩ := single hne hle
    exact .inl (imitates_singleton hne' hfree hroot)
  | case2 leaves hlong ih =>
    have hlt := not_le.mp hlong
    have hfree' : ¬ Collision (hashed leaves' ++ hashed leaves) := fun h =>
      hfree (h.mono List.perm_append_comm.subset)
    by_cases hle' : leaves'.length ≤ 1
    · obtain ⟨s, rfl⟩ := single hne' hle'
      exact .inr (imitates_singleton hne hfree' hroot.symm)
    · have hlt' := not_le.mp hle'
      rw [rootOf_of_lt hlt, rootOf_of_lt hlt'] at hroot
      have hnext : ¬ Collision (hashed (nextRound leaves) ++ hashed (nextRound leaves')) := fun h =>
        hfree (h.append_mono (hashed_nextRound_subset hlt) (hashed_nextRound_subset hlt'))
      obtain h | h := ih (nextRound_ne_nil hne) (nextRound_ne_nil hne') hnext hroot
      · exact .inl (h.of_nextRound hfree hlt hlt')
      · exact .inr (h.of_nextRound hfree' hlt' hlt)

end Merkle

end HeaderChain
