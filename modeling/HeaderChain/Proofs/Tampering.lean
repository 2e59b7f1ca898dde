import HeaderChain.Block
import HeaderChain.Network
import HeaderChain.Proofs.MerkleTrees

/-!
# Transactions that are replaced under a header

Other transactions in the same number do not have the root that a header commits to, unless two of
the byte strings that are hashed collide. Transactions in another number may have it without a
collision: repeated transactions can stand where the tree repeats its last ones, and the pair of
hashes that a node is made from can stand as a transaction. These are the only ways, the null hash
as a root apart.
-/

namespace HeaderChain

namespace Block

open Merkle (Collision Imitates join rootOf rounds)

variable {xs ys ts : List Transaction} {header : RawHeader}

/-- The block with other transactions under its header. -/
def replace (b : Block) (transactions : List Transaction) : Block := { b with transactions }

def contents (ts : List Transaction) : List Bytes := ts.map Transaction.bytes

/-- The byte strings that are hashed for the root over transactions. -/
def hashed (ts : List Transaction) : List Bytes := Merkle.hashed (contents ts)

/-- The last byte string that is hashed for the root has the null hash. -/
def Vanishes (ts : List Transaction) : Prop :=
  ∃ last, [last] ∈ rounds (contents ts) ∧ Hash.ofData last = .zero

/-- How lists of transactions can have one root although no byte strings collide. -/
inductive Confused (xs ys : List Transaction) : Prop
  /-- Completed, the first ones are a round of what is hashed for the others. -/
  | imitates (h : Imitates (contents xs) (contents ys))
  | imitated (h : Imitates (contents ys) (contents xs))
  /-- There are no transactions on one side, and no hash on the other. -/
  | null (h : xs = [] ∧ Vanishes ys ∨ ys = [] ∧ Vanishes xs)

theorem contents_injective : Function.Injective contents := by
  refine List.map_injective_iff.mpr fun x y h => ?_
  cases x
  cases y
  exact congrArg Transaction.mk h

theorem contents_ne_nil (h : ts ≠ []) : contents ts ≠ [] := by simpa [contents] using h

theorem rootOf_contents (ts : List Transaction) :
    rootOf (contents ts) = Merkle.root (ts.map Transaction.id) := by
  rw [rootOf, contents, List.map_map]
  rfl

theorem isCommitted_replace_iff : ((assemble header xs).replace ys).isCommitted = true ↔
    rootOf (contents xs) = rootOf (contents ys) := by
  rw [rootOf_contents, rootOf_contents, isCommitted, beq_iff_eq]
  rfl

theorem rootOf_nil : rootOf (contents []) = .zero := Merkle.root_nil

theorem Vanishes.rootOf_eq (h : Vanishes ts) : rootOf (contents ts) = .zero := by
  obtain ⟨last, hlast, hzero⟩ := h
  rw [← Merkle.rootOf_of_mem_rounds hlast, Merkle.rootOf_singleton, hzero]

theorem vanishes_of_rootOf_eq (hne : ts ≠ []) (h : rootOf (contents ts) = .zero) : Vanishes ts := by
  obtain ⟨last, hlast⟩ := Merkle.exists_last (contents_ne_nil hne)
  rw [← Merkle.rootOf_of_mem_rounds hlast, Merkle.rootOf_singleton] at h
  exact ⟨last, hlast, h⟩

theorem Confused.rootOf_eq (h : Confused xs ys) : rootOf (contents xs) = rootOf (contents ys) := by
  cases h with
  | imitates h => exact h.rootOf_eq
  | imitated h => exact h.rootOf_eq.symm
  | null h =>
    obtain ⟨rfl, h⟩ | ⟨rfl, h⟩ := h
    · rw [rootOf_nil, h.rootOf_eq]
    · rw [rootOf_nil, h.rootOf_eq]

theorem confused_of_rootOf_eq (hne : xs ≠ ys) (hfree : ¬ Collision (hashed xs ++ hashed ys))
    (hroot : rootOf (contents xs) = rootOf (contents ys)) : Confused xs ys := by
  by_cases hx : xs = []
  · subst hx
    exact .null (.inl ⟨rfl, vanishes_of_rootOf_eq hne.symm (rootOf_nil ▸ hroot.symm)⟩)
  by_cases hy : ys = []
  · subst hy
    exact .null (.inr ⟨rfl, vanishes_of_rootOf_eq hne (rootOf_nil ▸ hroot)⟩)
  obtain h | h := Merkle.imitates_of_rootOf_eq (contents_ne_nil hx) (contents_ne_nil hy) hfree hroot
  · exact .imitates h
  · exact .imitated h

theorem Confused.eq_of_length (h : Confused xs ys) (hlen : xs.length = ys.length) : xs = ys := by
  have hcontents : (contents xs).length = (contents ys).length := by simpa [contents] using hlen
  cases h with
  | imitates h => exact contents_injective (h.eq_of_length hcontents)
  | imitated h => exact (contents_injective (h.eq_of_length hcontents.symm)).symm
  | null h =>
    obtain ⟨rfl, -⟩ | ⟨rfl, -⟩ := h
    · exact (List.length_eq_zero_iff.mp hlen.symm).symm
    · exact List.length_eq_zero_iff.mp hlen

/-! ## Three transactions -/

def one : Transaction := ⟨[1]⟩

def two : Transaction := ⟨[2]⟩

def three : Transaction := ⟨[3]⟩

/-- All that is hashed for the three transactions, and the pairs that they are hashed in. -/
def strings : List Bytes := [[1], [2], [3], join ([1], [2]), join ([3], [3]),
  join (join ([1], [2]), join ([3], [3]))]

/-- The hashes differ in their first bytes. -/
theorem head_of_strings : strings.map (fun s => (Hash.ofData s).bytes.head?) =
    [some 156, some 28, some 201, some 196, some 199, some 113] := by
  decide +kernel

theorem not_collision_of_subset {part : List Bytes} (h : part ⊆ strings) : ¬ Collision part := by
  have hnodup : (strings.map Hash.ofData).Nodup := by
    apply List.Nodup.of_map fun hash : Hash => hash.bytes.head?
    rw [List.map_map]
    exact head_of_strings ▸ by decide
  exact fun hcollision => Merkle.not_collision_of_nodup hnodup (hcollision.mono h)

theorem hashed_subset : hashed [one, two] ⊆ strings ∧ hashed [three, three] ⊆ strings ∧
    hashed [one, two, three] ⊆ strings ∧ hashed [one, two, three, three] ⊆ strings ∧
    hashed [⟨join ([1], [2])⟩] ⊆ strings := by
  simp [hashed, contents, Merkle.hashed, Merkle.nextRound, Merkle.pairs, strings, one, two, three]

/-! ## Replaced transactions -/

/-- Other transactions in the same number are not what the header commits to, if no two of the byte
strings that are hashed collide. -/
theorem same_count_detected (header : RawHeader) (xs ys : List Transaction)
    (hlen : xs.length = ys.length) (hne : ys ≠ xs) :
    ((assemble header xs).replace ys).isCommitted = false ∨
      Collision (hashed xs ++ hashed ys) := by
  by_contra hnone
  rw [not_or, Bool.not_eq_false, isCommitted_replace_iff] at hnone
  obtain ⟨hroot, hfree⟩ := hnone
  exact hne ((confused_of_rootOf_eq hne.symm hfree hroot).eq_of_length hlen).symm

/-- Two transactions are not taken for two others. -/
theorem replaced_pair_detected : [three, three].length = [one, two].length ∧
    [one, two] ≠ [three, three] ∧
    ((assemble Network.regtest.genesisRaw [three, three]).replace [one, two]).isCommitted =
      false := by
  have hfree : ¬ Collision (hashed [three, three] ++ hashed [one, two]) :=
    not_collision_of_subset (List.append_subset.mpr ⟨hashed_subset.2.1, hashed_subset.1⟩)
  have hne : [one, two] ≠ [three, three] := by decide
  have hdetected := same_count_detected Network.regtest.genesisRaw [three, three] [one, two] rfl hne
  exact ⟨rfl, hne, hdetected.resolve_right hfree⟩

/-- Transactions in another number are what the header commits to just when they are confused with
those that it was made for, if no two of the byte strings that are hashed collide. -/
theorem changed_count_detected (header : RawHeader) (xs ys : List Transaction)
    (hlen : xs.length ≠ ys.length) :
    (((assemble header xs).replace ys).isCommitted = false ∨
      Collision (hashed xs ++ hashed ys) ∨ Confused xs ys) ∧
    (Confused xs ys → ((assemble header xs).replace ys).isCommitted = true) := by
  refine ⟨?_, fun h => isCommitted_replace_iff.mpr h.rootOf_eq⟩
  by_contra hnone
  rw [not_or, not_or, Bool.not_eq_false, isCommitted_replace_iff] at hnone
  obtain ⟨hroot, hfree, hconfused⟩ := hnone
  exact hconfused (confused_of_rootOf_eq (fun h => hlen (by rw [h])) hfree hroot)

/-- A third transaction after two others is not taken for part of them. -/
theorem added_third_detected : [one, two].length ≠ [one, two, three].length ∧
    ((assemble Network.regtest.genesisRaw [one, two]).replace [one, two, three]).isCommitted =
      false := by
  have hlen : [one, two].length ≠ [one, two, three].length := by decide
  have hfree : ¬ Collision (hashed [one, two] ++ hashed [one, two, three]) :=
    not_collision_of_subset (List.append_subset.mpr ⟨hashed_subset.1, hashed_subset.2.2.1⟩)
  have hconfused : ¬ Confused [one, two] [one, two, three] := by
    rintro (h | h | ⟨⟨h, -⟩ | ⟨h, -⟩⟩)
    · revert h
      decide +kernel
    · revert h
      decide +kernel
    · cases h
    · cases h
  have hdetected :=
    changed_count_detected Network.regtest.genesisRaw [one, two] [one, two, three] hlen
  exact ⟨hlen, hdetected.1.resolve_right fun h => h.elim hfree hconfused⟩

/-- Where the last of three transactions is repeated, and where the pair of the hashes of two
transactions is in their place, the header still commits to the transactions, although no two of the
byte strings that are hashed collide. -/
theorem changed_count_undetected :
    ([one, two, three].length ≠ [one, two, three, three].length ∧
      ((assemble Network.regtest.genesisRaw [one, two, three]).replace
        [one, two, three, three]).isCommitted = true ∧
      ¬ Collision (hashed [one, two, three] ++ hashed [one, two, three, three])) ∧
    ([one, two].length ≠ [(⟨join ([1], [2])⟩ : Transaction)].length ∧
      ((assemble Network.regtest.genesisRaw [one, two]).replace
        [⟨join ([1], [2])⟩]).isCommitted = true ∧
      ¬ Collision (hashed [one, two] ++ hashed [⟨join ([1], [2])⟩])) := by
  have hthree : Confused [one, two, three] [one, two, three, three] :=
    .imitates (by decide +kernel)
  have hpair : Confused [one, two] [⟨join ([1], [2])⟩] := .imitated (by decide +kernel)
  obtain ⟨htwo, -, hshort, hlong, hjoined⟩ := hashed_subset
  refine ⟨⟨by decide, isCommitted_replace_iff.mpr hthree.rootOf_eq, ?_⟩,
    by decide, isCommitted_replace_iff.mpr hpair.rootOf_eq, ?_⟩
  · exact not_collision_of_subset (List.append_subset.mpr ⟨hshort, hlong⟩)
  · exact not_collision_of_subset (List.append_subset.mpr ⟨htwo, hjoined⟩)

end Block

end HeaderChain
