import HeaderChain.Proofs.Syncing

/-!
# Heights that peers claim

The heights in records from a peer are checked before the headers are added, and then only against
each other and against the header that the records continue, when that has a place. When it has
none, no header of the records gets a place either, unless genesis is one of them: the headers hang
on one another, and nothing but genesis has a place without its parent. Hence the heights that
headers get are the claimed ones, except from genesis upward, where no claim is checked for genesis
itself.
-/

namespace HeaderChain

variable {f : Forest} {g k parent prior : Hash} {height base : Height} {x : Header}
variable {xs stack : List Header} {links more b b' r t : List Link} {records part : List SyncRecord}
variable {n : Network} {s s' : Store}

/-! ## Stacks of headers -/

/-- A route to the header, if there is one, puts it at this height. -/
def AtHeight (f : Forest) (g k : Hash) (height : Height) : Prop :=
  ∀ r, Route f g k r → (r.length : Height) = height + 1

/-- Headers of a forest that stand one on the other. None of them is genesis. -/
structure Stacked (f : Forest) (g : Hash) (xs : List Header) : Prop where
  linked : xs.IsChain fun x y => y.parent = x.hash
  found : ∀ x ∈ xs, f x.hash = some x.link
  other : ∀ x ∈ xs, x.hash ≠ g

theorem atHeight_genesis : AtHeight f g g 0 := by
  intro r hr
  obtain ⟨x, rfl⟩ := hr.of_genesis
  rfl

theorem Route.down (hr : Route f g x.hash r) (hx : f x.hash = some x.link) (hg : x.hash ≠ g) :
    ∃ s, r = x.link :: s ∧ Route f g x.parent s := by
  cases hr with
  | genesis => exact absurd rfl hg
  | child _ found up =>
    cases hx.symm.trans found
    exact ⟨_, rfl, up⟩

theorem AtHeight.child (h : AtHeight f g x.parent height) (hx : f x.hash = some x.link)
    (hg : x.hash ≠ g) : AtHeight f g x.hash (height + 1) := by
  intro r hr
  obtain ⟨s, rfl, hs⟩ := hr.down hx hg
  have hlen := h s hs
  rw [List.length_cons]
  lia

theorem firsts_append_cases {x : Link} (h : firsts (links ++ more) k = some x) :
    firsts links k = some x ∨ x ∈ more := by
  unfold firsts at h ⊢
  rw [List.find?_append, Option.or_eq_some_iff] at h
  exact h.imp id fun hnew => List.mem_of_find?_eq_some hnew.2

/-- A route among more links is an old one, or goes through a new link. -/
theorem Route.of_append (h : Route (firsts (links ++ more)) g k r) : Route (firsts links) g k r ∨
    ∃ x ∈ more, ∃ s, Route (firsts (links ++ more)) g x.hash s ∧ s <:+ r := by
  have hn := named_firsts (links ++ more)
  induction h with
  | genesis found =>
    rcases firsts_append_cases found with hold | hx
    · exact .inl (.genesis hold)
    · have hself := (Route.genesis found).of_suffix hn (List.suffix_refl _)
      exact .inr ⟨_, hx, _, hself, List.suffix_refl _⟩
  | child other found up ih =>
    rcases ih with hup | ⟨y, hy, s, hs, hsuffix⟩
    · rcases firsts_append_cases found with hold | hx
      · exact .inl (.child other hold hup)
      · have hself := (Route.child other found up).of_suffix hn (List.suffix_refl _)
        exact .inr ⟨_, hx, _, hself, List.suffix_refl _⟩
    · exact .inr ⟨y, hy, s, hs, hsuffix.trans (List.suffix_cons _ _)⟩

namespace Stacked

theorem tail (h : Stacked f g (x :: xs)) : Stacked f g xs :=
  ⟨h.linked.tail, fun y hy => h.found y (.tail _ hy), fun y hy => h.other y (.tail _ hy)⟩

/-- The route of a header in a stack goes down to what the stack stands on. -/
theorem route_below (h : Stacked f g xs) (hfirst : ∀ y ∈ xs.head?, y.parent = parent)
    (hx : x ∈ xs) (hr : Route f g x.hash r) : ∃ s, Route f g parent s ∧ s.length < r.length := by
  induction xs generalizing parent r with
  | nil => cases hx
  | cons y xs ih =>
    have hdown {r : List Link} (hr : Route f g y.hash r) :
        ∃ s, Route f g parent s ∧ s.length < r.length := by
      obtain ⟨s, rfl, hs⟩ := hr.down (h.found y (.head _)) (h.other y (.head _))
      exact ⟨s, hfirst y rfl ▸ hs, by simp⟩
    rcases List.mem_cons.mp hx with rfl | hx
    · exact hdown hr
    · obtain ⟨s, hs, hlt⟩ := ih h.tail (List.isChain_cons.mp h.linked).1 hx hr
      obtain ⟨u, hu, hlt'⟩ := hdown hs
      exact ⟨u, hu, hlt'.trans hlt⟩

/-- New headers that stand on a header give no route to that header. -/
theorem old_route (h : Stacked (firsts (links ++ xs.map Header.link)) g xs)
    (hfirst : ∀ y ∈ xs.head?, y.parent = parent)
    (hr : Route (firsts (links ++ xs.map Header.link)) g parent r) :
    Route (firsts links) g parent r := by
  rcases hr.of_append with hold | ⟨x, hx, t, ht, hsuffix⟩
  · exact hold
  · obtain ⟨y, hy, rfl⟩ := List.mem_map.mp hx
    obtain ⟨u, hu, hlt⟩ := h.route_below hfirst hy ht
    have hle := hsuffix.length_le
    rw [hr.unique hu] at hle
    omega

/-- When claims are right for what a stack stands on, up to a difference, they are right for all
headers of the stack. -/
theorem atHeight (h : Stacked f g xs)
    (hdecoded : List.Forall₂ (fun r x => Header.decode r.header = .ok x) records xs)
    (hclaims : records.IsChain fun r r' => r'.height = r.height + 1)
    (hfirst : ∀ y ∈ xs.head?, y.parent = parent)
    (hbase : ∀ r ∈ records.head?, AtHeight f g parent (r.height - base - 1)) :
    ∀ r ∈ records, ∀ x, Header.decode r.header = .ok x → AtHeight f g x.hash (r.height - base) := by
  induction hdecoded generalizing parent with
  | nil => simp
  | @cons r x records xs hdecode hdecoded ih =>
    obtain ⟨hnext, hclaims⟩ := List.isChain_cons.mp hclaims
    have hx : AtHeight f g x.hash (r.height - base) := by
      have hparent : AtHeight f g x.parent (r.height - base - 1) := hfirst x rfl ▸ hbase r rfl
      have hchild := hparent.child (h.found x (.head _)) (h.other x (.head _))
      rwa [sub_add_cancel] at hchild
    rw [List.forall_mem_cons]
    constructor
    · intro y hy
      cases hdecode.symm.trans hy
      exact hx
    · apply ih h.tail hclaims (List.isChain_cons.mp h.linked).1
      intro r' hr'
      have hheight : r'.height - base - 1 = r.height - base := by
        rw [hnext r' hr']
        ring
      rwa [hheight]

end Stacked

/-! ## Heights in records -/

namespace SyncRecord

def IsGenesis (r : SyncRecord) (n : Network) : Prop :=
  ∃ x, Header.decode r.header = .ok x ∧ x.hash = n.genesisHash

/-- No other header is stored under the hash of the header in the record. -/
def AloneIn (r : SyncRecord) (s : Store) : Prop :=
  ∀ x y, Header.decode r.header = .ok x → s.header? x.hash = some y → y.raw = x.raw

/-- When the header in the record has a place, it is at this height. -/
def PlacedAt (r : SyncRecord) (s : Store) (height : Height) : Prop :=
  ∀ x y, Header.decode r.header = .ok x → s.header? x.hash = some y → y.isDisconnected = false →
    y.height = height

theorem isGenesis_iff {r : SyncRecord} (hx : Header.decode r.header = .ok x) :
    r.IsGenesis n ↔ x.hash = n.genesisHash := by
  constructor
  · rintro ⟨y, hy, hgenesis⟩
    cases hx.symm.trans hy
    exact hgenesis
  · exact fun hgenesis => ⟨x, hx, hgenesis⟩

theorem aloneIn_of_forest {r : SyncRecord} (hx : Header.decode r.header = .ok x)
    (hlink : forestOf s.header? x.hash = some x.link) : r.AloneIn s := by
  intro y z hy hz
  cases hx.symm.trans hy
  have hstored : forestOf s.header? x.hash = some z.link := forestOf_eq_some.mpr ⟨z, hz, rfl⟩
  exact congrArg Link.raw (Option.some.inj (hstored.symm.trans hlink))

end SyncRecord

section Pairs

variable {α β : Type} {R : α → β → Prop} {l l' : List α} {m : List β} {y : β}

theorem exists_of_mem_forall₂ (h : List.Forall₂ R l m) (hy : y ∈ m) : ∃ x ∈ l, R x y := by
  obtain ⟨i, hi, rfl⟩ := List.mem_iff_getElem.mp hy
  have hi' : i < l.length := h.length_eq ▸ hi
  exact ⟨l[i], List.getElem_mem hi', h.get hi' hi⟩

theorem forall₂_append_left (h : List.Forall₂ R (l ++ l') m) :
    ∃ k k', m = k ++ k' ∧ List.Forall₂ R l k ∧ List.Forall₂ R l' k' := by
  have htaken := List.forall₂_take l.length h
  have hdropped := List.forall₂_drop l.length h
  rw [List.take_left] at htaken
  rw [List.drop_left] at hdropped
  exact ⟨m.take l.length, m.drop l.length, (List.take_append_drop _ _).symm, htaken, hdropped⟩

end Pairs

namespace Store.Founded

theorem placedAt (hs : s.Founded n links b) {r : SyncRecord}
    (h : ∀ x, Header.decode r.header = .ok x →
      AtHeight (forestOf s.header?) n.genesisHash x.hash height) : r.PlacedAt s height := by
  intro x y hdecode hy hplace
  obtain ⟨t, ht, hplaced⟩ := hs.exact.route_of_connected hy hplace
  have hlen := h x hdecode _ ht
  rw [List.length_cons] at hlen
  rw [hplaced, height_placed]
  lia

theorem first_claim (hs : s.Founded n links b) (hc : SyncRecord.Continues s prior records xs)
    (hr : Route (forestOf s.header?) n.genesisHash prior r) {r₁ : SyncRecord}
    (hr₁ : r₁ ∈ records.head?) : (r.length : Height) = r₁.height := by
  obtain ⟨x, r, rfl⟩ := List.exists_cons_of_ne_nil hr.ne_nil
  rw [hc.above _ (hs.exact.placed hr) isDisconnected_placed r₁ hr₁, height_placed, List.length_cons]
  simp

theorem route_kept (hs : s.Founded n links b) (hs' : s'.Founded n (links ++ more) b')
    (ht : Route (forestOf s.header?) n.genesisHash k t)
    (hr : Route (forestOf s'.header?) n.genesisHash k r) : r = t := by
  rw [hs.forest] at ht
  rw [hs'.forest] at hr
  exact hr.unique (ht.mono fun _ _ => firsts_append_of_some more)

variable (hs : s.Founded n links b) (hs' : s'.Founded n (links ++ xs.map Header.link) b')
variable (hc : SyncRecord.Continues s prior records xs) (halone : ∀ r ∈ records, r.AloneIn s')

include hs' hc halone

/-- Headers of records that were added last are stacked where none of them is genesis, provided
that nothing else is stored under their hashes. -/
theorem stacked (hstack : stack <:+: xs)
    (hdecoded : List.Forall₂ (fun r x => Header.decode r.header = .ok x) part stack)
    (hother : ∀ r ∈ part, ¬ r.IsGenesis n) : Stacked (forestOf s'.header?) n.genesisHash stack := by
  constructor
  case linked => exact hc.linked.infix hstack
  case found =>
    intro x hx
    obtain ⟨r, hr, hdecode⟩ := exists_of_mem_forall₂ hc.decoded (hstack.subset hx)
    have hstored : (forestOf s'.header? x.hash).isSome := by
      have hmem : x.link ∈ xs.map Header.link := List.mem_map_of_mem (hstack.subset hx)
      rw [hs'.forest]
      exact isSome_firsts.mpr ⟨x.link, by simp [hmem], rfl⟩
    obtain ⟨y, hy⟩ := Option.isSome_iff_exists.mp (isSome_forestOf ▸ hstored)
    refine forestOf_eq_some.mpr ⟨y, hy, ?_⟩
    rw [Header.link, Header.link, halone r hr x y hdecode hy, hs'.exact.hash_eq hy]
  case other =>
    intro x hx
    obtain ⟨r, hr, hdecode⟩ := exists_of_mem_forall₂ hdecoded hx
    exact mt (SyncRecord.isGenesis_iff hdecode).mpr (hother r hr)

include hs in
/-- The first records claim the right heights when none of them is of genesis and the header that
they continue has got no place through them. -/
theorem claims_right (hpart : part <+: records) (hother : ∀ r ∈ part, ¬ r.IsGenesis n)
    (hprior : ∀ r, Route (forestOf s'.header?) n.genesisHash prior r →
      Route (forestOf s.header?) n.genesisHash prior r) :
    ∀ r ∈ part, r.PlacedAt s' r.height := by
  obtain ⟨later, rfl⟩ := hpart
  obtain ⟨stack, rest, rfl, hdecoded, -⟩ := forall₂_append_left hc.decoded
  have hstacked : Stacked (forestOf s'.header?) n.genesisHash stack :=
    hs'.stacked hc halone (List.prefix_append _ _).isInfix hdecoded hother
  have hclaims := hc.claims.infix (List.prefix_append part later).isInfix
  intro r hr
  apply hs'.placedAt
  rw [← sub_zero r.height]
  apply hstacked.atHeight hdecoded hclaims ?_ ?_ r hr
  · exact prior
  · intro y hy
    exact hc.first y (List.mem_head?_append_of_mem_head? hy)
  · intro r₁ hr₁ t ht
    rw [hs.first_claim hc (hprior t ht) (List.mem_head?_append_of_mem_head? hr₁)]
    lia

/-- From genesis upward, what records claim is wrong by the height that is claimed for genesis. -/
theorem claims_from_genesis {r₀ : SyncRecord} (hpart : r₀ :: part <:+: records)
    (hgenesis : r₀.IsGenesis n) (hother : ∀ r ∈ part, ¬ r.IsGenesis n) :
    ∀ r ∈ r₀ :: part, r.PlacedAt s' (r.height - r₀.height) := by
  have hclaims := hc.claims.infix hpart
  obtain ⟨before, later, rfl⟩ := hpart
  obtain ⟨lower, upper, rfl, hlower, -⟩ := forall₂_append_left hc.decoded
  obtain ⟨under, above, rfl, -, habove⟩ := forall₂_append_left hlower
  obtain ⟨x₀, stack, hdecode, hdecoded, rfl⟩ := List.forall₂_cons_left_iff.mp habove
  have hlinked := hc.linked.infix ⟨under, upper, rfl⟩
  have hstacked : Stacked (forestOf s'.header?) n.genesisHash stack := by
    refine hs'.stacked hc halone ?_ hdecoded hother
    exact (List.suffix_cons x₀ stack).isInfix.trans ⟨under, upper, rfl⟩
  have hx₀ : AtHeight (forestOf s'.header?) n.genesisHash x₀.hash 0 := by
    rw [(SyncRecord.isGenesis_iff hdecode).mp hgenesis]
    exact atHeight_genesis
  rw [List.forall_mem_cons, sub_self]
  constructor
  · apply hs'.placedAt
    intro x hx
    cases hdecode.symm.trans hx
    exact hx₀
  · intro r hr
    apply hs'.placedAt
    apply hstacked.atHeight hdecoded hclaims.tail (List.isChain_cons.mp hlinked).1 ?_ r hr
    intro r₁ hr₁
    have hheight : r₁.height - r₀.height - 1 = 0 := by
      rw [(List.isChain_cons.mp hclaims).1 r₁ hr₁]
      ring
    rwa [hheight]

end Store.Founded

/-- Records that are taken claim the right heights for the headers that have a place, provided that
no other headers are stored under the hashes of theirs. This is so when none of the headers is
genesis, and up to genesis when the records continue a header with a place. The height that is
claimed for genesis may be wrong; from there upward, all claims are wrong by as much. -/
theorem History.claimed_heights (h : History) (n : Network) (prior : Hash)
    (records : List SyncRecord) {count : ℕ} {t : Tracker} (hadmits : h.Admits records.length)
    (hsync : (h.last n).sync prior records = (count, t)) (hcount : count ≠ 0)
    (halone : ∀ r ∈ records, r.AloneIn t.ledger.store) :
    ((∀ r ∈ records, ¬ r.IsGenesis n) → ∀ r ∈ records, r.PlacedAt t.ledger.store r.height) ∧
    (((h.store n).heightAfter? prior).isSome → ∀ part, part <+: records →
      (∀ r ∈ part, ¬ r.IsGenesis n) → ∀ r ∈ part, r.PlacedAt t.ledger.store r.height) ∧
    ∀ r₀ part, r₀ :: part <:+: records → r₀.IsGenesis n → (∀ r ∈ part, ¬ r.IsGenesis n) →
      ∀ r ∈ r₀ :: part, r.PlacedAt t.ledger.store (r.height - r₀.height) := by
  obtain ⟨xs, hc⟩ : ∃ xs, SyncRecord.Continues (h.store n) prior records xs := by
    by_contra hnone
    push Not at hnone
    rw [Tracker.sync_of_not_continues hnone] at hsync
    exact hcount (Prod.mk.inj hsync).1.symm
  obtain ⟨b, ht⟩ := h.founded n
  rw [← hc.length_eq] at hadmits
  obtain ⟨t', b', hadd, ht', -⟩ := h.addHeaders_ok n hadmits
  obtain ⟨-, rfl⟩ := Prod.mk.inj (hsync.symm.trans (Tracker.sync_of_continues hc hadd))
  have hs : (h.store n).Founded n _ b := ht.store
  have hs' := ht'.store
  refine ⟨?_, ?_, ?_⟩
  · intro hother
    apply hs.claims_right hs' hc halone (List.prefix_refl _) hother
    intro r hr
    have hstacked := hs'.stacked hc halone (List.infix_refl _) hc.decoded hother
    rw [hs.forest]
    rw [hs'.forest] at hstacked hr
    exact hstacked.old_route hc.first hr
  · intro hplaced part hpart hother
    apply hs.claims_right hs' hc halone hpart hother
    obtain ⟨u, hu⟩ := hs.connected_iff.mp (Store.isSome_heightAfter?.mp hplaced)
    intro r hr
    rw [hs.route_kept hs' hu hr]
    exact hu
  · intro r₀ part hpart hgenesis hother
    exact hs'.claims_from_genesis hc halone hpart hgenesis hother

section Upward

variable {r : SyncRecord}

theorem exists_of_mem_upwardRecords (hr : r ∈ upwardRecords height) :
    ∃ x ∈ [lowerHeader, upperHeader], Header.decode r.header = .ok x :=
  exists_of_mem_forall₂ (decoded_upwardRecords height).flip hr

theorem not_isGenesis_upwardRecords (hr : r ∈ upwardRecords height) : ¬ r.IsGenesis .regtest := by
  obtain ⟨x, hx, hdecode⟩ := exists_of_mem_upwardRecords hr
  obtain ⟨hlower, hupper, -⟩ := hashes_upward
  rw [SyncRecord.isGenesis_iff hdecode]
  rcases List.mem_pair.mp hx with rfl | rfl
  · exact hlower
  · exact hupper

variable (hforest : forestOf s.header? =
  firsts [Network.regtest.genesis.link, lowerHeader.link, upperHeader.link])

include hforest

theorem aloneIn_upwardRecords (hr : r ∈ upwardRecords height) : r.AloneIn s := by
  obtain ⟨x, hx, hdecode⟩ := exists_of_mem_upwardRecords hr
  apply SyncRecord.aloneIn_of_forest hdecode
  rw [hforest, firsts_eq_some_iff names_upward]
  exact ⟨.tail _ (List.mem_map_of_mem hx), rfl⟩

end Upward

/-- Two records that continue genesis are taken, their headers get a place, and their claims are
right. -/
theorem History.claimed_heights_of_upwardRecords : (⟨[], by decide⟩ : History).Admits 2 ∧
    ∃ t, (Tracker.fresh .regtest).sync Network.regtest.genesisHash (upwardRecords 2) = (2, t) ∧
      (∀ r ∈ upwardRecords 2, r.AloneIn t.ledger.store) ∧
      (∀ r ∈ upwardRecords 2, ¬ r.IsGenesis .regtest) ∧
      (∃ y, t.ledger.store.header? lowerHeader.hash = some y ∧ y.isDisconnected = false ∧
        y.height = 1) ∧
      ∃ y, t.ledger.store.header? upperHeader.hash = some y ∧ y.isDisconnected = false ∧
        y.height = 2 := by
  have hadmits : (⟨[], by decide⟩ : History).Admits 2 := by
    unfold History.Admits
    decide
  obtain ⟨t, b', hadd, ht, -⟩ :=
    (Tracker.founded_fresh .regtest).addHeaders [lowerHeader, upperHeader]
      (by unfold Roomy; decide)
  have hsync := Tracker.sync_of_continues continues_upwardRecords hadd
  have hforest : forestOf t.ledger.store.header? =
      firsts [Network.regtest.genesis.link, lowerHeader.link, upperHeader.link] := ht.store.forest
  have halone : ∀ r ∈ upwardRecords 2, r.AloneIn t.ledger.store :=
    fun r hr => aloneIn_upwardRecords hforest hr
  have hother : ∀ r ∈ upwardRecords 2, ¬ r.IsGenesis .regtest :=
    fun r hr => not_isGenesis_upwardRecords hr
  obtain ⟨hplaced, -⟩ := claimed_heights ⟨[], by decide⟩ .regtest Network.regtest.genesisHash
    (upwardRecords 2) hadmits hsync (by decide) halone
  have hroute := route_upward
  rw [← hforest] at hroute
  have hlower := ht.store.exact.placed (hroute.of_suffix ht.store.exact.named
    (List.suffix_cons upperHeader.link _))
  have hupper := ht.store.exact.placed hroute
  refine ⟨hadmits, t, hsync, halone, hother, ⟨_, hlower, isDisconnected_placed, ?_⟩,
    ⟨_, hupper, isDisconnected_placed, ?_⟩⟩
  · exact hplaced hother _ (.head _) _ _ (decode_easyHeader _ _) hlower isDisconnected_placed
  · exact hplaced hother _ (.tail _ (.head _)) _ _ (decode_easyHeader _ _) hupper
      isDisconnected_placed

/-- A record of the genesis header that claims a height far above it. -/
def genesisRecord : SyncRecord := ⟨100, Network.regtest.genesisRaw.encode⟩

def genesisRead : Header := .unplaced Network.regtest.genesisRaw

theorem decode_genesisRecord : Header.decode genesisRecord.header = .ok genesisRead := by
  have husable : (Target.workOfBits Network.regtest.genesisRaw.bits).isSome = true := by
    decide +kernel
  exact (Header.decode_encode _).trans (Header.ofRaw_of_isSome husable)

/-- The record continues the null hash, under which nothing is stored. -/
theorem continues_genesisRecord :
    SyncRecord.Continues (.founding .regtest) .zero [genesisRecord] [genesisRead] := by
  refine SyncRecord.continues_singleton.mpr ⟨decode_genesisRecord, rfl, by decide, ?_⟩
  have hne : Network.regtest.genesisHash ≠ .zero := by decide +kernel
  intro p hp
  rw [Store.header?_founding, if_neg hne] at hp
  cases hp

/-- Nothing checks the height that is claimed for genesis. -/
theorem History.genesis_claim_unchecked : ∃ t,
    (Tracker.fresh .regtest).sync .zero [genesisRecord] = (1, t) ∧
      ¬ genesisRecord.PlacedAt t.ledger.store genesisRecord.height := by
  obtain ⟨t, b', hadd, ht, -⟩ :=
    (Tracker.founded_fresh .regtest).addHeaders [genesisRead] (by unfold Roomy; decide)
  refine ⟨t, Tracker.sync_of_continues continues_genesisRecord hadd, ?_⟩
  intro hplaced
  obtain ⟨x, hx⟩ := ht.store.exact.genesis_route
  have hheight := hplaced _ _ decode_genesisRecord (ht.store.exact.placed hx) isDisconnected_placed
  simp [genesisRecord] at hheight

end HeaderChain
