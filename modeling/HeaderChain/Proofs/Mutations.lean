import HeaderChain.Proofs.Overlay
import HeaderChain.Proofs.Staging

/-!
# Mutations of a draft

A draft is staged by mutations, in any order: later ones undo, repeat or go on from earlier ones.
Each one keeps the draft well formed, and none touches the store below it.
-/

namespace HeaderChain

open Store

/-- A change of a header that leaves it its hash. -/
structure HeaderChange where
  run : Header → Header
  hash : ∀ h, (run h).hash = h.hash
  storable : ∀ h, h.Storable → (run h).Storable

inductive Mutation where
  | stageNew (h : Header) (storable : h.Storable) (change : HeaderChange)
  | stage (hash : Hash) (change : HeaderChange)
  | extend (p : Position) (fits : p.height.Fits)
  | rewind (p : Position) (fits : p.height.Fits)
  | addSibling (hash : Hash)
  | removeSibling (hash : Hash)
  | detach (parent child : Hash)
  | attach (parent child : Hash)
  | setCheckpoint (p : Position) (fits : p.height.Fits)
  | clearCheckpoint

namespace Mutation

/-- The draft after a mutation. One that fails leaves the draft as it is. -/
def run (m : Mutation) (d : Draft) : Draft :=
  match m with
  | stageNew h _ change => d.stageNew h change.run
  | stage hash change =>
    match d.stage hash change.run with
    | .error _ => d
    | .ok (_, d) => d
  | extend p _ => d.extend p
  | rewind p _ => d.cutBack p
  | addSibling hash => d.addSibling hash
  | removeSibling hash => d.removeSibling hash
  | detach parent child => d.detach parent child
  | attach parent child => d.attach parent child
  | setCheckpoint p _ => d.setCheckpoint p
  | clearCheckpoint => d.clearCheckpoint

def runAll (d : Draft) (ms : List Mutation) : Draft := ms.foldl (fun d m => m.run d) d

end Mutation

variable {d : Draft} {h : Header} {k : Hash} {p : Position}

namespace Draft

theorem wellFormed_mk (s : Store) : ({ base := s } : Draft).WellFormed := by
  constructor <;> simp

namespace WellFormed

theorem header? (hd : d.WellFormed) (hs : d.base.Regular) (hk : d.header? k = some h) :
    h.hash = k ∧ h.Storable := by
  unfold Draft.header? at hk
  cases hstaged : d.headers[k]? with
  | some x =>
    rw [hstaged] at hk
    cases hk
    exact ⟨hd.named k h hstaged, hd.storable k h hstaged⟩
  | none =>
    rw [hstaged] at hk
    exact ⟨hs.named k h hk, storable_of_header? hk⟩

theorem restage (hd : d.WellFormed) (hk : h.hash = k) (hstorable : h.Storable) :
    (d.restage k h).WellFormed := by
  have hstaged (j : Hash) (x : Header) (hx : (d.restage k h).headers[j]? = some x) :
      x.hash = j ∧ x.Storable := by
    simp only [Draft.restage, Std.TreeMap.getElem?_insert, Std.LawfulEqCmp.compare_eq_iff_eq] at hx
    split_ifs at hx with heq
    · cases hx
      exact ⟨hk.trans heq, hstorable⟩
    · exact ⟨hd.named j x hx, hd.storable j x hx⟩
  exact { hd with named := fun j x hx => (hstaged j x hx).1,
                  storable := fun j x hx => (hstaged j x hx).2 }

theorem stageNew (hd : d.WellFormed) (hstorable : h.Storable) (change : HeaderChange) :
    (d.stageNew h change.run).WellFormed := by
  have hcopy : (d.headers.getD h.hash h).hash = h.hash ∧ (d.headers.getD h.hash h).Storable := by
    rw [Std.TreeMap.getD_eq_getD_getElem?]
    cases hstaged : d.headers[h.hash]? with
    | none => exact ⟨rfl, hstorable⟩
    | some x => exact ⟨hd.named _ x hstaged, hd.storable _ x hstaged⟩
  exact hd.restage ((change.hash _).trans hcopy.1) (change.storable _ hcopy.2)

theorem extend (hd : d.WellFormed) (hp : p.height.Fits) : (d.extend p).WellFormed := by
  refine { hd with best := ?_ }
  intro height hheight
  rcases Std.TreeMap.mem_insert.mp hheight with heq | hold
  · rwa [← compare_eq_iff_eq.mp heq]
  · exact hd.best height hold

theorem rewind (hd : d.WellFormed) (hp : p.height.Fits) : (d.rewind p).WellFormed := by
  have hkept : d.keptHeight ≤ d.base.tipHeight :=
    keptHeight_le_base fun q hq => (hd.ancestor q hq).2.le
  refine { hd with best := ?_, ancestor := ?_ }
  · intro height hheight
    rw [Std.TreeMap.mem_iff_isSome_getElem?, getElem?_best_rewind] at hheight
    split_ifs at hheight
    · exact hd.best height (Std.TreeMap.mem_iff_isSome_getElem?.mpr hheight)
    · cases hheight
  · intro q hq
    change (if p.height < d.keptHeight then some p else d.ancestor) = some q at hq
    split_ifs at hq with hlt
    · cases hq
      exact ⟨hp, lt_of_lt_of_le hlt hkept⟩
    · exact hd.ancestor q hq

theorem cutBack (hd : d.WellFormed) (hp : p.height.Fits) : (d.cutBack p).WellFormed := by
  have hcut := hd.rewind hp
  unfold Draft.cutBack
  split_ifs with hlt
  · exact hcut
  · exact { hcut with best := fun _ hheight => absurd hheight Std.TreeMap.not_mem_emptyc }

/-- A mutation leaves the store under the draft, and keeps the draft well formed. -/
theorem run (hd : d.WellFormed) (hs : d.base.Regular) (m : Mutation) :
    (m.run d).base = d.base ∧ (m.run d).WellFormed := by
  cases m with
  | stageNew h hstorable change => exact ⟨rfl, hd.stageNew hstorable change⟩
  | stage hash change =>
    rw [Mutation.run]
    cases hstage : d.stage hash change.run with
    | error cause => exact ⟨rfl, hd⟩
    | ok staged =>
      obtain ⟨x, e⟩ := staged
      obtain ⟨h, hshown, rfl⟩ := stage_ok hstage
      obtain ⟨hname, hstorable⟩ := hd.header? hs hshown
      exact ⟨rfl, hd.restage ((change.hash h).trans hname) (change.storable h hstorable)⟩
  | extend p hp => exact ⟨rfl, hd.extend hp⟩
  | rewind p hp =>
    refine ⟨?_, hd.cutBack hp⟩
    change (d.cutBack p).base = d.base
    unfold Draft.cutBack
    split_ifs <;> rfl
  | setCheckpoint p hp =>
    refine ⟨rfl, { hd with checkpoint := ?_ }⟩
    rintro _ ⟨⟩
    exact hp
  | clearCheckpoint => exact ⟨rfl, { hd with checkpoint := fun _ hset => nomatch hset }⟩
  | _ => exact ⟨rfl, { hd with }⟩

theorem runAll (hd : d.WellFormed) (hs : d.base.Regular) (ms : List Mutation) :
    (Mutation.runAll d ms).base = d.base ∧ (Mutation.runAll d ms).WellFormed := by
  induction ms generalizing d with
  | nil => exact ⟨rfl, hd⟩
  | cons m ms ih =>
    obtain ⟨hbase, hnext⟩ := hd.run hs m
    obtain ⟨hbase', hlast⟩ := ih hnext (hbase ▸ hs)
    exact ⟨hbase'.trans hbase, hlast⟩

end WellFormed

end Draft

end HeaderChain
