import HeaderChain.Draft

/-!
# Candidates for the best chain

A candidate is a path of connected headers that ends off the best chain, or extends it. Candidates
compete in a contest, together with the draft that their headers are staged in. A header that has
found its parent starts a candidate; the headers that waited under its tip then extend it, and
where several waited under one header, each further one continues a copy. When an operation on a
contest fails, what it did before that stays.
-/

namespace HeaderChain

/-- A path of headers up to a tip, highest first. -/
structure Candidate where
  /-- Whether a checkpoint rules the tip out. -/
  banned : Bool
  chain : List Position
deriving DecidableEq

namespace Candidate

def tip? (c : Candidate) : Option Position := c.chain.head?

def extend (c : Candidate) (h : Header) : Candidate := ⟨h.isBanned, h.position :: c.chain⟩

/-- The positions before the first banned header. -/
def beforeBan (d : Draft) : List Position → Except ChainError (List Position)
  | [] => .ok []
  | p :: rest => do
    if (← d.header p.hash).isBanned then return []
    else return p :: (← beforeBan d rest)

/-- The positions that may become the best chain, lowest first. -/
def eligible (d : Draft) (c : Candidate) : Except ChainError (List Position) :=
  if c.banned then beforeBan d c.chain.reverse else .ok c.chain.reverse

end Candidate

namespace Draft

/-- Gives a header the chain state that follows from its parent and the checkpoint. -/
def connect (d : Draft) (parent : Header) (child : Hash) : Except StoreError (Header × Draft) :=
  d.stage child fun h => h.connect parent d.currentCheckpoint

/-- The candidate that ends at `tip` and starts above the first header of the best chain that is
lower than `height`. -/
def candidateBelow (d : Draft) (tip : Hash) (height : Height) : Except ChainError Candidate := do
  let start ← d.header tip
  let meets (h : Header) : Bool := h.height < height && d.onBest h.position
  let t ← d.trace (fun h => meets h || h.isRoot) start
  if meets t.last then return ⟨false, t.passed⟩ else throw (.notConnected (.offBest tip))

end Draft

/-- Candidates, and the draft that their headers are staged in. -/
structure Contest where
  draft : Draft
  candidates : Array Candidate := #[]

namespace Contest

abbrev Step := ExceptT ChainError (StateM Contest)

def connect (parent : Header) (child : Hash) : Step Header := do
  let c ← get
  match c.draft.connect parent child with
  | .error cause => throw (.store cause)
  | .ok (h, draft) =>
    set { c with draft }
    return h

/-- Connects a header to its parent, and returns the candidate from the best chain up to it. -/
def fork (parent : Header) (child : Hash) : Step Candidate := do
  let h ← connect parent child
  let d := (← get).draft
  let t ← liftExcept (d.trace (fun h => d.onBest h.position || h.isRoot) parent)
  if d.onBest t.last.position then return ⟨h.isBanned, h.position :: t.passed⟩
  else throw (.notConnected (.stopped h.position t.last.position))

def enter (candidate : Candidate) : Step Nat :=
  modifyGet fun c => (c.candidates.size, { c with candidates := c.candidates.push candidate })

/-- Connects a header that waited under `hash`, and makes it the tip of the candidate `index`,
which is `before` up to its parent. -/
def attach (hash : Hash) (parent : Header) (before : Candidate) (index : Nat) (child : Hash) :
    Step Unit := do
  modify fun c => { c with draft := c.draft.attach hash child }
  let h ← connect parent child
  modify fun c => { c with candidates := c.candidates.setIfInBounds index (before.extend h) }

/-- Attaches further children of one parent, each to a copy of `before`, and puts them in front of
the queue. -/
def attachCopies (hash : Hash) (parent : Header) (before : Candidate) :
    (queue : List (Hash × Nat)) → (children : List Hash) → Step (List (Hash × Nat))
  | queue, [] => return queue
  | queue, child :: rest => do
    let index ← enter before
    attach hash parent before index child
    attachCopies hash parent before ((child, index) :: queue) rest

/-- Attaches all that waits under the headers of the queue, each the tip of the candidate beside
it, and then what waits under those. The last header attached comes first. When there is still one
to look at after `bound` of them, that is an error. -/
def attachWaiting : (bound : Nat) → (queue : List (Hash × Nat)) → Step Unit
  | _, [] => return
  | 0, (hash, _) :: _ => throw (.contradiction (.unending hash))
  | bound + 1, (hash, index) :: queue => do
    let c ← get
    match c.draft.waitingFor hash, c.candidates[index]? with
    | child :: others, some before =>
      let parent ← liftExcept (c.draft.header hash)
      attach hash parent before index child
      attachWaiting bound (← attachCopies hash parent before ((child, index) :: queue) others)
    | _, _ => attachWaiting bound queue

/-- Attaches all descendants that wait under the tip of a candidate. -/
def connectChildren (index : Nat) : Step Unit := do
  let c ← get
  match c.candidates[index]?.bind Candidate.tip? with
  | none => return
  | some tip =>
    attachWaiting (c.draft.base.records.size + c.draft.edges.added.size + 1) [(tip.hash, index)]

/-- Connects a header to its parent, and attaches all its descendants that wait. The candidates are
those that end at them. -/
def join (parent : Header) (child : Hash) : Step Unit := do
  let index ← enter (← fork parent child)
  connectChildren index

/-- Connects headers again, each to the one before it and the first to `parent`. They extend the
candidate `done`. When one fails, the rest of the path stays as it was. -/
def reapply (d : Draft) (parent : Header) (done : Candidate) :
    List Position → Draft × Candidate × Option StoreError
  | [] => (d, done, none)
  | p :: rest =>
    match d.connect parent p.hash with
    | .error cause => (d, { done with chain := rest.reverse ++ p :: done.chain }, some cause)
    | .ok (h, d) => reapply d h (done.extend h) rest

/-- Gives all headers of a candidate the chain state that follows from the checkpoint. -/
def reconnect (index : Nat) : Step Unit := do
  let c ← get
  match c.candidates[index]? with
  | none => return
  | some candidate =>
    match candidate.chain.reverse with
    | [] => return
    | first :: rest =>
      let lowest ← liftExcept (c.draft.header first.hash)
      let parent ← liftExcept (c.draft.header lowest.parent)
      let (draft, after, failure) :=
        reapply c.draft parent { candidate with chain := [] } (first :: rest)
      set { c with draft, candidates := c.candidates.setIfInBounds index after }
      match failure with
      | none => return
      | some cause => throw (.store cause)

/-- Carries out an operation from the start, and keeps the contest that it leaves. -/
def perform {α : Type} (c : Contest) (step : Step α) : Except ChainError α × Contest :=
  step.run.run c

end Contest

end HeaderChain
