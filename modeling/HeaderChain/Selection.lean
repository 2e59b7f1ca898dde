import HeaderChain.Selection.Candidate

/-!
# Choosing the best chain

A header joins the tree under its parent, or waits when that has no place. The candidates that
follow from it compete with the best chain: one with strictly more work than the tip and all
before it wins. The tips that lose are kept as siblings, unless another sibling descends from
them. A change of the checkpoint is a contest of all tips from the header below it.
-/

namespace HeaderChain

namespace Draft

/-! ## The winner -/

/-- The path with the most work among candidates, where it has to have more than `most`, and the
first one wins a tie. -/
def heaviest (d : Draft) :
    (most : Nat) → (winner : Option (List Position)) → List Candidate →
      Except ChainError (Option (List Position))
  | _, winner, [] => .ok winner
  | most, winner, c :: rest => do
    let path ← c.eligible d
    match path.getLast? with
    | none => d.heaviest most winner rest
    | some tip =>
      let work := (← d.header tip.hash).work
      if work > most then d.heaviest work (some path) rest else d.heaviest most winner rest

/-- Puts a position onto the best chain. It is no sibling any more. -/
def enlist (d : Draft) (p : Position) : Draft :=
  (if d.isSibling p.hash then d.removeSibling p.hash else d).extend p

/-- Makes a path, lowest position first, part of the best chain, whose tip was `current`. Positions
already on it are passed over; the first other one that is no higher than the tip cuts the chain
back to its parent, and that is told with the draft. -/
def adopt (current : Position) (d : Draft) (rewound : Bool) :
    List Position → Except ChainError (Bool × Draft)
  | [] => .ok (rewound, d)
  | p :: rest =>
    if !rewound && p.height ≤ current.height then
      if d.onBest p then adopt current d rewound rest
      else do
        let h ← d.header p.hash
        adopt current ((d.rewind ⟨p.height - 1, h.parent⟩).enlist p) true rest
    else adopt current (d.enlist p) rewound rest

/-! ## Siblings -/

/-- Whether the header with this hash descends from `ancestor`, or is it. -/
def descends (d : Draft) (hash : Hash) (ancestor : Position) : Except ChainError Bool := do
  let start ← d.header hash
  let t ← d.trace (fun h => h.height ≤ ancestor.height || h.isDisconnected) start
  return t.last.height ≤ ancestor.height && t.last.hash == ancestor.hash

/-- Whether one of the siblings, other than the tip itself, descends from a tip. -/
def isExtended (d : Draft) (siblings : List Hash) (tip : Position) : Except ChainError Bool :=
  siblings.anyM fun other => do
    if other = tip.hash then return false else d.descends other tip

def addTip (d : Draft) (tip : Position) : Draft :=
  if d.onBest tip || d.isSibling tip.hash then d else d.addSibling tip.hash

/-- Ends that a tip is one of the siblings when another of them descends from it. -/
def dropExtended (siblings : List Hash) (d : Draft) (tip : Position) : Except ChainError Draft := do
  if siblings.contains tip.hash then
    if ← d.isExtended siblings tip then return d.removeSibling tip.hash
  return d

/-- Makes tips off the best chain siblings, and ends that for those that others descend from. -/
def recordSiblings (d : Draft) (tips : List Position) : Except ChainError Draft :=
  let d := tips.foldl addTip d
  tips.foldlM (dropExtended d.allSiblings) d

/-- Makes the path of the winner part of the best chain, whose tip was `current`. Without a winner
the chain is cut back to `reference`. Returns the old tip if it has lost its place. -/
def settle (d : Draft) (current : Position) (reference : Header) :
    (winner : Option (List Position)) → Except ChainError (List Position × Draft)
  | some path => do
    let (rewound, d) ← adopt current d false path
    return (if rewound then [current] else [], d)
  | none =>
    if reference.position = current then .ok ([], d)
    else .ok ([current], d.rewind reference.position)

/-- Makes the winning candidate part of the best chain, if there is one with more work than
`reference`. All other tips become siblings. -/
def choose (d : Draft) (reference : Header) (candidates : List Candidate) :
    Except ChainError Draft := do
  let current ← d.tip
  let winner ← d.heaviest reference.work none candidates
  let (retired, d) ← d.settle current reference winner
  d.recordSiblings (retired ++ candidates.filterMap Candidate.tip?)

/-! ## New headers -/

def addWaiting (d : Draft) (h : Header) : Draft :=
  (d.stageNew h Header.disconnect).detach h.parent h.hash

/-- Puts a header under its parent, with all that waits for it. -/
def addConnected (d : Draft) (h parent : Header) : Except ChainError Draft := do
  let d := if d.isSibling h.parent then d.removeSibling h.parent else d
  let contest : Contest := { draft := d.stageNew h id }
  let (result, contest) := contest.perform (Contest.join parent h.hash)
  result
  let (reference, d) ← contest.draft.stageBest
  d.choose reference contest.candidates.toList

/-- Adds a header. One that is known already changes nothing. -/
def addHeader (d : Draft) (h : Header) : Except ChainError Draft :=
  if d.hasHeader h.hash then .ok d
  else match d.header? h.parent with
    | none => .ok (d.addWaiting h)
    | some parent =>
      if parent.isDisconnected then .ok (d.addWaiting h) else d.addConnected h parent

def addHeaders (d : Draft) (hs : List Header) : Except ChainError Draft := hs.foldlM addHeader d

/-! ## Checkpoints -/

/-- The candidates of all siblings that reach the best chain below `height`. -/
def siblingCandidates (d : Draft) (height : Height) :
    List Hash → Except ChainError (List Candidate)
  | [] => .ok []
  | hash :: rest =>
    match d.candidateBelow hash height with
    | .ok c => return c :: (← d.siblingCandidates height rest)
    | .error (.notConnected _) => d.siblingCandidates height rest
    | .error e => .error e

/-- Chooses the best chain again after the checkpoint at this position has come or gone. The
current chain competes first, from the header below the checkpoint, or from the tip where that is
lower. -/
def applyCheckpoint (d : Draft) (checkpoint : Position) : Except ChainError Draft := do
  let tip ← d.tip
  let base := min (checkpoint.height - 1) tip.height
  match d.bestAt? base with
  | none => throw (.contradiction (.noBase base checkpoint))
  | some hash =>
    let reference ← d.header hash
    let current ← d.candidateBelow tip.hash (base + 1)
    let others ← d.siblingCandidates (base + 1) d.allSiblings
    let contest : Contest := { draft := d, candidates := (current :: others).toArray }
    let (result, contest) := contest.perform
      ((List.range contest.candidates.size).forM Contest.reconnect)
    result
    contest.draft.choose reference contest.candidates.toList

end Draft

end HeaderChain
