import HeaderChain.Ledger

/-!
# Questions about the best chain

What the committed records say about the best chain and about the way of other headers to it. A
limit of zero means that there is none. Positions that are asked for are taken at their hash; the
height that comes with it only decides whether the position is on the best chain.
-/

namespace HeaderChain

/-- `count` under a limit. -/
def limited (limit count : Nat) : Nat := if limit = 0 then count else min limit count

namespace Store

/-- How many headers there can be at most. -/
def bound (s : Store) : Nat := s.records.size + 1

/-- The best chain from `first` upward, `count` positions at most. -/
def bestRun (s : Store) (first : Height) : (count : Nat) → List Position
  | 0 => []
  | count + 1 =>
    match s.bestAt? first with
    | none => []
    | some hash => ⟨first, hash⟩ :: s.bestRun (first + 1) count

/-- The best chain between two heights, under a limit. -/
def bestBetween (s : Store) (first last : Height) (limit : Nat) : List Position :=
  s.bestRun first (limited limit (last - first + 1).toNat)

def bestPosition (s : Store) (height : Height) : Option Position :=
  (s.bestAt? height).map fun hash => ⟨height, hash⟩

def isBest (s : Store) (hash : Hash) : Bool := (s.header? hash).any fun h => s.onBest h.position

/-- How many hashes `recentHashes` gives at most. -/
def recentLimit : Nat := 100

def recentHashes (s : Store) : List Hash :=
  (List.range (min recentLimit (s.tipHeight + 1).toNat)).filterMap fun (depth : Nat) =>
    s.bestAt? (s.tipHeight - depth)

/-- The front of a list up to the first member that satisfies `p`, with that member. -/
def through {α : Type} (p : α → Bool) : List α → List α
  | [] => []
  | x :: rest => if p x then [x] else x :: through p rest

/-- The hashes of the best chain from a height upward, up to `stop` if that is among them. -/
def bestHashes (s : Store) (first : Height) (stop : Hash) (limit : Nat) : List Hash :=
  through (· = stop) ((s.bestBetween (max first 0) s.tipHeight limit).map Position.hash)

/-! ## Ways to the best chain -/

def connected (s : Store) (hash : Hash) : Except ChainError Header :=
  match s.load hash with
  | .error cause => .error (.store cause)
  | .ok h => if h.isDisconnected then .error (.notConnected (.waiting hash)) else .ok h

def parentOf (s : Store) (h : Header) : Except ChainError Header :=
  (s.load h.parent).mapError .store

/-- The path from `cursor` down to the first ancestor that it shares with `other`, highest first,
where both go down together. Nothing is found below genesis or after `bound` steps. -/
def meet (s : Store) (failure : ChainError) :
    (bound : Nat) → (cursor other : Header) → Except ChainError (List Position)
  | 0, _, _ => .error failure
  | bound + 1, cursor, other =>
    if cursor.hash = other.hash then .ok [cursor.position]
    else if cursor.height ≤ 0 then .error failure
    else do
      let parent ← s.parentOf cursor
      let uncle ← s.parentOf other
      return cursor.position :: (← s.meet failure bound parent uncle)

/-- The path of the best chain between two of its positions. -/
def bestPath (s : Store) (start target : Position) (limit : Nat) :
    Except ChainError (List Position) :=
  let path := s.bestBetween start.height target.height limit
  if path.length = limited limit (target.height - start.height + 1).toNat then .ok path
  else .error (.contradiction (.noBlock (start.height + path.length)))

/-- The path over parents from the last ancestor that two headers share up to the second. -/
def treePath (s : Store) (start target : Position) (limit : Nat) :
    Except ChainError (List Position) := do
  let other ← s.connected start.hash
  let cursor ← s.connected target.hash
  if other.height > cursor.height then throw (.invalidPosition other.position cursor.position)
  let t ← Trace.run (.contradiction (.endless cursor.position))
    (fun hash => (s.load hash).mapError .store) (fun h => h.height ≤ other.height) s.bound cursor
  let rest ← s.meet (.notConnected (.unrelated start target)) (s.bound * s.bound) t.last other
  let path := (t.passed ++ rest).reverse
  return path.take (limited limit path.length)

/-- The path from the last ancestor that `start` and `target` share up to `target`. -/
def ancestors (s : Store) (start target : Position) (limit : Nat) :
    Except ChainError (List Position) :=
  if start.height > target.height then .error (.invalidPosition start target)
  else if s.onBest start && s.onBest target then s.bestPath start target limit
  else s.treePath start target limit

/-- Walks from a header to the best chain, or to where there is no parent. -/
def traceToBest {ε : Type} (s : Store) (missing endless : ε) (h : Header) : Except ε Trace :=
  Trace.run endless
    (fun hash => match s.header? hash with | none => .error missing | some h => .ok h)
    (fun h => s.onBest h.position || h.isRoot) s.bound h

/-- The positions that become part of the best chain when `tip` becomes its tip, highest first. -/
def reorgPath (s : Store) (tip : Position) : Except ChainError (List Position) :=
  if s.onBest tip then .ok []
  else match s.header? tip.hash with
    | none => .error (.notConnected (.unknown tip))
    | some h => do
      let t ← s.traceToBest (.notConnected (.missingAncestor tip))
        (.contradiction (.endless h.position)) h
      if s.onBest t.last.position then return t.passed
      else throw (.notConnected (.unreached tip))

end Store

namespace Ledger

/-- The last ancestor on the best chain, where a header that does not reach it has genesis. -/
def bestAncestor (l : Ledger) (hash : Hash) : Position :=
  let genesis : Position := ⟨0, l.network.genesisHash⟩
  match l.store.header? hash with
  | none => genesis
  | some h =>
    match l.store.traceToBest () () h with
    | .error _ => genesis
    | .ok t => if l.store.onBest t.last.position then t.last.position else genesis

def tip (l : Ledger) : Except ChainError Position :=
  (l.store.best.map Header.position).mapError .store

/-- The last ancestor of a position on the best chain, and the tip. -/
def commonParent (l : Ledger) (p : Position) : Except ChainError (Position × Position) :=
  l.tip.map fun tip => (l.bestAncestor p.hash, tip)

/-- The best chain from the last ancestor of a position upward. -/
def bestChainFrom (l : Ledger) (p : Position) (limit : Nat) :
    Except ChainError (List Position) := do
  let (ancestor, tip) ← l.commonParent p
  return l.store.bestBetween ancestor.height tip.height limit

end Ledger

end HeaderChain
