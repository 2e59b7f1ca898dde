import HeaderChain.Store

/-!
# What goes wrong in a chain

The errors of the operations on a kept chain, by cause, with their messages. Those of the last
kind show that what is stored contradicts itself.
-/

namespace HeaderChain

/-- The least height of a checkpoint: genesis and its children can never be ruled out. -/
def Height.leastCheckpoint : Height := 2

inductive Detachment where
  /-- A walk over parents ended away from the best chain. -/
  | stopped (start last : Position)
  | offBest (tip : Hash)
  | unrelated (start target : Position)
  | unknown (tip : Position)
  | unreached (tip : Position)
  | missingAncestor (tip : Position)
  | waiting (hash : Hash)
deriving DecidableEq

def Detachment.message : Detachment → String
  | .stopped start last => "walk from " ++ start.summary ++ " stopped at " ++ last.summary
  | .offBest tip => "chain ending at " ++ tip.short ++ " does not reach the best chain"
  | .unrelated start target => start.summary ++ " and " ++ target.summary ++ " share no ancestor"
  | .unknown tip => tip.summary ++ " is not a known header"
  | .unreached tip => tip.summary ++ " does not reach the best chain"
  | .missingAncestor tip => tip.summary ++ " has a missing ancestor"
  | .waiting hash => hash.short ++ " is disconnected"

/-- How the stored records contradict each other. -/
inductive Contradiction where
  | noTip (height : Height)
  | noBase (height : Height) (checkpoint : Position)
  | noBlock (height : Height)
  /-- A walk over parents never ends. -/
  | endless (start : Position)
  /-- What waits under a header waits under itself. -/
  | unending (hash : Hash)
deriving DecidableEq

def Contradiction.message : Contradiction → String
  | .noTip height => "no effective best block at tip height " ++ toString height
  | .noBase height checkpoint =>
    "best chain has no block at " ++ toString height ++ " below checkpoint " ++ checkpoint.summary
  | .noBlock height => "best chain has no block at " ++ toString height
  | .endless start => "walk from " ++ start.summary ++ " does not end"
  | .unending hash => "headers that wait under " ++ hash.short ++ " do not end"

inductive ChainError where
  | store (cause : StoreError)
  | unknownHeader (hash : Hash)
  | notConnected (cause : Detachment)
  /-- A path should start above its end. -/
  | invalidPosition (start target : Position)
  | checkpointExists (checkpoint : Position)
  | noCheckpoint
  | lowCheckpoint (height : Height)
  | contradiction (cause : Contradiction)
deriving DecidableEq

namespace ChainError

def message : ChainError → String
  | store cause => cause.message
  | unknownHeader hash => "not found: header " ++ hash.hex
  | notConnected cause => "not connected: " ++ cause.message
  | invalidPosition start target =>
    "invalid position: start " ++ start.summary ++ " is above target " ++ target.summary
  | checkpointExists checkpoint => "checkpoint already set at " ++ checkpoint.summary
  | noCheckpoint => "no checkpoint is set"
  | lowCheckpoint height =>
    "invalid checkpoint: height " ++ toString height ++ " is below minimum " ++
      toString Height.leastCheckpoint
  | contradiction cause => "invariant violation: " ++ cause.message

/-- Whether the error shows that the stored chain is damaged. -/
def isFatal : ChainError → Bool
  | contradiction _ => true
  | _ => false

end ChainError

end HeaderChain
