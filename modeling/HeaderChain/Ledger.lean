import HeaderChain.Draft.Commit
import HeaderChain.Ledger.Event

/-!
# Ledgers

A ledger is the open store of one network with its event bus. Changes come as drafts; each one
that is committed sets the bus to the new tip, and at most one event tells of it: the chain was
reorganized when it was cut back below its tip, and extended when the tip is another one.
-/

namespace HeaderChain

structure Ledger where
  network : Network
  store : Store
  bus : EventBus

/-- What a commit did to the best chain, if anything. `ancestor` is where the chain was cut. -/
def Event.ofCommit? (network : Network) (ancestor : Option Position) (c : Committed) :
    Option Event :=
  let extended := if c.after = c.before then none else some (.extended network c.after)
  match ancestor with
  | none => extended
  | some p => if p.height < c.before.height then some (.reorganized network p c.after) else extended

namespace Ledger

def ofStore (s : Store) (network : Network) : Except StoreError Ledger := do
  let store ← s.claim network
  let best ← store.best
  return { network, store, bus := { best := best.position } }

/-- The ledger of a network that has nothing but its genesis header. -/
def create (network : Network) : Except StoreError Ledger := ofStore {} network

def draft (l : Ledger) : Draft := { base := l.store }

/-- Commits a draft over the ledger's store. When the transaction is aborted there is no other
ledger: the store discards what was written, and nothing was published before. -/
def apply (l : Ledger) (d : Draft) : Except StoreError Ledger := do
  let c ← d.commit
  let bus := match Event.ofCommit? l.network d.ancestor c with
    | none => l.bus
    | some e => l.bus.publish e
  return { l with store := c.store, bus := bus.setBest c.after }

end Ledger

end HeaderChain
