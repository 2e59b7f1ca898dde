import HeaderChain.Network

/-!
# Events

What happens to the best chain is published as events. A bus keeps them in order; each receiver
has its place among them and sees those that come after it. Only the newest events are kept: a
receiver that is further behind is told once how many it has lost. Beside the events the bus
holds the position of the best chain's tip.
-/

namespace HeaderChain

inductive Event where
  /-- It was extended up to a tip. -/
  | extended (network : Network) (tip : Position)
  /-- It was cut back to an ancestor and now ends at another tip. -/
  | reorganized (network : Network) (ancestor tip : Position)
deriving DecidableEq

namespace Event

def network : Event → Network
  | extended network _ => network
  | reorganized network _ _ => network

def tip : Event → Position
  | extended _ tip => tip
  | reorganized _ _ tip => tip

end Event

/-- All events so far, and the position of the tip. -/
structure EventBus where
  best : Position
  events : Array Event := #[]

/-- The place of one who listens: how many events are behind it. -/
structure Receiver where
  seen : Nat
deriving DecidableEq, Repr

inductive Receipt where
  | event (e : Event)
  | nothing
  /-- So many events are lost. -/
  | lagged (missed : Nat)
deriving DecidableEq

namespace EventBus

/-- How many events are kept. -/
def capacity : Nat := 1024

def publish (b : EventBus) (e : Event) : EventBus := { b with events := b.events.push e }

def setBest (b : EventBus) (best : Position) : EventBus := { b with best }

/-- A receiver of the events from now on. -/
def subscribe (b : EventBus) : Receiver := ⟨b.events.size⟩

end EventBus

/-- The next that a receiver gets, and its place after that. -/
def Receiver.receive (r : Receiver) (b : EventBus) : Receipt × Receiver :=
  let oldest := b.events.size - EventBus.capacity
  if r.seen < oldest then (.lagged (oldest - r.seen), ⟨oldest⟩)
  else match b.events[r.seen]? with
    | none => (.nothing, r)
    | some e => (.event e, ⟨r.seen + 1⟩)

end HeaderChain
