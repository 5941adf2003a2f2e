import LiveNotes.Loader.Report

/-! Lets one load of components run at a time. Requests that come in the meantime share its result;
when it is over one more load runs, for the last of them. -/

namespace LiveNotes

structure Coordinator where
  /-- What the load in flight was started by. -/
  inFlight : Option LoadTrigger := none
  /-- The last request that has come since that load was started. -/
  pending : Option LoadTrigger := none
  /-- Whether the last load that is over went well. -/
  lastOk : Bool := false
  /-- How many loads are over. -/
  completed : Nat := 0
  /-- How many times what components export was published. -/
  renders : Nat := 0
  deriving DecidableEq, Repr, Inhabited

namespace Coordinator

def isLoading (c : Coordinator) : Bool := c.inFlight.isSome

/-- Takes a request, which starts a load unless there is one in flight. -/
def request (c : Coordinator) (trigger : LoadTrigger) : Coordinator :=
  if c.isLoading then { c with pending := some trigger } else { c with inFlight := some trigger }

/-- Notes that what the load in flight has given is published. -/
def published (c : Coordinator) : Coordinator := { c with renders := c.renders + 1 }

/-- Ends the load in flight; the one for the pending request takes its place. -/
def complete (c : Coordinator) (ok : Bool) : Coordinator :=
  { c with inFlight := c.pending, pending := none, lastOk := ok, completed := c.completed + 1 }

theorem isLoading_complete (c : Coordinator) (ok : Bool) :
    (c.complete ok).isLoading = c.pending.isSome := rfl

end Coordinator

end LiveNotes
