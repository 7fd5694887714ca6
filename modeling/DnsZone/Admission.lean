/-!
# Admission of writers

At most one writer has access to a zone. A writer that asks while access is free gets it at once;
otherwise it is given a number and waits. When the writer that has access ends, access is handed to
the one that has waited longest, which then takes it. Between the handing over and the taking
nobody writes, and a newcomer still has to wait. A writer that gives up waiting leaves the queue;
one to which access was handed in the meantime takes it instead.
-/

namespace DnsZone

/-- Who may write, and who waits for it. -/
structure Admission where
  /-- Whether a writer has access. -/
  active : Bool := false
  /-- The number of the writer that was handed access and has not taken it yet. -/
  handedTo : Option Nat := none
  /-- The numbers of the writers that wait, the longest waiting first. -/
  waiting : List Nat := []
  /-- The number for the next writer that has to wait. -/
  next : Nat := 0
  deriving DecidableEq, Repr, Inhabited

namespace Admission

/-- Whether a writer that asks gets access at once. -/
def isFree (a : Admission) : Bool := !a.active && a.handedTo.isNone && a.waiting.isEmpty

/-- A writer asks for access. It has it if no number is returned, and else waits under it. -/
def enqueue (a : Admission) : Option Nat × Admission :=
  if a.isFree then (none, { a with active := true })
  else (some a.next, { a with waiting := a.waiting ++ [a.next], next := a.next + 1 })

/-- A writer takes access if it is free, and does not wait for it otherwise. -/
def seize? (a : Admission) : Option Admission :=
  if a.isFree then some { a with active := true } else none

/-- The waiting writer `id` takes access if it was handed to it. -/
def take? (a : Admission) (id : Nat) : Option Admission :=
  if a.handedTo = some id then some { a with active := true, handedTo := none } else none

/-- The waiting writer `id` gives up. If it was handed access it takes it after all, and the first
component says so. -/
def abandon (a : Admission) (id : Nat) : Bool × Admission :=
  match a.take? id with
  | some a' => (true, a')
  | none => (false, { a with waiting := a.waiting.filter fun w => w != id })

/-- The writer that has access ends, and access is handed to the one that has waited longest. -/
def release (a : Admission) : Admission :=
  match a.waiting with
  | [] => { a with active := false }
  | id :: rest => { a with active := false, handedTo := some id, waiting := rest }

end Admission

end DnsZone
