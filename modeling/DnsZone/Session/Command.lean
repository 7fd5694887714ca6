import DnsZone.Transaction.Call
import DnsZone.Updater

/-!
# Commands of a session

A session works on one zone with any number of transactions and updaters, each in a slot of its own
name, and with writers that wait in the background. This module holds what can be asked of a session
and what it answers. Arguments that were given as text may have failed to read; such a command is
still a command, and it is refused when its turn comes.
-/

namespace DnsZone.Session

inductive InputFault where
  | name (e : NameError)
  | code
  deriving DecidableEq, Repr

/-- An argument that may have failed to read. -/
abbrev Input (α : Type) := Except InputFault α

/-- Why a session refuses a command. -/
inductive Fault where
  | zone (e : ZoneError)
  | input (e : InputFault)
  | noSlot
  | noZone
  /-- The command would wait for a writer of the session itself. -/
  | wouldBlock
  /-- The zone is not of a kind that has this command. -/
  | unsupported

inductive JobEnd where
  | commit
  | rollback
  | drop
  deriving DecidableEq, Repr

/-- A background writer: it waits for write access, makes its calls up to the first that fails, and
ends. -/
structure Job where
  id : String
  replacement : Bool
  calls : List (Input Call)
  ending : JobEnd

structure JobResult where
  id : String
  replies : Except Fault (List Reply)
  /-- How ending it went; nothing is known of a writer that was dropped. -/
  ended? : Option (Except ZoneError Unit)

/-- A command on the zone of a session. -/
inductive ZoneCommand where
  | reader (slot : String) (query? : Option VersionQuery)
  | writer (slot : String) (replacement : Bool)
  /-- Starts a writer in a slot if it need not wait. -/
  | tryWriter (slot : String) (replacement : Bool)
  /-- Starts a writer in a slot if access is granted in time. -/
  | writerInTime (slot : String) (replacement : Bool)
  | info
  | latest
  | setPolicy (policy : Except ZoneError Retention)
  | findSet (args : Input (Name × SetKey))
  | findNode (n : Input Name)
  | replaceSet (args : Input (Name × RecordSet))
  | deleteSet (args : Input (Name × SetKey))
  | deleteNode (n : Input Name)
  /-- Makes calls in a writer of their own, which is committed if none fails. -/
  | writeWith (replacement : Bool) (calls : List (Input Call))
  /-- Asks questions in a reader of their own. -/
  | readWith (query? : Option VersionQuery) (queries : List (Input Query))
  | enqueue (job : Job)
  | dropZone
  | updater (slot : String)

inductive SlotCommand where
  | call (slot : String) (c : Input Call)
  | drop (slot : String)
  | apply (slot : String) (update : Input Update)
  | dropUpdater (slot : String)

inductive Command where
  | onZone (c : ZoneCommand)
  | onSlot (c : SlotCommand)

/-- Whether a command needs write access in a zone whose direct changes are made by a writer or
not. -/
def ZoneCommand.needsAccess (writesDirectly : Bool) : ZoneCommand → Bool
  | .writer .. | .writeWith .. | .updater .. => true
  | .replaceSet .. | .deleteSet .. | .deleteNode .. => writesDirectly
  | _ => false

inductive Answer where
  | done
  /-- A transaction was started, and sees a version with this number. -/
  | started (id? : Option VersionId)
  | notStarted
  | info (origin : Origin) (cls : RecordClass)
  /-- The latest version, and the serial number at its apex. -/
  | version (v : Version) (serial? : Option Serial)
  | reply (r : Reply)
  | replies (l : List Reply)
  /-- Whether a background writer has to wait. -/
  | waits (b : Bool)
  /-- An update was applied or refused, and whether the updater is finished. -/
  | applied (event : String) (result : Except ZoneError Unit) (finished : Bool)

/-- What can be seen of a zone from outside. -/
inductive ZoneState where
  /-- The versions that are kept, those that are read, and how many writers wait. -/
  | chain (versions readers : List VersionId) (waiting : Nat)
  | generation (id : VersionId)

end DnsZone.Session
