import DnsZone.Transaction.Ending

/-!
# Calls on a transaction

All that can be asked of a transaction, as one type of calls with one type of replies, so that a
sequence of calls is a list. `Transaction.call` carries a call out.
-/

namespace DnsZone

/-- A question that changes nothing. -/
inductive Query where
  | recordSet (n : Name) (key : SetKey)
  | node (n : Name)
  /-- Whether there are record sets at a name. -/
  | nameExists (n : Name)
  | changed
  | sets
  | names
  | status

/-- Anything that can be asked of a transaction. -/
inductive Call where
  | query (q : Query)
  | edit (e : Edit)
  /-- Adds records of one class. -/
  | load (cls : RecordClass) (records : List Record)
  | commit
  | rollback
  | checkPut (check : Name → RecordSet → Except String Unit)
  | checkDeleteSet (check : Name → SetKey → Except String Unit)
  | checkDeleteName (check : Name → Except String Unit)

/-- How a transaction stands. -/
structure Status where
  readOnly : Bool
  ended : Bool
  origin : Origin
  versionId? : Option VersionId

def Status.text (s : Status) : String :=
  "Transaction \x7b read_only: " ++ toString s.readOnly ++ ", ended: " ++ toString s.ended ++
    " \x7d"

/-- What a call that succeeds yields. -/
inductive Reply where
  | done
  | recordSet (s? : Option RecordSet)
  | node (n? : Option Node)
  | flag (b : Bool)
  | sets (l : List (Name × RecordSet))
  | names (l : List Name)
  | serial (s : Serial)
  | count (n : Nat)
  | status (s : Status)

namespace Transaction

variable {ζ τ : Type} [Access τ] [Backend ζ τ]

omit [Backend ζ τ] in
def status (t : Transaction τ) : Status where
  readOnly := t.isReadOnly
  ended := t.isEnded
  origin := t.origin
  versionId? := Access.versionId? t.access

def ask (z : ζ) (t : Transaction τ) : Query → Except ZoneError Reply
  | .recordSet n key => (t.get z n key).map .recordSet
  | .node n => (t.getNode z n).map .node
  | .nameExists n => (t.nameExists z n).map .flag
  | .changed => (t.changed z).map .flag
  | .sets => (t.sets z).map .sets
  | .names => (t.names z).map .names
  | .status => .ok (.status t.status)

def call (t : Transaction τ) (z : ζ) : Call → Outcome ζ τ Reply
  | .query q => (t.ask z q, t, z)
  | .edit e =>
      let (result, t') := t.edit z e
      (result.map fun serial? => (serial?.map Reply.serial).getD .done, t', z)
  | .load cls records =>
      let (result, t') := t.load z cls records
      (result.map .count, t', z)
  | .commit =>
      let (result, t', z') := t.commit z
      (result.map fun _ => .done, t', z')
  | .rollback =>
      let (result, t', z') := t.rollback z
      (result.map fun _ => .done, t', z')
  | .checkPut check => (.ok .done, { t with checks := { t.checks with put? := some check } }, z)
  | .checkDeleteSet check =>
      (.ok .done, { t with checks := { t.checks with deleteSet? := some check } }, z)
  | .checkDeleteName check =>
      (.ok .done, { t with checks := { t.checks with deleteName? := some check } }, z)

end Transaction

end DnsZone
