import DnsZone.Record
import DnsZone.Transaction.Basic

/-!
# Changing a zone through a transaction

An edit is what a caller asks of a writer. It is first planned: names are converted to their stored
form, the record sets that the edit concerns are looked up, and checks are asked, which yields
either an error or one primitive change of the staged content. Only then the change is applied, so
an edit that is refused has no effect.
-/

namespace DnsZone

/-- What a caller asks of a writer. A strict deletion is refused if it does not find all of what it
is to delete. -/
inductive Edit where
  | addData (n : Name) (ttl : Ttl) (d : RecordData)
  | addRecord (r : Record)
  /-- Adds the records of a set to those of the same key; adding an empty set does nothing. -/
  | addSet (n : Name) (s : RecordSet)
  /-- Replaces the set with the same key; replacing with an empty set deletes that one. -/
  | replace (n : Name) (s : RecordSet)
  /-- Deletes every name. What is added from then on replaces the content of the zone. -/
  | deleteAll
  | deleteName (n : Name) (strict : Bool)
  | deleteSet (n : Name) (key : SetKey) (strict : Bool)
  /-- Deletes records of the set with the same key, and the set with its last record. -/
  | deleteRecords (n : Name) (s : RecordSet) (strict : Bool)
  | deleteData (n : Name) (d : RecordData) (strict : Bool)
  /-- Raises the serial number by `value` if `relative` holds, and sets it to `value` otherwise, in
  the start of authority at a name or at the apex. -/
  | updateSerial (value : UInt32) (relative : Bool) (n? : Option Name)
  /-- Sets the origin of a zone that has none. -/
  | setOrigin (origin : Name)

/-- A primitive change of what a writer has staged, with names in stored form. -/
inductive Change where
  | nothing
  /-- Stores a record set that is not empty. -/
  | put (n : Name) (s : RecordSet)
  | eraseName (n : Name)
  | eraseSet (n : Name) (key : SetKey)
  | clear
  /-- Sets the origin. -/
  | setOrigin (origin : Name)

namespace Transaction

variable {ζ τ : Type} [Access τ] [Backend ζ τ]

/-- Storing a record set, if the check allows it. -/
def planPut (t : Transaction τ) (n : Name) (s : RecordSet) : Except ZoneError Change :=
  match t.checks.put? with
  | none => .ok (.put n s)
  | some check =>
      match check n s with
      | .error reason => .error (.rejected reason)
      | .ok () => .ok (.put n s)

/-- Deleting a record set at a name in stored form, if it is there and the check allows it. -/
def planEraseSet (z : ζ) (t : Transaction τ) (n : Name) (key : SetKey) (strict : Bool) :
    Except ZoneError Change :=
  match Backend.find? z t.access n key with
  | none => if strict then .error (.missing .recordSet) else .ok .nothing
  | some _ =>
      match t.checks.deleteSet? with
      | none => .ok (.eraseSet n key)
      | some check =>
          match check n key with
          | .error reason => .error (.rejected reason)
          | .ok () => .ok (.eraseSet n key)

/-- Adding the records of a set: to the set that is there, unless they are all in it and its time
to live is not longer. -/
def planAddSet (z : ζ) (t : Transaction τ) (n : Name) (s : RecordSet) :
    Except ZoneError Change := do
  t.requireWritable
  let n ← t.origin.stored n
  if s.isEmpty then return .nothing
  match Backend.find? z t.access n s.key with
  | none => t.planPut n s
  | some old =>
      if old.containsAll s && old.ttl.secs ≤ s.ttl.secs then return .nothing
      else t.planPut n (old.union s)

def planReplace (z : ζ) (t : Transaction τ) (n : Name) (s : RecordSet) :
    Except ZoneError Change := do
  t.requireWritable
  let n ← t.origin.stored n
  if s.isEmpty then t.planEraseSet z n s.key false else t.planPut n s

/-- Deleting a name, if it is there and the check allows it. -/
def planDeleteName (z : ζ) (t : Transaction τ) (n : Name) (strict : Bool) :
    Except ZoneError Change := do
  t.requireWritable
  let n ← t.origin.stored n
  if !Backend.contains z t.access n then
    if strict then .error (.missing .name) else .ok .nothing
  else
    match t.checks.deleteName? with
    | none => .ok (.eraseName n)
    | some check =>
        match check n with
        | .error reason => .error (.rejected reason)
        | .ok () => .ok (.eraseName n)

def planDeleteSet (z : ζ) (t : Transaction τ) (n : Name) (key : SetKey) (strict : Bool) :
    Except ZoneError Change := do
  t.requireWritable
  let n ← t.origin.stored n
  t.planEraseSet z n key strict

/-- Deleting records: the set is stored again with those that remain, or deleted if none does. -/
def planDeleteRecords (z : ζ) (t : Transaction τ) (n : Name) (s : RecordSet) (strict : Bool) :
    Except ZoneError Change := do
  t.requireWritable
  let n ← t.origin.stored n
  match Backend.find? z t.access n s.key with
  | none => if strict then .error (.missing .records) else .ok .nothing
  | some old =>
      if strict && !old.containsAll s then .error (.missing .records)
      else if (old.difference s).isEmpty then t.planEraseSet z n s.key false
      else if (old.difference s).size = old.size then .ok .nothing
      else t.planPut n (old.difference s)

/-- The serial number that an update gives: zero is skipped. -/
def updatedSerial (serial : Serial) (value : UInt32) (relative : Bool) :
    Except ZoneError Serial := do
  let next ←
    if relative then
      match serial.add? value with
      | none => .error (.invalidSerial value)
      | some next => .ok next
    else .ok ⟨value⟩
  return if next.val = 0 then ⟨1⟩ else next

/-- Updating a serial number: the set is replaced by its first record with the new number. -/
def planUpdateSerial (z : ζ) (t : Transaction τ) (value : UInt32) (relative : Bool)
    (n? : Option Name) : Except ZoneError (Change × Serial) := do
  t.requireWritable
  let n ←
    match n? with
    | some n => t.origin.stored n
    | none =>
        match t.origin.apex? with
        | none => .error .noOrigin
        | some apex => .ok apex
  match Backend.find? z t.access n .soa with
  | none => .error .noSoa
  | some s =>
      match s.first?.bind RecordData.soa? with
      | none => .error .noSoa
      | some soa => do
          let serial ← updatedSerial soa.serial value relative
          let change ← t.planPut n (.single s.ttl (.soa (soa.withSerial serial)))
          return (change, serial)

def planSetOrigin (t : Transaction τ) (origin : Name) : Except ZoneError Change := do
  t.requireWritable
  if !origin.absolute then .error (.relativeOrigin origin) else .ok (.setOrigin origin)

/-- The change that an edit amounts to, and the new serial number if it updates one. -/
def plan (z : ζ) (t : Transaction τ) (e : Edit) : Except ZoneError (Change × Option Serial) :=
  match e with
  | .addData n ttl d => (t.planAddSet z n (.single ttl d)).map (·, none)
  | .addRecord r => (t.planAddSet z r.owner (.single r.ttl r.data)).map (·, none)
  | .addSet n s => (t.planAddSet z n s).map (·, none)
  | .replace n s => (t.planReplace z n s).map (·, none)
  | .deleteAll => t.requireWritable.map fun _ => (.clear, none)
  | .deleteName n strict => (t.planDeleteName z n strict).map (·, none)
  | .deleteSet n key strict => (t.planDeleteSet z n key strict).map (·, none)
  | .deleteRecords n s strict => (t.planDeleteRecords z n s strict).map (·, none)
  | .deleteData n d strict => (t.planDeleteRecords z n (.single .zero d) strict).map (·, none)
  | .updateSerial value relative n? =>
      (t.planUpdateSerial z value relative n?).map fun r => (r.1, some r.2)
  | .setOrigin origin => (t.planSetOrigin origin).map (·, none)

omit [Backend ζ τ] in
def apply (t : Transaction τ) : Change → Transaction τ
  | .nothing => t
  | .put n s => { t with access := Access.put n s t.access }
  | .eraseName n => { t with access := Access.eraseName n t.access }
  | .eraseSet n key => { t with access := Access.eraseSet n key t.access }
  | .clear => { t with access := Access.clear t.access }
  | .setOrigin origin =>
      { t with origin := { t.origin with name? := some origin }, originSet := true }

/-- Makes an edit, unless it is refused. Yields the new serial number if it updates one. -/
def edit (z : ζ) (t : Transaction τ) (e : Edit) :
    Except ZoneError (Option Serial) × Transaction τ :=
  match t.plan z e with
  | .error err => (.error err, t)
  | .ok (change, serial?) => (.ok serial?, t.apply change)

/-- Adds records in order, all of which have to be of class `cls`. If the transaction knows no
origin yet, the absolute owner of the first start of authority becomes the origin. Yields the number
of records; those before one that is refused stay added. -/
def load (z : ζ) (cls : RecordClass) (t : Transaction τ) :
    List Record → Except ZoneError Nat × Transaction τ
  | [] => (.ok 0, t)
  | r :: rest =>
      if r.cls ≠ cls then (.error (.classMismatch cls r.cls), t)
      else
        let learns := t.origin.name?.isNone && r.data.soa?.isSome && r.owner.absolute
        match if learns then t.edit z (.setOrigin r.owner) else (.ok none, t) with
        | (.error e, t) => (.error e, t)
        | (.ok _, t) =>
            match t.edit z (.addRecord r) with
            | (.error e, t) => (.error e, t)
            | (.ok _, t) =>
                match load z cls t rest with
                | (.error e, t) => (.error e, t)
                | (.ok count, t) => (.ok (count + 1), t)

end Transaction

end DnsZone
