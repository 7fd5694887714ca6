import DnsZone.Proofs.Transaction.Plan

/-!
# Edits step by step

`Transaction.edit` plans an edit before it changes anything. Written out step by step, an edit looks
at the transaction, asks for consent and changes what is staged, and any of its steps can break off,
with whatever was changed until then. Both come to the same, because every edit changes something in
its last step only.
-/

namespace DnsZone

/-! ### Methods of a transaction -/

/-- What carries out an edit: it reads and changes the transaction and can break off with an error.
What it has changed before that stays changed. -/
abbrev Method (τ : Type) := ExceptT ZoneError (StateM (Transaction τ))

namespace Method

section

variable {τ α β : Type}

/-- The outcome of a method, and the transaction that it leaves. -/
def on (m : Method τ α) (t : Transaction τ) : Except ZoneError α × Transaction τ :=
  (m.run.run t).run

/-- Asks something of the transaction that can be refused. -/
def require (question : Transaction τ → Except ZoneError α) : Method τ α := do
  ofExcept (question (← get))

/-- Whether a check, if one is set, allows a change. -/
def verdict : Option (Except String Unit) → Except ZoneError Unit
  | some (.error reason) => .error (.rejected reason)
  | _ => .ok ()

def change (f : τ → τ) : Method τ Unit := modify fun t => { t with access := f t.access }

theorem on_bind (m : Method τ α) (k : α → Method τ β) (t : Transaction τ) :
    (m >>= k).on t =
      match m.on t with
      | (.error e, t') => (.error e, t')
      | (.ok a, t') => (k a).on t' := by
  simp only [on, ExceptT.run_bind, StateT.run_bind, Id.run_bind]
  rcases (m.run.run t).run with ⟨_ | a, t'⟩ <;> rfl

theorem on_require (question : Transaction τ → Except ZoneError α) (t : Transaction τ) :
    (require question).on t = (question t, t) := by
  rw [require, on_bind]
  change (ofExcept (question t) : Method τ α).on t = _
  cases question t <;> rfl

/-- What was asked decides how a method goes on. -/
theorem on_require_bind (question : Transaction τ → Except ZoneError α) (k : α → Method τ β)
    (t : Transaction τ) :
    (require question >>= k).on t =
      match question t with
      | .error e => (.error e, t)
      | .ok a => (k a).on t := by
  rw [on_bind, on_require]
  cases question t <;> rfl

end

/-! ### The edits -/

section

variable {ζ τ : Type} [Access τ]

/-- Stores a record set at a name in stored form. -/
def putSet (n : Name) (s : RecordSet) : Method τ Unit := do
  require fun t => verdict (t.checks.put?.map fun check => check n s)
  change (Access.put n s)

/-- The stored form of a name, for a transaction that may be changed. -/
def target (n : Name) : Method τ Name := do
  require Transaction.requireWritable
  require fun t => t.origin.stored n

def deleteAll : Method τ Unit := do
  require Transaction.requireWritable
  change Access.clear

def setOrigin (origin : Name) : Method τ Unit := do
  require Transaction.requireWritable
  if !origin.absolute then throw (.relativeOrigin origin)
  modify fun t => { t with origin := { t.origin with name? := some origin }, originSet := true }

variable [Backend ζ τ]

/-- The record set that the transaction sees. -/
def seen (z : ζ) (n : Name) (key : SetKey) : Method τ (Option RecordSet) :=
  require fun t => .ok (Backend.find? z t.access n key)

/-- Deletes a record set at a name in stored form. -/
def deleteStored (z : ζ) (n : Name) (key : SetKey) (strict : Bool) : Method τ Unit := do
  match ← seen z n key with
  | none => if strict then throw (.missing .recordSet)
  | some _ =>
      require fun t => verdict (t.checks.deleteSet?.map fun check => check n key)
      change (Access.eraseSet n key)

def addSet (z : ζ) (n : Name) (s : RecordSet) : Method τ Unit := do
  let n ← target n
  if s.isEmpty then pure ()
  else
    match ← seen z n s.key with
    | none => putSet n s
    | some old =>
        if old.containsAll s && old.ttl.secs ≤ s.ttl.secs then pure ()
        else putSet n (old.union s)

def replace (z : ζ) (n : Name) (s : RecordSet) : Method τ Unit := do
  let n ← target n
  if s.isEmpty then deleteStored z n s.key false else putSet n s

def deleteName (z : ζ) (n : Name) (strict : Bool) : Method τ Unit := do
  let n ← target n
  if !(← require fun t => .ok (Backend.contains z t.access n)) then
    if strict then throw (.missing .name)
  else
    require fun t => verdict (t.checks.deleteName?.map fun check => check n)
    change (Access.eraseName n)

def deleteSet (z : ζ) (n : Name) (key : SetKey) (strict : Bool) : Method τ Unit := do
  let n ← target n
  deleteStored z n key strict

def deleteRecords (z : ζ) (n : Name) (s : RecordSet) (strict : Bool) : Method τ Unit := do
  let n ← target n
  match ← seen z n s.key with
  | none => if strict then throw (.missing .records)
  | some old =>
      if strict && !old.containsAll s then throw (.missing .records)
      else if (old.difference s).isEmpty then deleteStored z n s.key false
      else if (old.difference s).size = old.size then pure ()
      else putSet n (old.difference s)

/-- Updates the serial number at a name in stored form. -/
def updateSerialAt (z : ζ) (value : UInt32) (relative : Bool) (n : Name) : Method τ Serial := do
  match ← seen z n .soa with
  | none => throw .noSoa
  | some s =>
      match s.first?.bind RecordData.soa? with
      | none => throw .noSoa
      | some soa => do
          let serial ← require fun _ => Transaction.updatedSerial soa.serial value relative
          putSet n (.single s.ttl (.soa (soa.withSerial serial)))
          return serial

def updateSerial (z : ζ) (value : UInt32) (relative : Bool) (n? : Option Name) :
    Method τ Serial := do
  require Transaction.requireWritable
  let n ← require fun t => t.origin.target n?
  updateSerialAt z value relative n

/-- An edit, carried out step by step. -/
def edit (z : ζ) : Edit → Method τ (Option Serial)
  | .addData n ttl d => do addSet z n (.single ttl d); return none
  | .addRecord r => do addSet z r.owner (.single r.ttl r.data); return none
  | .addSet n s => do addSet z n s; return none
  | .replace n s => do replace z n s; return none
  | .deleteAll => do deleteAll; return none
  | .deleteName n strict => do deleteName z n strict; return none
  | .deleteSet n key strict => do deleteSet z n key strict; return none
  | .deleteRecords n s strict => do deleteRecords z n s strict; return none
  | .deleteData n d strict => do deleteRecords z n (.single .zero d) strict; return none
  | .updateSerial value relative n? => do
      let serial ← updateSerial z value relative n?
      return some serial
  | .setOrigin origin => do setOrigin origin; return none

end

/-! ### Planning first comes to the same -/

section

variable {ζ τ α β ρ σ : Type} [Access τ] {t : Transaction τ}

/-- What comes of a plan: nothing if it is refused, and otherwise the change that it holds. -/
def enacted (change : ρ → Change) (result : ρ → α) (t : Transaction τ) :
    Except ZoneError ρ → Except ZoneError α × Transaction τ
  | .error e => (.error e, t)
  | .ok r => (.ok (result r), t.apply (change r))

/-- The method does what is planned, and changes something in its last step only. -/
def Enacts (m : Method τ Unit) (t : Transaction τ) (plan : Except ZoneError Change) : Prop :=
  m.on t = enacted id (fun _ => ()) t plan

theorem enacts_throw (e : ZoneError) : Enacts (throw e) t (.error e) := rfl

theorem enacts_nothing : Enacts (pure ()) t (.ok .nothing) := rfl

theorem Enacts.ite {m m' : Method τ Unit} {plan plan' : Except ZoneError Change} {p : Prop}
    [Decidable p] (h : Enacts m t plan) (h' : Enacts m' t plan') :
    Enacts (if p then m else m') t (if p then plan else plan') := by
  split
  · exact h
  · exact h'

theorem enacts_require {question : Transaction τ → Except ZoneError α} {k : α → Method τ Unit}
    {plan : α → Except ZoneError Change} (h : ∀ a, Enacts (k a) t (plan a)) :
    Enacts (require question >>= k) t (question t >>= plan) := by
  rw [Enacts, on_require_bind]
  cases question t with
  | error e => rfl
  | ok a => exact h a

/-- Only a transaction that may be changed goes on, with the name in stored form. -/
theorem enacts_target {n : Name} {k : Name → Method τ Unit} {plan : Name → Except ZoneError Change}
    (h : ∀ m, Enacts (k m) t (plan m)) :
    Enacts (target n >>= k) t (do t.requireWritable; let m ← t.origin.stored n; plan m) := by
  have hassoc : target n >>= k = require Transaction.requireWritable >>= fun _ =>
      (require fun t => t.origin.stored n) >>= k := bind_assoc ..
  rw [hassoc]
  refine enacts_require fun _ => ?_
  exact enacts_require h

theorem enacts_consent {κ : Type} (check? : Checks → Option κ) (ask : κ → Except String Unit)
    {f : τ → τ} {c : Change} (hc : t.apply c = { t with access := f t.access }) :
    Enacts (do require fun t => verdict ((check? t.checks).map ask); change f) t
      (Transaction.consented (check? t.checks) ask c) := by
  rw [Enacts, on_require_bind, Transaction.consented.eq_def]
  cases check? t.checks with
  | none => exact congrArg (Prod.mk _) hc.symm
  | some check =>
      simp only [Option.map_some]
      cases ask check with
      | error reason => rfl
      | ok _ => exact congrArg (Prod.mk _) hc.symm

theorem enacts_putSet (n : Name) (s : RecordSet) : Enacts (putSet n s) t (t.planPut n s) := by
  rw [Transaction.planPut_eq]
  exact enacts_consent (t := t) Checks.put? (fun check => check n s) (c := .put n s) rfl

variable [Backend ζ τ] (z : ζ)

theorem enacts_seen {n : Name} {key : SetKey} {k : Option RecordSet → Method τ Unit}
    {plan : Except ZoneError Change} (h : Enacts (k (Backend.find? z t.access n key)) t plan) :
    Enacts (seen z n key >>= k) t plan := by
  rw [Enacts, seen, on_require_bind]
  exact h

theorem enacts_deleteStored (n : Name) (key : SetKey) (strict : Bool) :
    Enacts (deleteStored z n key strict) t (t.planEraseSet z n key strict) := by
  refine enacts_seen z ?_
  rw [Transaction.planEraseSet_eq]
  cases Backend.find? z t.access n key with
  | none => exact Enacts.ite (enacts_throw _) enacts_nothing
  | some s =>
      exact enacts_consent (t := t) Checks.deleteSet? (fun check => check n key)
        (c := .eraseSet n key) rfl

theorem enacts_addSet (n : Name) (s : RecordSet) :
    Enacts (addSet z n s) t (t.planAddSet z n s) := by
  refine enacts_target fun m => Enacts.ite enacts_nothing ?_
  refine enacts_seen z ?_
  cases Backend.find? z t.access m s.key with
  | none => exact enacts_putSet m s
  | some old => exact Enacts.ite enacts_nothing (enacts_putSet m (old.union s))

theorem enacts_replace (n : Name) (s : RecordSet) :
    Enacts (replace z n s) t (t.planReplace z n s) :=
  enacts_target fun m => Enacts.ite (enacts_deleteStored z m s.key false) (enacts_putSet m s)

theorem enacts_deleteName (n : Name) (strict : Bool) :
    Enacts (deleteName z n strict) t (t.planDeleteName z n strict) := by
  rw [Transaction.planDeleteName_eq]
  refine enacts_target fun m => ?_
  rw [Enacts, on_require_bind]
  exact Enacts.ite (Enacts.ite (enacts_throw _) enacts_nothing)
    (enacts_consent (t := t) Checks.deleteName? (fun check => check m) (c := .eraseName m) rfl)

theorem enacts_deleteSet (n : Name) (key : SetKey) (strict : Bool) :
    Enacts (deleteSet z n key strict) t (t.planDeleteSet z n key strict) :=
  enacts_target fun m => enacts_deleteStored z m key strict

theorem enacts_deleteRecords (n : Name) (s : RecordSet) (strict : Bool) :
    Enacts (deleteRecords z n s strict) t (t.planDeleteRecords z n s strict) := by
  refine enacts_target fun m => ?_
  refine enacts_seen z ?_
  cases Backend.find? z t.access m s.key with
  | none => exact Enacts.ite (enacts_throw _) enacts_nothing
  | some old =>
      exact Enacts.ite (enacts_throw _) (Enacts.ite (enacts_deleteStored z m s.key false)
        (Enacts.ite enacts_nothing (enacts_putSet m (old.difference s))))

theorem enacts_deleteAll : Enacts (deleteAll : Method τ Unit) t
    (t.requireWritable.map fun _ => .clear) := by
  rw [Enacts, deleteAll, on_require_bind]
  cases t.requireWritable <;> rfl

theorem enacts_setOrigin (origin : Name) :
    Enacts (setOrigin origin) t (t.planSetOrigin origin) :=
  enacts_require fun _ => Enacts.ite (enacts_throw _) rfl

/-- An update of a serial number at a name in stored form yields the new one. -/
theorem on_updateSerialAt (value : UInt32) (relative : Bool) (n : Name) :
    (updateSerialAt z value relative n).on t =
      enacted Prod.fst Prod.snd t (t.planSerialAt z value relative n) := by
  rw [updateSerialAt, seen, on_require_bind, Transaction.planSerialAt]
  cases Backend.find? z t.access n .soa with
  | none => rfl
  | some s =>
      simp only
      cases s.first?.bind RecordData.soa? with
      | none => rfl
      | some soa =>
          simp only [on_require_bind]
          cases Transaction.updatedSerial soa.serial value relative with
          | error e => rfl
          | ok serial =>
              change _ = enacted Prod.fst Prod.snd t
                (t.planPut n (.single s.ttl (.soa (soa.withSerial serial))) >>= fun change =>
                  pure (change, serial))
              simp only [on_bind]
              rw [enacts_putSet n (.single s.ttl (.soa (soa.withSerial serial)))]
              cases t.planPut n (.single s.ttl (.soa (soa.withSerial serial))) <;> rfl

theorem on_updateSerial (value : UInt32) (relative : Bool) (n? : Option Name) :
    (updateSerial z value relative n?).on t =
      enacted Prod.fst Prod.snd t (t.planUpdateSerial z value relative n?) := by
  rw [Transaction.planUpdateSerial_eq, updateSerial, on_require_bind]
  cases t.requireWritable with
  | error e => rfl
  | ok _ =>
      simp only [on_require_bind]
      cases t.origin.target n? with
      | error e => rfl
      | ok n => exact on_updateSerialAt z value relative n

/-- A method that yields nothing, as part of an edit. -/
theorem Enacts.on_edit {m : Method τ Unit} {plan : Except ZoneError Change} (h : Enacts m t plan) :
    (do m; return none : Method τ (Option Serial)).on t =
      enacted Prod.fst Prod.snd t (plan.map (·, none)) := by
  rw [on_bind, h]
  cases plan <;> rfl

/-- Planning an edit first and carrying it out step by step come to the same. -/
theorem on_edit (e : Edit) : (edit z e).on t = t.edit z e := by
  have hplan : t.edit z e = enacted Prod.fst Prod.snd t (t.plan z e) := by
    rw [Transaction.edit]
    cases t.plan z e <;> rfl
  rw [hplan]
  cases e with
  | addData n ttl d => exact (enacts_addSet z n (.single ttl d)).on_edit
  | addRecord r => exact (enacts_addSet z r.owner (.single r.ttl r.data)).on_edit
  | addSet n s => exact (enacts_addSet z n s).on_edit
  | replace n s => exact (enacts_replace z n s).on_edit
  | deleteAll =>
      refine enacts_deleteAll.on_edit.trans ?_
      rw [Transaction.plan]
      cases t.requireWritable <;> rfl
  | deleteName n strict => exact (enacts_deleteName z n strict).on_edit
  | deleteSet n key strict => exact (enacts_deleteSet z n key strict).on_edit
  | deleteRecords n s strict => exact (enacts_deleteRecords z n s strict).on_edit
  | deleteData n d strict => exact (enacts_deleteRecords z n (.single .zero d) strict).on_edit
  | updateSerial value relative n? =>
      rw [edit, on_bind, on_updateSerial, Transaction.plan]
      cases t.planUpdateSerial z value relative n? <;> rfl
  | setOrigin origin => exact (enacts_setOrigin origin).on_edit

end

end Method

end DnsZone
