import DnsZone.Proofs.Admission
import DnsZone.Proofs.Transaction.Script
import DnsZone.Proofs.VersionedZone.Moves
import DnsZone.ZoneConfig

/-!
# Zones in use

Any number of readers and writers use a versioned zone at the same time. What each of them does with
the zone in one go is an `Action`: asking for write access, waking up to take it or to give up,
picking up the latest version once access was granted, and every call on a transaction are actions
of their own, and those of different callers come in any order. A `Usage` is the zone together with
all who use it, and with what has happened so far: which scripts were committed and which versions
there ever were.

What the actions do to the zone and to the transactions is said once, by `Usage.Effect`.
-/

namespace DnsZone

open VersionedZone (Txn)

/-- A transaction that was started on a zone. -/
structure Participant where
  start : Start
  /-- The calls made on it so far. -/
  calls : List Call
  /-- The transaction as it is now. -/
  txn : Txn

namespace Participant

/-- Whether the transaction is a writer that has not ended. -/
def writes (p : Participant) : Bool := Access.mode p.txn.access = .writing

theorem writes_of_writing {p : Participant} {d : Draft} (h : p.txn.access = .writing d) :
    p.writes = true := decide_eq_true (congrArg Access.mode h)

theorem writes_of_reading {p : Participant} {v : Version} (h : p.txn.access = .reading v) :
    p.writes = false := by
  rw [writes, h]
  rfl

/-- Whether the transaction is a reader of version `id` that has not ended. -/
def reads (id : VersionId) (p : Participant) : Bool :=
  match p.txn.access with
  | .reading v => v.id = id
  | _ => false

end Participant

/-- A zone and all who use it. -/
structure Usage where
  zone : VersionedZone
  /-- The number of writers that were granted access and have not picked up a version yet. -/
  granted : Nat := 0
  /-- The transactions in the order in which they were started, those that have ended included. -/
  txns : List Participant := []
  /-- Those that have asked for write access. -/
  queuers : Queuers := {}
  /-- What was done with each write transaction that was committed, in the order of commits. -/
  committed : List Script := []
  /-- All versions that there ever were, oldest first. -/
  history : List Version

/-- What a user of a zone does in one go. -/
inductive Action where
  /-- A writer asks for access, and waits if it has to. -/
  | ask
  /-- A writer asks for access, and leaves if it would have to wait. -/
  | seize
  /-- A waiting writer wakes up, for whatever reason, and takes access if it was handed to it. -/
  | wake (id : Nat)
  /-- A waiting writer runs out of time. -/
  | expire (id : Nat)
  /-- A writer that was granted access picks up the latest version. -/
  | begin (replacement : Bool)
  | read (query? : Option VersionQuery)
  /-- A call is made on the transaction started as number `i`. -/
  | call (i : Nat) (c : Call)
  | drop (i : Nat)
  /-- The policy is replaced, if it is valid. -/
  | setPolicy (policy : Retention)

/-- The number of the transaction that an action is on. -/
def Action.txn? : Action → Option Nat
  | .call i _ => some i
  | .drop i => some i
  | _ => none

namespace Usage

/-- A zone that nobody has used yet. -/
def fresh (z : VersionedZone) : Usage := { zone := z, history := [z.latest] }

/-- All versions that there ever were, if the zone is now `z`. -/
def historyWith (z : VersionedZone) (u : Usage) : List Version :=
  if z.latest.id = u.zone.latest.id then u.history else u.history ++ [z.latest]

/-- What was committed, if a call of `p` now has the given result. -/
def committedWith (p : Participant) (c : Call) (result : Except ZoneError Reply) (u : Usage) :
    List Script :=
  match c, result with
  | .commit, .ok _ => if p.writes then u.committed ++ [⟨p.start, p.calls ++ [c]⟩] else u.committed
  | _, _ => u.committed

/-- A writer that was granted access has asked for it under the given number, if any. -/
def grant (z : VersionedZone) (queuers : Queuers) (u : Usage) : Usage :=
  { u with zone := z, granted := u.granted + 1, queuers := queuers }

/-- Makes a call on the transaction of a participant. -/
def call (i : Nat) (p : Participant) (c : Call) (u : Usage) : Usage :=
  let o := p.txn.call u.zone c
  { u with
    zone := o.2.2
    txns := u.txns.set i { p with calls := p.calls ++ [c], txn := o.2.1 }
    committed := u.committedWith p c o.1
    history := u.historyWith o.2.2 }

/-- Drops the transaction of a participant. -/
def drop (i : Nat) (p : Participant) (u : Usage) : Usage :=
  { u with
    zone := p.txn.drop u.zone
    txns := u.txns.set i { p with txn := { p.txn with access := Access.ended } }
    history := u.historyWith (p.txn.drop u.zone) }

/-- The zone and its users after an action. What cannot be done has no effect: only a writer that
waits wakes up or runs out of time, and only one that was granted access picks up a version. -/
def step (u : Usage) : Action → Usage
  | .ask =>
      match u.zone.enqueue with
      | (none, z) => u.grant z (u.queuers.arrive none)
      | (some id, z) => { u with zone := z, queuers := u.queuers.arrive (some id) }
  | .seize =>
      match u.zone.admission.seize? with
      | none => u
      | some a => u.grant { u.zone with admission := a } (u.queuers.arrive none)
  | .wake id =>
      match if id ∈ u.queuers.callers then u.zone.take? id else none with
      | none => u
      | some z => u.grant z (u.queuers.enter id)
  | .expire id =>
      if id ∈ u.queuers.callers then
        match u.zone.abandon id with
        | (true, z) => u.grant z (u.queuers.enter id)
        | (false, z) => { u with zone := z, queuers := u.queuers.leave id }
      else u
  | .begin replacement =>
      if u.granted = 0 then u
      else
        { u with
          granted := u.granted - 1
          txns := u.txns ++ [⟨.writer replacement, [], u.zone.startWriter replacement⟩] }
  | .read query? =>
      match Transaction.reader query? u.zone with
      | .error _ => u
      | .ok (t, z) => { u with zone := z, txns := u.txns ++ [⟨.reader query?, [], t⟩] }
  | .call i c =>
      match u.txns[i]? with
      | none => u
      | some p => u.call i p c
  | .drop i =>
      match u.txns[i]? with
      | none => u
      | some p => u.drop i p
  | .setPolicy policy =>
      match u.zone.setPolicy policy with
      | .error _ => u
      | .ok z => { u with zone := z }

/-- The zone and its users after some actions. -/
def run (u : Usage) (actions : List Action) : Usage := actions.foldl step u

end Usage

/-- A new zone after some actions of its users. -/
def ZoneConfig.usage (config : ZoneConfig) (actions : List Action) : Usage :=
  (Usage.fresh (.create config.origin? config.cls config.relativize config.checksOrigin
    config.policy)).run actions

namespace Usage

/-- What an action can do that is on no transaction. -/
inductive Quiet (u : Usage) : Usage → Prop where
  | turns {k : Nat} {a : Admission} {queuers : Queuers}
      (h : u.zone.admission.Turns u.queuers k a queuers) :
      Quiet u
        { u with
          zone := { u.zone with admission := a }
          granted := u.granted + k
          queuers := queuers }
  | policy (policy : Retention) : Quiet u { u with zone := { u.zone with policy := policy } }
  | begins (replacement : Bool) (h : u.granted ≠ 0) :
      Quiet u
        { u with
          granted := u.granted - 1
          txns := u.txns ++ [⟨.writer replacement, [], u.zone.startWriter replacement⟩] }
  | reads {query? : Option VersionQuery} {v : Version} (h : u.zone.select query? = .ok v) :
      Quiet u
        { u with
          zone := { u.zone with readers := u.zone.readers.register v.id }
          txns := u.txns ++ [⟨.reader query?, [], .ofReader (.reading v) u.zone⟩] }

/-- What an action can do. -/
inductive Effect (u : Usage) : Usage → Prop where
  | quiet {u' : Usage} (h : Quiet u u') : Effect u u'
  | calls {i : Nat} {p : Participant} (hp : u.txns[i]? = some p) (c : Call) :
      Effect u (u.call i p c)
  | drops {i : Nat} {p : Participant} (hp : u.txns[i]? = some p) : Effect u (u.drop i p)

/-- An action that cannot be done. -/
theorem Quiet.refl (u : Usage) : Quiet u u := .policy u.zone.policy

/-- Transactions that were started stay as they are. -/
theorem Quiet.getElem?_txns {u u' : Usage} (h : Quiet u u') {i : Nat} {p : Participant}
    (hp : u.txns[i]? = some p) : u'.txns[i]? = some p := by
  have hi : i < u.txns.length := (List.getElem?_eq_some_iff.mp hp).1
  cases h with
  | turns | policy => exact hp
  | begins | reads => exact (List.getElem?_append_left hi).trans hp

theorem quiet_step (u : Usage) {a : Action} (ha : a.txn? = none) : Quiet u (u.step a) := by
  cases a with
  | ask =>
      rw [step, VersionedZone.enqueue, Admission.enqueue]
      by_cases hfree : u.zone.admission.isFree = true
      · rw [if_pos hfree]
        exact .turns (.atOnce hfree)
      · rw [if_neg hfree]
        exact .turns (.waits (Bool.eq_false_iff.mpr hfree))
  | seize =>
      rw [step, Admission.seize?]
      by_cases hfree : u.zone.admission.isFree = true
      · rw [if_pos hfree]
        exact .turns (.atOnce hfree)
      · rw [if_neg hfree]
        exact .refl u
  | wake id =>
      rw [step, VersionedZone.take?, Admission.take?]
      by_cases hid : id ∈ u.queuers.callers
      · rw [if_pos hid]
        by_cases hhanded : u.zone.admission.handedTo = some id
        · rw [if_pos hhanded]
          exact .turns (.takes hhanded)
        · rw [if_neg hhanded]
          exact .refl u
      · rw [if_neg hid]
        exact .refl u
  | expire id =>
      rw [step, VersionedZone.abandon, Admission.abandon, Admission.take?]
      by_cases hid : id ∈ u.queuers.callers
      · rw [if_pos hid]
        by_cases hhanded : u.zone.admission.handedTo = some id
        · rw [if_pos hhanded]
          exact .turns (.takes hhanded)
        · rw [if_neg hhanded]
          exact .turns (.leaves hid hhanded)
      · rw [if_neg hid]
        exact .refl u
  | begin replacement =>
      rw [step]
      split
      · exact .refl u
      · rename_i h
        exact .begins replacement h
  | read query? =>
      rw [step]
      split
      · exact .refl u
      · rename_i t z ht
        rw [VersionedZone.reader_eq] at ht
        obtain ⟨v, hselect, heq⟩ := map_eq_ok_iff.mp ht
        cases heq
        exact .reads hselect
  | setPolicy policy =>
      rw [step]
      split
      · exact .refl u
      · rename_i z hz
        rw [VersionedZone.setPolicy] at hz
        obtain ⟨_, _, rfl⟩ := map_eq_ok_iff.mp hz
        exact .policy policy
  | call i c => cases ha
  | drop i => cases ha

theorem effect_step (u : Usage) (a : Action) : Effect u (u.step a) := by
  cases a with
  | call i c =>
      rw [step]
      split
      · exact .quiet (.refl u)
      · rename_i p hp
        exact .calls hp c
  | drop i =>
      rw [step]
      split
      · exact .quiet (.refl u)
      · rename_i p hp
        exact .drops hp
  | _ => exact .quiet (quiet_step u rfl)

/-- What every action keeps holds after any run. -/
theorem run_induction {P : Usage → Prop} (hstep : ∀ {u u'}, Effect u u' → P u → P u') {u : Usage}
    (h : P u) (actions : List Action) : P (u.run actions) := by
  induction actions generalizing u with
  | nil => exact h
  | cons a rest ih => exact ih (hstep (effect_step u a) h)

end Usage

end DnsZone
