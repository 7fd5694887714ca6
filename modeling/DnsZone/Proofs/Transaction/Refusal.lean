import DnsZone.PlainZone.Access
import DnsZone.Proofs.Sample
import DnsZone.Proofs.Transaction.Stepwise
import DnsZone.Transaction.Call
import DnsZone.VersionedZone.Queue

/-!
# Refused edits

A writer refuses an edit for one of a few reasons: a name that is not in the zone, a check that
vetoes it, something to delete that is not there, a serial number that cannot be updated, a relative
origin. An edit that is refused leaves all that can be told of the transaction and all that will
ever come of it, also if it is carried out step by step.
-/

namespace DnsZone

/-! ### Why a writer refuses an edit -/

/-- Whether the edit is refused if it does not find all that it is to delete. -/
def Edit.isStrict : Edit → Bool
  | .deleteName _ strict => strict
  | .deleteSet _ _ strict => strict
  | .deleteRecords _ _ strict => strict
  | .deleteData _ _ strict => strict
  | _ => false

namespace Transaction

variable {ζ τ : Type} [Access τ] [Backend ζ τ]

/-- The reasons for which a writer refuses an edit, and what each of them is reported as. -/
inductive Refuses (z : ζ) (t : Transaction τ) : Edit → ZoneError → Prop where
  | noOrigin {e : Edit} (h : t.origin.name? = none) : Refuses z t e .noOrigin
  | outOfZone {e : Edit} {n origin : Name} (horigin : t.origin.name? = some origin)
      (h : n.isSubdomain origin = false) : Refuses z t e (.outOfZone n)
  | name {e : Edit} {n origin : Name} {fault : NameError} (horigin : t.origin.name? = some origin)
      (h : n.derelativize origin = .error fault) : Refuses z t e (.name fault)
  | put {e : Edit} {n : Name} {s : RecordSet} {check : Name → RecordSet → Except String Unit}
      {reason : String} (hcheck : t.checks.put? = some check) (h : check n s = .error reason) :
      Refuses z t e (.rejected reason)
  | deleteSet {e : Edit} {n : Name} {key : SetKey} {check : Name → SetKey → Except String Unit}
      {reason : String} (hcheck : t.checks.deleteSet? = some check)
      (h : check n key = .error reason) : Refuses z t e (.rejected reason)
  | deleteName {e : Edit} {n : Name} {check : Name → Except String Unit} {reason : String}
      (hcheck : t.checks.deleteName? = some check) (h : check n = .error reason) :
      Refuses z t e (.rejected reason)
  | missing {e : Edit} {what : Missing} (h : e.isStrict = true) : Refuses z t e (.missing what)
  | noSoa {value : UInt32} {relative : Bool} {n? : Option Name} {n : Name}
      (h : (Backend.find? z t.access n .soa).bind (fun s => s.first?.bind RecordData.soa?) = none) :
      Refuses z t (.updateSerial value relative n?) .noSoa
  | invalidSerial {value : UInt32} {n? : Option Name} {serial : Serial}
      (h : serial.add? value = none) :
      Refuses z t (.updateSerial value true n?) (.invalidSerial value)
  | relativeOrigin {origin : Name} (h : origin.absolute = false) :
      Refuses z t (.setOrigin origin) (.relativeOrigin origin)

variable {z : ζ} {t : Transaction τ} {e : Edit} {fault : ZoneError}

theorem refuses_of_stored {n : Name} (h : t.origin.stored n = .error fault) :
    t.Refuses z e fault := by
  rw [Origin.stored] at h
  cases horigin : t.origin.name? with
  | none =>
      simp only [horigin] at h
      have hfault : fault = .noOrigin := by
        repeat' split at h
        all_goals cases h
        all_goals rfl
      exact hfault ▸ .noOrigin horigin
  | some origin =>
      simp only [horigin] at h
      split at h
      · split at h
        · rename_i hout
          cases h
          exact .outOfZone horigin (by simpa using hout)
        · split at h <;> cases h
      · split at h
        · cases h
        · cases hname : n.derelativize origin <;> simp only [hname] at h <;> cases h
          exact .name horigin hname

theorem refuses_of_planPut {n : Name} {s : RecordSet} (h : t.planPut n s = .error fault) :
    t.Refuses z e fault := by
  rw [planPut_eq] at h
  obtain ⟨check, reason, hcheck, hreason, rfl⟩ :=
    exists_veto t.checks.put? (fun check => check n s) h
  exact .put hcheck hreason

theorem refuses_of_planEraseSet {n : Name} {key : SetKey} {strict : Bool}
    (h : t.planEraseSet z n key strict = .error fault)
    (hstrict : strict = true → e.isStrict = true) : t.Refuses z e fault := by
  rw [planEraseSet_eq] at h
  split at h
  · split at h
    · rename_i hs
      cases h
      exact .missing (hstrict hs)
    · cases h
  · obtain ⟨check, reason, hcheck, hreason, rfl⟩ :=
      exists_veto t.checks.deleteSet? (fun check => check n key) h
    exact .deleteSet hcheck hreason

omit [Backend ζ τ] in
theorem requireWritable_of_writing (h : Access.mode t.access = .writing) :
    t.requireWritable = .ok () := requireWritable_eq_ok_iff.mpr h

/-- A writer does not refuse an edit for want of access. -/
theorem refuses_of_target (hmode : Access.mode t.access = .writing) {n : Name}
    {plan : Name → Except ZoneError Change}
    (h : (do t.requireWritable; let m ← t.origin.stored n; plan m) = .error fault)
    (hplan : ∀ m, plan m = .error fault → t.Refuses z e fault) : t.Refuses z e fault := by
  rw [requireWritable_of_writing hmode] at h
  change (t.origin.stored n >>= plan) = .error fault at h
  rcases bind_eq_error_iff.mp h with hstored | ⟨m, -, hm⟩
  · exact refuses_of_stored hstored
  · exact hplan m hm

theorem refuses_of_planAddSet (hmode : Access.mode t.access = .writing) {n : Name} {s : RecordSet}
    (h : t.planAddSet z n s = .error fault) : t.Refuses z e fault := by
  refine refuses_of_target hmode h fun m hm => ?_
  split at hm
  · cases hm
  · split at hm
    · exact refuses_of_planPut hm
    · split at hm
      · cases hm
      · exact refuses_of_planPut hm

theorem refuses_of_planReplace (hmode : Access.mode t.access = .writing) {n : Name} {s : RecordSet}
    (h : t.planReplace z n s = .error fault) : t.Refuses z e fault := by
  refine refuses_of_target hmode h fun m hm => ?_
  split at hm
  · exact refuses_of_planEraseSet hm nofun
  · exact refuses_of_planPut hm

theorem refuses_of_planDeleteName (hmode : Access.mode t.access = .writing) {n : Name}
    {strict : Bool} (hstrict : strict = true → e.isStrict = true)
    (h : t.planDeleteName z n strict = .error fault) : t.Refuses z e fault := by
  rw [planDeleteName_eq] at h
  refine refuses_of_target hmode h fun m hm => ?_
  split at hm
  · split at hm
    · rename_i hs
      cases hm
      exact .missing (hstrict hs)
    · cases hm
  · obtain ⟨check, reason, hcheck, hreason, rfl⟩ :=
      exists_veto t.checks.deleteName? (fun check => check m) hm
    exact .deleteName hcheck hreason

theorem refuses_of_planDeleteRecords (hmode : Access.mode t.access = .writing) {n : Name}
    {s : RecordSet} {strict : Bool} (hstrict : strict = true → e.isStrict = true)
    (h : t.planDeleteRecords z n s strict = .error fault) : t.Refuses z e fault := by
  refine refuses_of_target hmode h fun m hm => ?_
  split at hm
  · split at hm
    · rename_i hs
      cases hm
      exact .missing (hstrict hs)
    · cases hm
  · split at hm
    · rename_i hs
      cases hm
      exact .missing (hstrict (Bool.and_eq_true_iff.mp hs).1)
    · split at hm
      · exact refuses_of_planEraseSet hm nofun
      · split at hm
        · cases hm
        · exact refuses_of_planPut hm

theorem refuses_of_planUpdateSerial (hmode : Access.mode t.access = .writing) {value : UInt32}
    {relative : Bool} {n? : Option Name}
    (h : t.planUpdateSerial z value relative n? = .error fault) :
    t.Refuses z (.updateSerial value relative n?) fault := by
  rw [planUpdateSerial_eq, requireWritable_of_writing hmode] at h
  change (t.origin.target n? >>= t.planSerialAt z value relative) = .error fault at h
  rcases bind_eq_error_iff.mp h with htarget | ⟨n, -, hn⟩
  · rw [Origin.target.eq_def] at htarget
    cases n? with
    | some n => exact refuses_of_stored htarget
    | none =>
        simp only [Origin.apex?] at htarget
        split at htarget
        · rename_i hapex
          cases htarget
          split at hapex
          · cases hapex
          · exact .noOrigin hapex
        · cases htarget
  · rw [planSerialAt] at hn
    split at hn
    · rename_i hfound
      cases hn
      exact .noSoa (n := n) (by rw [hfound]; rfl)
    · rename_i s hfound
      split at hn
      · rename_i hsoa
        cases hn
        exact .noSoa (n := n) (by rw [hfound]; exact hsoa)
      · rename_i soa hsoa
        rcases bind_eq_error_iff.mp hn with hserial | ⟨serial, -, hserial⟩
        · rw [updatedSerial] at hserial
          cases relative with
          | false => cases hserial
          | true =>
              cases hadd : soa.serial.add? value with
              | none =>
                  simp only [hadd] at hserial
                  cases hserial
                  exact .invalidSerial hadd
              | some next =>
                  simp only [hadd] at hserial
                  cases hserial
        · rcases bind_eq_error_iff.mp hserial with hput | ⟨_, -, hdone⟩
          · exact refuses_of_planPut hput
          · cases hdone

theorem refuses_of_plan (hmode : Access.mode t.access = .writing)
    (h : t.plan z e = .error fault) : t.Refuses z e fault := by
  cases e with
  | addData n ttl d => exact refuses_of_planAddSet hmode (map_eq_error_iff.mp h)
  | addRecord r => exact refuses_of_planAddSet hmode (map_eq_error_iff.mp h)
  | addSet n s => exact refuses_of_planAddSet hmode (map_eq_error_iff.mp h)
  | replace n s => exact refuses_of_planReplace hmode (map_eq_error_iff.mp h)
  | deleteAll =>
      rw [plan, requireWritable_of_writing hmode] at h
      cases h
  | deleteName n strict => exact refuses_of_planDeleteName hmode id (map_eq_error_iff.mp h)
  | deleteSet n key strict =>
      exact refuses_of_target hmode (map_eq_error_iff.mp h) fun m hm =>
        refuses_of_planEraseSet hm id
  | deleteRecords n s strict => exact refuses_of_planDeleteRecords hmode id (map_eq_error_iff.mp h)
  | deleteData n d strict => exact refuses_of_planDeleteRecords hmode id (map_eq_error_iff.mp h)
  | updateSerial value relative n? =>
      exact refuses_of_planUpdateSerial hmode (map_eq_error_iff.mp h)
  | setOrigin origin =>
      have h := map_eq_error_iff.mp h
      rw [planSetOrigin, requireWritable_of_writing hmode] at h
      cases habsolute : origin.absolute with
      | true =>
          simp only [habsolute] at h
          cases h
      | false =>
          simp only [habsolute] at h
          cases h
          exact .relativeOrigin habsolute

/-! ### Refused edits -/

/-- Two transactions that stand alike: what is asked of them in any zone is answered alike, the same
is staged and known of the origin, and their commits come to the same. -/
structure StandsAs (ζ : Type) [Backend ζ τ] (t t' : Transaction τ) : Prop where
  answers : ∀ (z : ζ) (q : Query), t'.ask z q = t.ask z q
  staged : t'.access = t.access
  origin : t'.origin = t.origin
  originSet : t'.originSet = t.originSet
  commit : ∀ z : ζ, t'.commit z = t.commit z

/-- A writer, whatever it has staged and whichever checks it has, refuses an edit for a reason that
it names, and then nothing has changed: not the transaction, even if the edit is carried out step by
step, nor the zone, and so nothing that can be told of the transaction or come of it. -/
theorem refused_edit_changes_nothing (z : ζ) (t : Transaction τ) (e : Edit) {fault : ZoneError}
    (hmode : Access.mode t.access = .writing) (h : (t.edit z e).1 = .error fault) :
    t.Refuses z e fault ∧ (Method.edit z e).on t = (.error fault, t) ∧
      t.call z (.edit e) = (.error fault, t, z) ∧ StandsAs ζ t (t.edit z e).2 := by
  cases hplan : t.plan z e with
  | ok r =>
      rw [edit, hplan] at h
      cases h
  | error fault' =>
      have hedit : t.edit z e = (.error fault', t) := by rw [edit, hplan]
      rw [hedit] at h
      cases h
      refine ⟨refuses_of_plan hmode hplan, (Method.on_edit z e).trans hedit, ?_, ?_⟩
      · rw [call, hedit]
        rfl
      · rw [hedit]
        exact ⟨fun _ _ => rfl, rfl, rfl, rfl, fun _ => rfl⟩

namespace VetoedEdit

def versioned : VersionedZone := .create (some Sample.origin) .internet true false .latest

def plain : PlainZone := .create (some Sample.origin) .internet true false

/-- A check that lets nothing be stored. -/
def veto : Checks := { put? := some fun _ _ => .error "frozen" }

def versionedWriter : Transaction VersionedAccess :=
  { versioned.startWriter false with checks := veto }

def plainWriter : Transaction PlainAccess :=
  { ofWriter (.writing (.start false 0)) plain with checks := veto }

def addition : Edit := .addData Sample.origin .hour (.txt [])

theorem refused_edit_changes_nothing_of_veto :
    Access.mode versionedWriter.access = .writing ∧
      versionedWriter.call versioned (.edit addition) =
        (.error (.rejected "frozen"), versionedWriter, versioned) ∧
      StandsAs VersionedZone versionedWriter (versionedWriter.edit versioned addition).2 ∧
      Access.mode plainWriter.access = .writing ∧
      plainWriter.call plain (.edit addition) =
        (.error (.rejected "frozen"), plainWriter, plain) ∧
      StandsAs PlainZone plainWriter (plainWriter.edit plain addition).2 := by
  obtain ⟨-, -, hcall, hstands⟩ :=
    refused_edit_changes_nothing versioned versionedWriter addition rfl rfl
  obtain ⟨-, -, hcall', hstands'⟩ := refused_edit_changes_nothing plain plainWriter addition rfl rfl
  exact ⟨rfl, hcall, hstands, rfl, hcall', hstands'⟩

end VetoedEdit

end Transaction

end DnsZone
