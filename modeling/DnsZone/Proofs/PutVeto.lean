import DnsZone.Proofs.Sample
import DnsZone.Proofs.Traffic.Caller
import DnsZone.Proofs.Traffic.SoleWriter
import DnsZone.Proofs.Transaction.Consent

/-!
# Nothing is stored past a check

A record set that a writer sees was there when the check on what is stored was set, or the check has
accepted it, just as it is seen, however many calls were made in between. That includes sets that
come from merging, from deleting some of their records and from updating a serial number. An edit
that comes to store a set that is refused is rejected, and so is a load at the record of which this
is true.
-/

namespace DnsZone

/-- A check on what is stored. -/
abbrev PutCheck := Name → RecordSet → Except String Unit

/-- The check on what is stored that a call sets, if it sets one. -/
def Call.putCheck? : Call → Option PutCheck
  | .checkPut check => some check
  | _ => none

/-- One of the checks accepts the record set at the name, in whatever spelling. -/
def Accepted (checks : List PutCheck) (n : Name) (s : RecordSet) : Prop :=
  ∃ check ∈ checks, ∃ m, (n == m) = true ∧ check m s = .ok ()

namespace Transaction

variable {ζ τ : Type} [Access τ] [Backend ζ τ] {z : ζ} {t : Transaction τ} {check : PutCheck}

/-! ### What is accepted -/

/-- Whatever the writer finds now was found before, or one of the checks has accepted it, and one of
them is set. -/
structure Vetted (before : Name → SetKey → Option RecordSet) (checks : List PutCheck) (z : ζ)
    (t : Transaction τ) : Prop where
  acts : t.ActsOnSets z
  inForce : ∃ check ∈ checks, t.checks.put? = some check
  accepted : ∀ n key s, Backend.find? z t.access n key = some s →
    before n key = some s ∨ Accepted checks n s

namespace Vetted

variable {before : Name → SetKey → Option RecordSet} {checks : List PutCheck}

theorem edit (h : Vetted before checks z t) (e : Edit) :
    Vetted before checks z (t.edit z e).2 := by
  rw [Transaction.edit]
  cases hplan : t.plan z e with
  | error fault => exact h
  | ok r =>
      obtain ⟨c, serial?⟩ := r
      have hfits := (plan_eq_ok hplan).2
      have hsound := sound_of_plan hplan
      obtain ⟨check, hmem, hcheck⟩ := h.inForce
      refine ⟨h.acts.apply hfits hsound, ⟨check, hmem, by simpa using hcheck⟩, fun n key s hs => ?_⟩
      rcases h.acts.stored_of_apply hfits hsound hs with hbefore | ⟨m, rfl, hn⟩
      · exact h.accepted n key s hbefore
      · exact .inr ⟨check, hmem, m, hn, accepted_of_plan_put hplan hcheck⟩

theorem load (h : Vetted before checks z t) (cls : RecordClass) (records : List Record) :
    Vetted before checks z (t.load z cls records).2 :=
  load_induction (fun _ _ h => h.edit _) (fun _ _ _ h => h.edit _) h cls records

/-- A call that does not end the transaction may set another one of the checks. -/
theorem call (h : Vetted before checks z t) {c : Call} (hends : t.ends c = false)
    (hset : ∀ check, c.putCheck? = some check → check ∈ checks) :
    Vetted before checks z (t.call z c).2.1 := by
  cases c with
  | query q => exact h
  | edit e => exact h.edit e
  | load cls records => exact h.load cls records
  | commit => simp [ends, h.acts.isEnded] at hends
  | rollback => simp [ends, h.acts.isEnded] at hends
  | checkPut check => exact ⟨h.acts, ⟨check, hset check rfl, rfl⟩, h.accepted⟩
  | checkDeleteSet check => exact ⟨h.acts, h.inForce, h.accepted⟩
  | checkDeleteName check => exact ⟨h.acts, h.inForce, h.accepted⟩

/-- Others make no difference as long as a writer finds the same. -/
theorem congr (h : Vetted before checks z t) {z' : ζ} (hz : WritersSeeAlike z z') :
    Vetted before checks z' t where
  acts := h.acts.congr hz
  inForce := h.inForce
  accepted n key s hs := by
    rw [hz.find?_eq h.acts.writing] at hs
    exact h.accepted n key s hs

end Vetted

/-! ### What is rejected -/

/-- An edit that comes to store a record set stores it if the check accepts it, and is rejected
without effect if the check refuses it. A load ends with the record for which this is so. -/
structure HeedsPutCheck (check : PutCheck) (z : ζ) (t : Transaction τ) : Prop where
  stores : ∀ e n s serial?, t.unchecked.plan z e = .ok (.put n s, serial?) → check n s = .ok () →
    ∃ t', t.edit z e = (.ok serial?, t') ∧ Backend.find? z t'.access n s.key = some s
  rejects : ∀ e n s serial? reason, t.unchecked.plan z e = .ok (.put n s, serial?) →
    check n s = .error reason → t.call z (.edit e) = (.error (.rejected reason), t, z)
  load : ∀ cls first r rest count t₁ learned? t₂ n s serial? reason,
    t.load z cls first = (.ok count, t₁) → r.cls = cls → t₁.learnFrom z r = (.ok learned?, t₂) →
      t₂.unchecked.plan z (.addRecord r) = .ok (.put n s, serial?) → check n s = .error reason →
        t.call z (.load cls (first ++ r :: rest)) = (.error (.rejected reason), t₂, z)

theorem edit_of_put_refused (hcheck : t.checks.put? = some check) {e : Edit} {n : Name}
    {s : RecordSet} {serial? : Option Serial} {reason : String}
    (hplan : t.unchecked.plan z e = .ok (.put n s, serial?)) (hreason : check n s = .error reason) :
    t.edit z e = (.error (.rejected reason), t) :=
  edit_of_vet_eq_error hplan
    (consented_eq_error t.checks.put? (fun check => check n s) hcheck hreason)

theorem ActsOnSets.heedsPutCheck (h : t.ActsOnSets z) (hcheck : t.checks.put? = some check) :
    t.HeedsPutCheck check z where
  stores e n s serial? hplan haccepts := by
    refine ⟨_, edit_of_vet_eq_ok hplan
      (consented_of_accepted t.checks.put? (fun check => check n s) hcheck haccepts), ?_⟩
    rw [h.find?_put n (sound_of_plan hplan).1, if_pos ⟨BEq.rfl, rfl⟩]
  rejects e n s serial? reason hplan hreason := by
    rw [call, edit_of_put_refused hcheck hplan hreason]
    rfl
  load cls first r rest count t₁ learned? t₂ n s serial? reason hfirst hcls hlearn hplan
      hreason := by
    -- loading the records before has left the checks as they were
    have hchecks : t₂.checks = t.checks := by
      have hload := checks_load z t cls first
      have hlearned := checks_learnFrom z t₁ r
      rw [hfirst] at hload
      rw [hlearn] at hlearned
      exact hlearned.trans hload
    have hcheck : t₂.checks.put? = some check := hchecks ▸ hcheck
    rw [call, load_of_refused hfirst hcls hlearn (edit_of_put_refused hcheck hplan hreason)]
    rfl

/-- What a writer finds was found before, or one of the checks has accepted it; one of them is set,
and the writer heeds it. -/
structure PutChecked (before : Name → SetKey → Option RecordSet) (checks : List PutCheck) (z : ζ)
    (t : Transaction τ) : Prop where
  accepted : ∀ n key s, Backend.find? z t.access n key = some s →
    before n key = some s ∨ Accepted checks n s
  heeds : ∃ check ∈ checks, t.checks.put? = some check ∧ t.HeedsPutCheck check z

end Transaction

open Transaction (PutChecked)

theorem Traffic.MeetsAlways.putChecked {υ ζ τ α : Type} [Access τ] [Host ζ τ] [Crowd υ ζ τ α]
    [LawfulAccess τ] {call? : α → Option (Nat × Call)} {t : Traffic υ τ} (h : t.MeetsAlways call?)
    {i : Nat} {w : Transaction τ} (hw : t.txn? i = some w) (hacts : w.ActsOnSets t.zone)
    {check : PutCheck} (hcheck : w.checks.put? = some check) (later : List (Event α)) :
    ∃ w', (t.run later).txn? i = some w' ∧ (w'.isEnded = false →
      w'.PutChecked (Backend.find? t.zone w.access)
        (check :: (callsOn call? i later).filterMap Call.putCheck?) (t.run later).zone) := by
  obtain ⟨w', hw', hlast⟩ := h.writer_induction hw (decide_eq_true hacts.writing)
    (P := fun z w' => w'.Vetted (Backend.find? t.zone w.access)
      (check :: (callsOn call? i later).filterMap Call.putCheck?) z)
    ⟨hacts, ⟨check, List.mem_cons_self, hcheck⟩, fun _ _ _ => .inl⟩
    (fun _ _ _ _ hz hvetted => hvetted.congr hz)
    fun _ c hc _ hends hvetted => hvetted.call hends fun check' hcheck' =>
      List.mem_cons_of_mem check (List.mem_filterMap.mpr ⟨c, hc.mem_callsOn, hcheck'⟩)
  refine ⟨w', hw', fun hopen => ?_⟩
  obtain ⟨-, hvetted⟩ := hlast hopen
  obtain ⟨check', hmem, hcheck'⟩ := hvetted.inForce
  exact ⟨hvetted.accepted, check', hmem, hcheck', hvetted.acts.heedsPutCheck hcheck'⟩

/-- Every record set that a writer finds was found when a check on what is stored was in force, or
that check or one that has been set since accepts it as it is found. As long as the writer is open
it stores what the check in force accepts and rejects what that refuses. Others do not interfere. -/
theorem ZoneConfig.nothing_stored_past_check (config : ZoneConfig) (i : Nat) (check : PutCheck) :
    (∀ events w, (config.traffic events).txn? i = some w → w.writes = true →
      w.checks.put? = some check →
        ∀ later, ∃ w', ((config.traffic events).run later).txn? i = some w' ∧ (w'.isEnded = false →
          w'.PutChecked (Backend.find? (config.traffic events).zone w.access)
            (check :: (Traffic.callsOn Action.call? i later).filterMap Call.putCheck?)
            ((config.traffic events).run later).zone)) ∧
    ∀ events w, (config.plainTraffic events).txn? i = some w → w.writes = true →
      w.checks.put? = some check →
        ∀ later, ∃ w', ((config.plainTraffic events).run later).txn? i = some w' ∧
          (w'.isEnded = false →
            w'.PutChecked (Backend.find? (config.plainTraffic events).zone w.access)
              (check :: (Traffic.callsOn PlainAction.call? i later).filterMap Call.putCheck?)
              ((config.plainTraffic events).run later).zone) := by
  obtain ⟨hversioned, hplain⟩ := config.writers_act_on_sets
  obtain ⟨hmeets, hmeets'⟩ := config.meetsAlways
  constructor
  · intro events w hw hwrites hcheck later
    have hacts := hversioned events (config.traffic events).zone w (Traffic.mem_txns hw) hwrites
    exact (hmeets events).putChecked hw hacts hcheck later
  · intro events w hw hwrites hcheck later
    have hacts := hplain events w (Traffic.mem_txns hw) hwrites
    exact (hmeets' events).putChecked hw hacts hcheck later

namespace PutVeto

open Sample SoleWriter

/-- No set of more than one record is accepted. -/
def single : PutCheck := fun _ s => if s.size ≤ 1 then .ok () else .error "one record only"

/-- Two records for one set. -/
def additions : List Call :=
  [.edit (.addData origin .hour (.txt [])), .edit (.addData origin .hour (.txt [[0x61]]))]

theorem nothing_stored_past_check_of_two :
    let t := config.traffic (events [.checkPut single])
    let t' := config.plainTraffic (events [.checkPut single])
    (∃ w w', t.txn? 0 = some w ∧ w.writes = true ∧ w.checks.put? = some single ∧
      (t.run (later additions)).txn? 0 = some w' ∧ w'.isEnded = false ∧
      w'.PutChecked (Backend.find? t.zone w.access) [single] (t.run (later additions)).zone) ∧
    ∃ w w', t'.txn? 0 = some w ∧ w.writes = true ∧ w.checks.put? = some single ∧
      (t'.run (later additions)).txn? 0 = some w' ∧ w'.isEnded = false ∧
      w'.PutChecked (Backend.find? t'.zone w.access) [single] (t'.run (later additions)).zone := by
  intro t t'
  obtain ⟨hversioned, hplain⟩ := config.nothing_stored_past_check 0 single
  have hw : t.txn? 0 = some (config.writer [.checkPut single]) := rfl
  have hw' : t'.txn? 0 = some (config.plainWriter [.checkPut single]) := rfl
  have hopen : ((t.run (later additions)).txn? 0).map Transaction.isEnded = some false := rfl
  have hopen' : ((t'.run (later additions)).txn? 0).map Transaction.isEnded = some false := rfl
  obtain ⟨v, hv, hlast⟩ := hversioned _ _ hw rfl rfl (later additions)
  obtain ⟨v', hv', hlast'⟩ := hplain _ _ hw' rfl rfl (later additions)
  rw [hv] at hopen
  rw [hv'] at hopen'
  have hv_open := Option.some.inj hopen
  have hv_open' := Option.some.inj hopen'
  exact ⟨⟨_, v, hw, rfl, rfl, hv, hv_open, hlast hv_open⟩,
    ⟨_, v', hw', rfl, rfl, hv', hv_open', hlast' hv_open'⟩⟩

end PutVeto

end DnsZone
