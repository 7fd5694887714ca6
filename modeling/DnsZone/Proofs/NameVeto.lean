import DnsZone.Proofs.Sample
import DnsZone.Proofs.Traffic.Caller
import DnsZone.Proofs.Traffic.SoleWriter
import DnsZone.Proofs.Transaction.Consent

/-!
# No name is deleted past a check

A name that is deleted as such is put to the check on names that are deleted, and if that refuses it
the deletion is rejected. So a name that a writer has seen is still there unless a check has let it
go, or record sets were deleted there, or everything was deleted. That is not put to the check: then
all names are gone, whatever it says.
-/

namespace DnsZone

/-- A check on names that are deleted. -/
abbrev NameCheck := Name → Except String Unit

/-- The check on names that are deleted that a call sets, if it sets one. -/
def Call.nameCheck? : Call → Option NameCheck
  | .checkDeleteName check => some check
  | _ => none

/-- One of the checks lets the name go, in whatever spelling. -/
def LetGo (checks : List NameCheck) (n : Name) : Prop :=
  ∃ check ∈ checks, ∃ m, (n == m) = true ∧ check m = .ok ()

/-- Whether the edit may erase record sets at the name `m` other than with the name as such. -/
def Edit.MayEmpty (e : Edit) (o : Origin) (m : Name) : Prop :=
  e = .deleteAll ∨ ∃ n m', e.setOwner? = some n ∧ o.stored n = .ok m' ∧ (m == m') = true

/-- Whether the edit erases nothing, or only names as such. -/
def Edit.sparesSets : Edit → Bool
  | .deleteAll => false
  | e => e.setOwner?.isNone

theorem Edit.not_mayEmpty (e : Edit) (he : e.sparesSets = true) {o : Origin} {m : Name} :
    ¬ e.MayEmpty o m := by
  rintro (rfl | ⟨n, m', howner, -⟩)
  · cases he
  · cases e <;> simp_all [sparesSets, setOwner?]

namespace Transaction

variable {ζ τ : Type} [Access τ] [Backend ζ τ] {z : ζ} {t : Transaction τ} {check : NameCheck}

/-! ### What a deletion of a name comes to -/

/-- A name that is there is deleted, but for the checks. -/
theorem plan_deleteName_unchecked (hwritable : t.requireWritable = .ok ()) {n m : Name}
    (hn : t.origin.stored n = .ok m) (hfound : Backend.contains z t.access m = true)
    (strict : Bool) : t.unchecked.plan z (.deleteName n strict) = .ok (.eraseName m, none) := by
  have hwritable' : t.unchecked.requireWritable = .ok () := hwritable
  have hn' : t.unchecked.origin.stored n = .ok m := hn
  have hfound' : Backend.contains z t.unchecked.access m = true := hfound
  rw [plan, planDeleteName_eq, hwritable', hn']
  change Except.map _ (if _ then _ else _) = _
  rw [hfound']
  rfl

/-- A name that is there is still there after an edit, or the check has let it go, or the edit may
erase record sets there. -/
theorem ActsOnSets.contains_of_edit (h : t.ActsOnSets z) {m : Name}
    (hfound : Backend.contains z t.access m = true) (hcheck : t.checks.deleteName? = some check)
    (e : Edit) : Backend.contains z (t.edit z e).2.access m = true ∨ LetGo [check] m ∨
      e.MayEmpty t.origin m := by
  rw [edit]
  cases hplan : t.plan z e with
  | error fault => exact .inl hfound
  | ok r =>
      obtain ⟨c, serial?⟩ := r
      have hfits := (plan_eq_ok hplan).2
      have hsound := sound_of_plan hplan
      have hallows := allows_of_plan hplan
      obtain ⟨key, hkey⟩ := (h.contains_iff m).mp hfound
      rcases h.isSome_of_apply hfits hsound hkey with
        hstill | ⟨n, rfl, hn⟩ | ⟨m', rfl, hm'⟩ | rfl
      · exact .inl (((h.apply hfits hsound).contains_iff m).mpr ⟨key, hstill⟩)
      · have haccepted := accepted_of_plan_eraseName hplan hcheck
        exact .inr (.inl ⟨check, List.mem_singleton_self check, n, hn, haccepted⟩)
      · obtain ⟨n, howner, hn⟩ := hallows
        exact .inr (.inr (.inr ⟨n, m', howner, hn, hm'⟩))
      · exact .inr (.inr (.inl hallows))

/-- A name that is there is deleted, strictly or not, if the check lets it go, and its deletion is
rejected without effect if the check refuses it. No deletion of a name makes another one disappear
that the check does not let go. -/
structure HeedsNameCheck (check : NameCheck) (z : ζ) (t : Transaction τ) : Prop where
  deletes : ∀ n m strict, t.origin.stored n = .ok m → Backend.contains z t.access m = true →
    check m = .ok () →
      ∃ t', t.edit z (.deleteName n strict) = (.ok none, t') ∧
        Backend.contains z t'.access m = false
  rejects : ∀ n m strict reason, t.origin.stored n = .ok m → Backend.contains z t.access m = true →
    check m = .error reason →
      t.call z (.edit (.deleteName n strict)) = (.error (.rejected reason), t, z)
  spares : ∀ n strict m, Backend.contains z t.access m = true →
    Backend.contains z (t.call z (.edit (.deleteName n strict))).2.1.access m = true ∨
      LetGo [check] m

theorem ActsOnSets.heedsNameCheck (h : t.ActsOnSets z)
    (hcheck : t.checks.deleteName? = some check) : t.HeedsNameCheck check z where
  deletes n m strict hn hfound haccepts := by
    have hplan := plan_deleteName_unchecked h.writable hn hfound strict
    have hedit := edit_of_vet_eq_ok hplan
      (consented_of_accepted t.checks.deleteName? (fun check => check m) hcheck haccepts)
    refine ⟨_, hedit, Bool.eq_false_iff.mpr fun hstill => ?_⟩
    have hacts := h.after_edit (.deleteName n strict)
    rw [hedit] at hacts
    obtain ⟨key, hkey⟩ := (hacts.contains_iff m).mp hstill
    rw [h.find?_eraseName hfound, if_pos BEq.rfl] at hkey
    cases hkey
  rejects n m strict reason hn hfound hreason := by
    have hplan := plan_deleteName_unchecked h.writable hn hfound strict
    rw [call, edit_of_vet_eq_error hplan
      (consented_eq_error t.checks.deleteName? (fun check => check m) hcheck hreason)]
    rfl
  spares n strict m hfound := by
    rcases h.contains_of_edit hfound hcheck (.deleteName n strict) with hstill | hgo | hmore
    · exact .inl hstill
    · exact .inr hgo
    · exact absurd hmore ((Edit.deleteName n strict).not_mayEmpty rfl)

/-! ### What is there after many calls -/

/-- A name that was there before is still there, or one of the checks has let it go, or one of the
edits that were received may have erased record sets there, by the origin that the transaction had
when it received it. One of the checks is set. -/
structure Guarded (before : Name → Bool) (checks : List NameCheck)
    (received : Transaction τ → Call → Prop) (z : ζ) (t : Transaction τ) : Prop where
  acts : t.ActsOnSets z
  inForce : ∃ check ∈ checks, t.checks.deleteName? = some check
  kept : ∀ m, before m = true → Backend.contains z t.access m = true ∨ LetGo checks m ∨
    ∃ e w, received w (.edit e) ∧ e.MayEmpty w.origin m

namespace Guarded

variable {before : Name → Bool} {checks : List NameCheck}
  {received : Transaction τ → Call → Prop}

theorem edit (h : Guarded before checks received z t) {e : Edit}
    (he : received t (.edit e) ∨ ∀ m, ¬ e.MayEmpty t.origin m) :
    Guarded before checks received z (t.edit z e).2 := by
  obtain ⟨check, hmem, hcheck⟩ := h.inForce
  refine ⟨h.acts.after_edit e, ⟨check, hmem, by rw [checks_edit, hcheck]⟩, fun m hm => ?_⟩
  rcases h.kept m hm with hfound | hgone
  · rcases h.acts.contains_of_edit hfound hcheck e with hstill | ⟨_, hone, hgo⟩ | hmore
    · exact .inl hstill
    · cases List.mem_singleton.mp hone
      exact .inr (.inl ⟨check, hmem, hgo⟩)
    · rcases he with hreceived | hspares
      · exact .inr (.inr ⟨e, t, hreceived, hmore⟩)
      · exact absurd hmore (hspares m)
  · exact .inr hgone

theorem load (h : Guarded before checks received z t) (cls : RecordClass) (records : List Record) :
    Guarded before checks received z (t.load z cls records).2 :=
  load_induction (fun _ r h => h.edit (.inr fun _ => (Edit.addRecord r).not_mayEmpty rfl))
    (fun _ origin _ h => h.edit (.inr fun _ => (Edit.setOrigin origin).not_mayEmpty rfl)) h cls
    records

/-- A call that does not end the transaction may set another one of the checks. -/
theorem call (h : Guarded before checks received z t) {c : Call} (hc : received t c)
    (hends : t.ends c = false) (hset : ∀ check, c.nameCheck? = some check → check ∈ checks) :
    Guarded before checks received z (t.call z c).2.1 := by
  cases c with
  | query q => exact h
  | edit e => exact h.edit (.inl hc)
  | load cls records => exact h.load cls records
  | commit => simp [ends, h.acts.isEnded] at hends
  | rollback => simp [ends, h.acts.isEnded] at hends
  | checkPut check => exact ⟨h.acts, h.inForce, h.kept⟩
  | checkDeleteSet check => exact ⟨h.acts, h.inForce, h.kept⟩
  | checkDeleteName check => exact ⟨h.acts, ⟨check, hset check rfl, rfl⟩, h.kept⟩

/-- Others make no difference as long as a writer finds the same. -/
theorem congr (h : Guarded before checks received z t) {z' : ζ} (hz : WritersSeeAlike z z') :
    Guarded before checks received z' t where
  acts := h.acts.congr hz
  inForce := h.inForce
  kept m hm := by
    rw [hz.contains_eq h.acts.writing]
    exact h.kept m hm

end Guarded

/-- What is there of the names that were there before, and what becomes of those. -/
structure NameChecked (before : Name → Bool) (checks : List NameCheck)
    (received : Transaction τ → Call → Prop) (z : ζ) (t : Transaction τ) : Prop where
  /-- A name that was there is there, or a check has let it go, or an edit may have erased record
  sets there, by the origin that the transaction had when it received it. -/
  kept : ∀ m, before m = true → Backend.contains z t.access m = true ∨ LetGo checks m ∨
    ∃ e w, received w (.edit e) ∧ e.MayEmpty w.origin m
  heeds : ∃ check ∈ checks, t.checks.deleteName? = some check ∧ t.HeedsNameCheck check z

end Transaction

open Transaction (NameChecked)

theorem Traffic.MeetsAlways.nameChecked {υ ζ τ α : Type} [Access τ] [Host ζ τ] [Crowd υ ζ τ α]
    [LawfulAccess τ] {call? : α → Option (Nat × Call)} {t : Traffic υ τ} (h : t.MeetsAlways call?)
    {i : Nat} {w : Transaction τ} (hw : t.txn? i = some w) (hacts : w.ActsOnSets t.zone)
    {check : NameCheck} (hcheck : w.checks.deleteName? = some check) (later : List (Event α)) :
    ∃ w', (t.run later).txn? i = some w' ∧ (w'.isEnded = false →
      w'.NameChecked (Backend.contains t.zone w.access)
        (check :: (callsOn call? i later).filterMap Call.nameCheck?) (t.Receives call? i later)
        (t.run later).zone) := by
  obtain ⟨w', hw', hlast⟩ := h.writer_induction hw (decide_eq_true hacts.writing)
    (P := fun z w' => w'.Guarded (Backend.contains t.zone w.access)
      (check :: (callsOn call? i later).filterMap Call.nameCheck?) (t.Receives call? i later) z)
    ⟨hacts, ⟨check, List.mem_cons_self, hcheck⟩, fun _ => .inl⟩
    (fun _ _ _ _ hz hguarded => hguarded.congr hz)
    fun _ c hc _ hends hguarded => hguarded.call hc hends fun check' hcheck' =>
      List.mem_cons_of_mem check (List.mem_filterMap.mpr ⟨c, hc.mem_callsOn, hcheck'⟩)
  refine ⟨w', hw', fun hopen => ?_⟩
  obtain ⟨-, hguarded⟩ := hlast hopen
  obtain ⟨check', hmem, hcheck'⟩ := hguarded.inForce
  exact ⟨hguarded.kept, check', hmem, hcheck', hguarded.acts.heedsNameCheck hcheck'⟩

/-- A name that a writer has seen when a check on deleted names was in force is still there as long
as the writer is open, unless that check or one that has been set since lets it go, or record sets
may have been deleted there, or everything was deleted. Whatever calls were made, a name is deleted
if the check in force lets it go, and to delete one that it refuses is rejected. Others do not
interfere. -/
theorem ZoneConfig.no_name_deleted_past_check (config : ZoneConfig) (i : Nat) (check : NameCheck) :
    (∀ events w, (config.traffic events).txn? i = some w → w.writes = true →
      w.checks.deleteName? = some check →
        ∀ later, ∃ w', ((config.traffic events).run later).txn? i = some w' ∧ (w'.isEnded = false →
          w'.NameChecked (Backend.contains (config.traffic events).zone w.access)
            (check :: (Traffic.callsOn Action.call? i later).filterMap Call.nameCheck?)
            ((config.traffic events).Receives Action.call? i later)
            ((config.traffic events).run later).zone)) ∧
    ∀ events w, (config.plainTraffic events).txn? i = some w → w.writes = true →
      w.checks.deleteName? = some check →
        ∀ later, ∃ w', ((config.plainTraffic events).run later).txn? i = some w' ∧
          (w'.isEnded = false →
            w'.NameChecked (Backend.contains (config.plainTraffic events).zone w.access)
              (check :: (Traffic.callsOn PlainAction.call? i later).filterMap Call.nameCheck?)
              ((config.plainTraffic events).Receives PlainAction.call? i later)
              ((config.plainTraffic events).run later).zone) := by
  obtain ⟨hversioned, hplain⟩ := config.writers_act_on_sets
  obtain ⟨hmeets, hmeets'⟩ := config.meetsAlways
  constructor
  · intro events w hw hwrites hcheck later
    have hacts := hversioned events (config.traffic events).zone w (Traffic.mem_txns hw) hwrites
    exact (hmeets events).nameChecked hw hacts hcheck later
  · intro events w hw hwrites hcheck later
    have hacts := hplain events w (Traffic.mem_txns hw) hwrites
    exact (hmeets' events).nameChecked hw hacts hcheck later

namespace NameVeto

open Sample SoleWriter

/-- No name is let go. -/
def never : NameCheck := fun _ => .error "keep"

/-- There is a record at the apex, and no name may be deleted. -/
def calls : List Call := [.edit (.addData origin .hour (.txt [])), .checkDeleteName never]

/-- The apex is to be deleted. -/
def deletion : List Call := [.edit (.deleteName origin false)]

theorem no_name_deleted_past_check_of_never :
    let t := config.traffic (events calls)
    let t' := config.plainTraffic (events calls)
    (∃ w w', t.txn? 0 = some w ∧ w.writes = true ∧ w.checks.deleteName? = some never ∧
      (t.run (later deletion)).txn? 0 = some w' ∧ w'.isEnded = false ∧
      w'.NameChecked (Backend.contains t.zone w.access) [never]
        (t.Receives Action.call? 0 (later deletion)) (t.run (later deletion)).zone) ∧
    ∃ w w', t'.txn? 0 = some w ∧ w.writes = true ∧ w.checks.deleteName? = some never ∧
      (t'.run (later deletion)).txn? 0 = some w' ∧ w'.isEnded = false ∧
      w'.NameChecked (Backend.contains t'.zone w.access) [never]
        (t'.Receives PlainAction.call? 0 (later deletion)) (t'.run (later deletion)).zone := by
  intro t t'
  obtain ⟨hversioned, hplain⟩ := config.no_name_deleted_past_check 0 never
  have hw : t.txn? 0 = some (config.writer calls) := rfl
  have hw' : t'.txn? 0 = some (config.plainWriter calls) := rfl
  have hopen : ((t.run (later deletion)).txn? 0).map Transaction.isEnded = some false := rfl
  have hopen' : ((t'.run (later deletion)).txn? 0).map Transaction.isEnded = some false := rfl
  obtain ⟨v, hv, hlast⟩ := hversioned _ _ hw rfl rfl (later deletion)
  obtain ⟨v', hv', hlast'⟩ := hplain _ _ hw' rfl rfl (later deletion)
  rw [hv] at hopen
  rw [hv'] at hopen'
  have hv_open := Option.some.inj hopen
  have hv_open' := Option.some.inj hopen'
  exact ⟨⟨_, v, hw, rfl, rfl, hv, hv_open, hlast hv_open⟩,
    ⟨_, v', hw', rfl, rfl, hv', hv_open', hlast' hv_open'⟩⟩

/-- To delete everything is not rejected though no name is let go, and the apex is there before and
not afterwards. -/
theorem deleteAll_not_put_to_check :
    let t := config.traffic (events calls)
    let t' := config.plainTraffic (events calls)
    (∃ w, t.txn? 0 = some w ∧ w.checks.deleteName? = some never ∧
      Backend.contains t.zone w.access .empty = true ∧
      (w.call t.zone (.edit .deleteAll)).1 = .ok .done ∧
      Backend.contains t.zone (w.call t.zone (.edit .deleteAll)).2.1.access .empty = false) ∧
    (∃ w, t'.txn? 0 = some w ∧ w.checks.deleteName? = some never ∧
      Backend.contains t'.zone w.access .empty = true ∧
      (w.call t'.zone (.edit .deleteAll)).1 = .ok .done ∧
      Backend.contains t'.zone (w.call t'.zone (.edit .deleteAll)).2.1.access .empty = false) ∧
    ∀ m, ¬ LetGo [never] m := by
  refine ⟨⟨_, rfl, rfl, rfl, rfl, rfl⟩, ⟨_, rfl, rfl, rfl, rfl, rfl⟩, ?_⟩
  rintro m ⟨check, hmem, n, -, hgo⟩
  cases List.mem_singleton.mp hmem
  cases hgo

end NameVeto

end DnsZone
