import DnsZone.Proofs.Ledger.Records
import DnsZone.Proofs.Updater
import DnsZone.Proofs.VersionedZone.Ledger
import DnsZone.Proofs.VersionedZone.Writers

/-!
# Transfers to a zone in use

A transfer is applied to a zone through a writer that was granted access, while others go on using
the zone. They may read it, wait for write access and replace the policy between any two updates.
As long as the zone keeps all versions and access is not handed to anybody else, the transfer alone
adds to the versions. What its writer sees is told by a ledger, and a commit makes a version of the
record sets of the ledger.
-/

namespace DnsZone

open VersionedZone (Txn Move)

/-- An update, and what other users of the zone do before it arrives. -/
structure Delivery where
  meanwhile : List Action
  update : Update

/-- A transfer to a zone in use. -/
structure Transfer where
  /-- The zone and all others who use it. -/
  users : Usage
  updater : Updater VersionedAccess
  /-- What came of the updates so far. -/
  results : List Progress := []

namespace Transfer

/-- The transfer of a writer that was granted access and now picks up the latest version. -/
def start (u : Usage) : Transfer where
  users := { u with granted := u.granted - 1 }
  updater := ⟨some (u.zone.startWriter false), false⟩

/-- An updater that need not wait is started by seizing access. -/
theorem start?_eq (u : Usage) : Updater.start? u.zone =
    if u.zone.admission.isFree then
      some ((start (u.step .seize)).updater, (start (u.step .seize)).users.zone)
    else none := by
  rw [Updater.start?, VersionedZone.writer?_eq, Usage.step, Admission.seize?]
  cases u.zone.admission.isFree <;> rfl

def apply (t : Transfer) (update : Update) : Transfer :=
  let o := t.updater.apply t.users.zone update
  { users := { t.users with zone := o.2.2, history := t.users.historyWith o.2.2 }
    updater := o.2.1
    results := t.results ++ [o.1] }

/-- Others use the zone for a while, then an update arrives. -/
def deliver (t : Transfer) (d : Delivery) : Transfer :=
  apply { t with users := t.users.run d.meanwhile } d.update

def run (t : Transfer) (ds : List Delivery) : Transfer := ds.foldl deliver t

theorem run_append (t : Transfer) (ds ds' : List Delivery) :
    t.run (ds ++ ds') = (t.run ds).run ds' := List.foldl_append

end Transfer

/-! ### No other writer is admitted -/

/-- The zone keeps all versions, and access is not handed to anybody. -/
def Usage.Calm (u : Usage) : Prop := u.zone.policy = .all ∧ u.zone.admission.handedTo = none

/-- The zone stays calm before, during and after some actions. -/
def Usage.StaysCalm (u : Usage) : List Action → Prop
  | [] => u.Calm
  | a :: rest => u.Calm ∧ (u.step a).StaysCalm rest

/-- The zone is calm until the last update has arrived. -/
def Transfer.Undisturbed (t : Transfer) : List Delivery → Prop
  | [] => True
  | d :: rest => t.users.StaysCalm d.meanwhile ∧ (t.deliver d).Undisturbed rest

theorem Usage.StaysCalm.calm {u : Usage} {actions : List Action} (h : u.StaysCalm actions) :
    u.Calm := by
  cases actions with
  | nil => exact h
  | cons a rest => exact h.1

theorem Usage.StaysCalm.calm_run {u : Usage} {actions : List Action} (h : u.StaysCalm actions) :
    (u.run actions).Calm := by
  induction actions generalizing u with
  | nil => exact h
  | cons a rest ih => exact ih h.2

theorem Transfer.undisturbed_append {t : Transfer} {ds ds' : List Delivery} :
    t.Undisturbed (ds ++ ds') ↔ t.Undisturbed ds ∧ (t.run ds).Undisturbed ds' := by
  induction ds generalizing t with
  | nil => exact (iff_of_eq (true_and _)).symm
  | cons d rest ih =>
      rw [List.cons_append, Undisturbed, ih, Undisturbed, and_assoc]
      rfl

theorem Transfer.Undisturbed.calm {t : Transfer} {ds : List Delivery} (h : t.Undisturbed ds)
    (hne : ds ≠ []) : t.users.Calm := by
  cases ds with
  | nil => exact absurd rfl hne
  | cons d rest => exact h.1.calm

/-- Write access is with the transfer: none of the others has it. Since then the zone `z` has become
one with the given versions. -/
structure Usage.Reserved (z : VersionedZone) (versions : List Version) (u : Usage) : Prop where
  alive : u.zone.alive = true
  active : u.zone.admission.active = true
  granted : u.granted = 0
  idle : ∀ p ∈ u.txns, p.writes = false
  cls : u.zone.cls = z.cls
  origin : u.zone.origin = z.origin
  unchecked : u.zone.checksOrigin = false
  versions : u.zone.chain.toList = versions

namespace Usage.Reserved

variable {z : VersionedZone} {versions : List Version} {u : Usage}

/-- A transaction of somebody else goes on or ends. -/
theorem move (h : u.Reserved z versions) (hcalm : u.Calm) {i : Nat} {p p' : Participant}
    {z' : VersionedZone} (hp : u.txns[i]? = some p) (hmove : Move u.zone p.txn p'.txn z')
    (committed : List Script) (history : List Version) :
    Reserved z versions
      { u with
        zone := z'
        txns := u.txns.set i p'
        committed := committed
        history := history } := by
  have hidle := h.idle p (List.mem_of_getElem? hp)
  have hidle' (hp' : p'.writes = false) : ∀ q ∈ u.txns.set i p', q.writes = false := by
    intro q hq
    rcases List.mem_or_eq_of_mem_set hq with hq | rfl
    · exact h.idle q hq
    · exact hp'
  generalize htxn : p'.txn = t' at hmove
  cases hmove with
  | stays hedited =>
      have hwrites : p'.writes = false := by
        rw [Participant.writes, htxn, VersionedZone.mode_of_edited hedited]
        exact hidle
      exact ⟨h.alive, h.active, h.granted, hidle' hwrites, h.cls, h.origin, h.unchecked,
        h.versions⟩
  | readerEnds haccess =>
      have hwrites : p'.writes = false := by
        rw [Participant.writes, htxn]
        rfl
      refine ⟨h.alive, h.active, h.granted, hidle' hwrites, h.cls, h.origin, h.unchecked, ?_⟩
      change (u.zone.chain.prune u.zone.policy _).toList = versions
      rw [hcalm.1, VersionChain.prune_all, h.versions]
  | writerCommits haccess | writerEnds haccess =>
      rw [Participant.writes_of_writing haccess] at hidle
      cases hidle

theorem quiet (h : u.Reserved z versions) (hcalm : u.Calm) {u' : Usage}
    (hquiet : u.Quiet u') : u'.Reserved z versions := by
  cases hquiet with
  | turns hturn =>
      cases hturn with
      | atOnce hfree =>
          have hactive := h.active
          rw [(Admission.isFree_iff.mp hfree).1] at hactive
          cases hactive
      | takes hhanded =>
          rw [hcalm.2] at hhanded
          cases hhanded
      | waits | leaves =>
          exact ⟨h.alive, h.active, h.granted, h.idle, h.cls, h.origin, h.unchecked, h.versions⟩
  | policy => exact ⟨h.alive, h.active, h.granted, h.idle, h.cls, h.origin, h.unchecked, h.versions⟩
  | begins replacement hgranted => exact absurd h.granted hgranted
  | reads =>
      refine ⟨h.alive, h.active, h.granted, fun p hp => ?_, h.cls, h.origin, h.unchecked,
        h.versions⟩
      rcases List.mem_append.mp hp with hp | hp
      · exact h.idle p hp
      · cases List.mem_singleton.mp hp
        rfl

theorem effect (h : u.Reserved z versions) (hcalm : u.Calm) {u' : Usage}
    (heffect : u.Effect u') : u'.Reserved z versions := by
  cases heffect with
  | quiet hquiet => exact h.quiet hcalm hquiet
  | calls hp c => exact h.move hcalm hp (VersionedZone.move_call h.alive c) _ _
  | drops hp => exact h.move hcalm hp (VersionedZone.move_drop h.alive) _ _

theorem run (h : u.Reserved z versions) {actions : List Action} (hcalm : u.StaysCalm actions) :
    (u.run actions).Reserved z versions := by
  induction actions generalizing u with
  | nil => exact h
  | cons a rest ih => exact ih (h.effect hcalm.1 (effect_step u a)) hcalm.2

/-- Which versions there ever were does not matter. -/
theorem remember (h : u.Reserved z versions) (history : List Version) :
    Reserved z versions { u with history := history } :=
  ⟨h.alive, h.active, h.granted, h.idle, h.cls, h.origin, h.unchecked, h.versions⟩

end Usage.Reserved

/-! ### Writers and versions tell the same as a ledger -/

/-- The version has exactly the record sets of the ledger. -/
structure Ledger.Describes (l : Ledger) (v : Version) : Prop where
  solid : (VersionedView.committed v).Solid
  find?_eq : ∀ n key, v.find? n key = l.table.set? n key

namespace Ledger.Describes

variable {l : Ledger} {v : Version}

/-- A writer that is started on the version goes by the ledger. -/
theorem mirrors (h : l.Describes v) {z : VersionedZone} (hv : z.latest = v)
    (horigin : z.origin = l.origin) (hchecks : l.checks = {}) :
    l.Mirrors (z.startWriter false) where
  origin := horigin
  checks := hchecks.symm
  draft := ⟨.start z.latest false, rfl, hv ▸ Draft.solid_start h.solid false,
    fun n key => hv ▸ h.find?_eq n key⟩

/-- A reader of the version sees exactly the record sets of the ledger. -/
theorem seenBy (h : l.Describes v) (z : VersionedZone) : l.table.SeenBy z (.reading v) :=
  z.seenBy (.reading v) h.solid h.find?_eq

theorem keyed (h : l.Describes v) : l.table.Keyed := by
  intro n key s hs
  rw [← h.find?_eq] at hs
  have hs : (VersionedView.committed v).find? n key = some s := hs
  exact VersionedView.key_of_find? hs

theorem agree (h : l.Describes v) : Listing.Agree v.sets l.table.listing :=
  (h.seenBy (.create none .internet true false .all)).sets

end Ledger.Describes

/-- Whether a record of the given data is in the version at a name. -/
def Version.has (v : Version) (n : Name) (d : RecordData) : Bool := Listing.has v.sets n d

theorem Ledger.Describes.has_eq {l : Ledger} {v : Version} (h : l.Describes v) (hl : l.Plain) :
    v.has = l.table.has := by
  funext n d
  exact Listing.has_eq_of_agree h.agree h.keyed hl.filed n d

/-- Every record of the version stands in the set of its own key. -/
def Version.Filed (v : Version) : Prop := ∀ e ∈ v.sets, ∀ d ∈ e.2.data, d.key = e.2.key

/-- The ledger of a writer that is started on the latest version of a zone in use. -/
theorem ZoneConfig.describes_ofZone (config : ZoneConfig) (actions : List Action) :
    (Ledger.ofZone (config.usage actions).zone false {}).Describes
      (config.usage actions).zone.latest where
  solid := config.solid_usage actions
  find?_eq n key := by
    have hmirrors := Ledger.mirrors_ofZone (config.solid_usage actions) false {}
    exact hmirrors.find?_eq (config.usage actions).zone n key

/-! ### Changing and committing -/

namespace VersionedZone

variable {z : VersionedZone} {w : Txn} {d d' : Draft} {n : Name} {s : RecordSet}

/-- A writer that commits now adds a version. -/
def Changes (w : Txn) : Prop := ∀ d, w.access = .writing d → d.changed = true

theorem changes_put (w : Txn) (n : Name) (s : RecordSet) : Changes (w.apply (.put n s)) := by
  intro d' hd'
  obtain ⟨d, -, rfl⟩ := draft_of_apply hd'
  exact d.working.hasChanges_put n s

/-- Adding a record undoes no change. -/
theorem Changes.edit (h : Changes w) {e : Edit} (he : e.offered? = some (n, s))
    (hs : s.isEmpty = false) : Changes (w.edit z e).2 := by
  cases hplan : w.plan z e with
  | error fault =>
      rw [Transaction.edit, hplan]
      exact h
  | ok r =>
      rw [Transaction.edit_of_plan hplan]
      obtain ⟨m, -, ⟨s', hput⟩ | ⟨hnothing, -⟩⟩ := Transaction.plan_of_offered_eq_ok he hs hplan
      · rw [hput]
        exact changes_put w m s'
      · rw [hnothing]
        exact h

/-- Replacing a record set is a change, even if the set was the same before. -/
theorem changes_replace (hs : s.isEmpty = false) {serial? : Option Serial} {w' : Txn}
    (h : w.edit z (.replace n s) = (.ok serial?, w')) : Changes w' := by
  cases hplan : w.plan z (.replace n s) with
  | error fault =>
      rw [Transaction.edit, hplan] at h
      cases h
  | ok r =>
      obtain ⟨c, hc, rfl⟩ := map_eq_ok_iff.mp hplan
      rw [Transaction.edit_of_plan hplan] at h
      cases h
      obtain ⟨-, m, -, hc⟩ := Transaction.exists_target hc
      rw [hs, if_neg Bool.false_ne_true] at hc
      rw [Transaction.planPut_eq_ok hc]
      exact changes_put w m s

/-- A commit of changes, where all versions are kept and the origin is known. -/
theorem commit_eq (halive : z.alive = true) (hpolicy : z.policy = .all)
    (horigin : z.origin?.isSome = true) (haccess : w.access = .writing d)
    (hunchecked : w.checksOrigin = false) (hchanged : d.changed = true) :
    w.commit z = (.ok (), { w with access := .ended },
      { z with admission := z.admission.release, chain := z.chain.push d.working.freeze }) := by
  have hfault : w.apexFault? z = none := by
    rw [Transaction.apexFault?, hunchecked]
    simp
  obtain ⟨origin, horigin⟩ := Option.isSome_iff_exists.mp horigin
  have hversion : d.version? = some d.working.freeze := by rw [Draft.version?, if_pos hchanged]
  rw [Transaction.commit, isEnded_of_writing haccess, hfault]
  simp only [Bool.false_eq_true, ↓reduceIte]
  rw [close_of_writing halive haccess, if_pos rfl, install_eq, hversion, hpolicy,
    VersionChain.prune_all, horigin, Option.some_or]
  simp only [append, ← horigin]

end VersionedZone

/-- A commit of the writer of the transfer adds a version of the record sets of its ledger. -/
theorem Usage.Reserved.commit {z : VersionedZone} {versions : List Version} {u : Usage}
    (h : u.Reserved z versions) (hcalm : u.Calm) (hz : z.origin?.isSome = true) {l : Ledger}
    {w : Txn} (hmirrors : l.Mirrors w) (hunchecked : w.checksOrigin = false)
    (hchanges : VersionedZone.Changes w) :
    ∃ v, l.Describes v ∧ w.commit u.zone = (.ok (), { w with access := .ended },
      { u.zone with
        admission := u.zone.admission.release
        chain := u.zone.chain.push v }) := by
  obtain ⟨d, haccess, hsolid, hfind⟩ := hmirrors.draft
  have hchanged := hchanges d haccess
  have hname : u.zone.origin? = z.origin? := congrArg Origin.name? h.origin
  refine ⟨d.working.freeze, ⟨?_, fun n key => ?_⟩, VersionedZone.commit_eq h.alive hcalm.1
    (hname ▸ hz) haccess hunchecked hchanged⟩
  · refine Draft.solid_version? hsolid ?_
    rw [Draft.version?, if_pos hchanged]
    rfl
  · have hview : d.working.freeze.find? n key =
        (VersionedView.committed d.working.freeze).find? n key := rfl
    rw [hview, VersionedView.find?_eq_set?, VersionedView.content_committed,
      WorkingCopy.content_freeze, WorkingCopy.set?_content, Draft.find?_working, hfind]

/-! ### The state of a transfer between two updates -/

namespace Transfer

/-- The transfer has write access, no update was refused so far, and its writer `w` sees the record
sets of the ledger. -/
structure Open (z : VersionedZone) (versions : List Version) (batching : Bool) (w : Txn)
    (l : Ledger) (t : Transfer) : Prop where
  users : t.users.Reserved z versions
  writer : t.updater.writer? = some w
  batching_eq : t.updater.batching = batching
  unchecked : w.checksOrigin = false
  mirrors : l.Mirrors w
  origin : l.origin = z.origin
  settled : ∀ r ∈ t.results, r = .settled (.ok ())

namespace Open

variable {z : VersionedZone} {versions : List Version} {batching : Bool} {w : Txn}
  {l l' : Ledger} {t : Transfer} {r : Record}

/-- What others do in the meantime does not concern the transfer. -/
theorem meanwhile (h : t.Open z versions batching w l) {actions : List Action}
    (hcalm : t.users.StaysCalm actions) :
    Open z versions batching w l { t with users := t.users.run actions } where
  users := h.users.run hcalm
  writer := h.writer
  batching_eq := h.batching_eq
  unchecked := h.unchecked
  mirrors := h.mirrors
  origin := h.origin
  settled := h.settled

theorem cls_eq (h : t.Open z versions batching w l) (hr : r.cls = z.cls) :
    r.cls = Host.cls t.users.zone := hr.trans h.users.cls.symm

/-- The writer makes an edit as the ledger does. -/
theorem edit_eq (h : t.Open z versions batching w l) {e : Edit} {serial? : Option Serial}
    (he : l.edit e = (.ok serial?, l')) :
    w.edit t.users.zone e = (.ok serial?, (w.edit t.users.zone e).2) ∧
      l'.Mirrors (w.edit t.users.zone e).2 := by
  obtain ⟨hresult, hmirrors⟩ := h.mirrors.edit t.users.zone e
  rw [he] at hresult hmirrors
  exact ⟨Prod.ext hresult rfl, hmirrors⟩

theorem settled_concat (h : t.Open z versions batching w l) :
    ∀ r ∈ t.results ++ [.settled (.ok ())], r = .settled (.ok ()) := by
  intro r hr
  rcases List.mem_append.mp hr with hr | hr
  · exact h.settled r hr
  · exact List.mem_singleton.mp hr

/-- The writer has made an edit, and the zone has not changed. -/
theorem edited (h : t.Open z versions batching w l) {update : Update} {e : Edit} {b : Bool}
    (he : l.edit e = (.ok none, l')) (horigin : l'.origin = l.origin)
    (happly : t.updater.apply t.users.zone update =
      (.settled (.ok ()), ⟨some (w.edit t.users.zone e).2, b⟩, t.users.zone)) :
    (t.apply update).Open z versions b (w.edit t.users.zone e).2 l' := by
  have hmirrors := (h.edit_eq he).2
  rw [apply, happly]
  exact {
    users := h.users.remember _
    writer := rfl
    batching_eq := rfl
    unchecked := (Transaction.checksOrigin_edit _ w e).trans h.unchecked
    mirrors := hmirrors
    origin := horigin.trans h.origin
    settled := h.settled_concat }

theorem edit (h : t.Open z versions batching w l) {update : Update} {e : Edit}
    (hupdate : update.edit? = some (r, e)) (hr : r.cls = z.cls)
    (he : l.edit e = (.ok none, l')) (horigin : l'.origin = l.origin) :
    (t.apply update).Open z versions batching (w.edit t.users.zone e).2 l' := by
  refine h.edited he horigin ?_
  rw [Updater.apply_of_edit hupdate h.writer (h.cls_eq hr) (h.edit_eq he).1, h.batching_eq]

theorem beginBatchAdd (h : t.Open z versions batching w l) (hr : r.cls = z.cls)
    (hsoa : r.rtype = .soa) (he : l.edit (.replace r.owner (.single r.ttl r.data)) = (.ok none, l'))
    (horigin : l'.origin = l.origin) :
    ∃ w', (t.apply (.beginBatchAdd r)).Open z versions true w' l' ∧ VersionedZone.Changes w' := by
  have hedit := (h.edit_eq he).1
  refine ⟨_, h.edited he horigin ?_, VersionedZone.changes_replace rfl hedit⟩
  rw [Updater.apply_beginBatchAdd h.writer (h.cls_eq hr) hsoa hedit]

theorem beginFirstBatch (h : t.Open z versions false w l) :
    (t.apply (.beginBatchDelete r)).Open z versions true w l := by
  rw [apply, Updater.apply_beginBatchDelete_first h.batching_eq]
  exact {
    users := h.users.remember _
    writer := h.writer
    batching_eq := rfl
    unchecked := h.unchecked
    mirrors := h.mirrors
    origin := h.origin
    settled := h.settled_concat }

/-- A batch begins with a commit of the one before, after which the transfer has access again if
nobody else waits for it. -/
theorem beginNextBatch (h : t.Open z versions true w l) (hcalm : t.users.Calm)
    (hz : z.origin?.isSome = true) (hchanges : VersionedZone.Changes w) (hl : l.checks = {})
    (hnext : (t.apply (.beginBatchDelete r)).users.Calm) :
    ∃ v w', l.Describes v ∧ (t.apply (.beginBatchDelete r)).Open z (versions ++ [v]) true w' l := by
  obtain ⟨v, hv, hcommit⟩ := h.users.commit hcalm hz h.mirrors h.unchecked hchanges
  rw [apply, Updater.apply_beginBatchDelete h.writer h.batching_eq hcommit, Updater.resume,
    VersionedZone.writer?_eq, Admission.release] at hnext ⊢
  cases hwaiting : t.users.zone.admission.waiting with
  | nil =>
      simp only [hwaiting, Admission.seize?, Admission.isFree, hcalm.2] at hnext ⊢
      refine ⟨v, _, hv, {
        users := ?_
        writer := rfl
        batching_eq := rfl
        unchecked := h.users.unchecked
        mirrors := hv.mirrors rfl (h.users.origin.trans h.origin.symm) hl
        origin := h.origin
        settled := h.settled_concat }⟩
      refine ⟨h.users.alive, rfl, h.users.granted, h.users.idle, h.users.cls, h.users.origin,
        h.users.unchecked, ?_⟩
      change t.users.zone.chain.toList ++ [v] = versions ++ [v]
      rw [h.users.versions]
  | cons id rest =>
      -- access would be handed to the writer that has waited longest
      simp only [hwaiting, Admission.seize?, Admission.isFree] at hnext
      cases hnext.2

end Open

/-- No update was refused, the updater is finished, and the zone has the given versions. -/
structure Finished (versions : List Version) (t : Transfer) : Prop where
  settled : ∀ r ∈ t.results, r = .settled (.ok ())
  finished : t.updater.isFinished = true
  versions : t.users.zone.chain.toList = versions

/-- The last update sets the start of authority and commits. -/
theorem Open.finished {z : VersionedZone} {versions : List Version} {batching : Bool} {w : Txn}
    {l l' : Ledger} {t : Transfer} {r : Record} (h : t.Open z versions batching w l)
    (hcalm : t.users.Calm) (hz : z.origin?.isSome = true) (hr : r.cls = z.cls)
    (hsoa : r.rtype = .soa)
    (he : l.edit (.replace r.owner (.single r.ttl r.data)) = (.ok none, l')) :
    ∃ v, l'.Describes v ∧ (t.apply (.finished r)).Finished (versions ++ [v]) := by
  obtain ⟨hedit, hmirrors⟩ := h.edit_eq he
  have hunchecked := (Transaction.checksOrigin_edit t.users.zone w
    (.replace r.owner (.single r.ttl r.data))).trans h.unchecked
  obtain ⟨v, hv, hcommit⟩ := h.users.commit hcalm hz hmirrors hunchecked
    (VersionedZone.changes_replace rfl hedit)
  refine ⟨v, hv, ?_⟩
  rw [apply, Updater.apply_finished h.writer (h.cls_eq hr) hsoa hedit hcommit]
  refine ⟨h.settled_concat, rfl, ?_⟩
  change t.users.zone.chain.toList ++ [v] = versions ++ [v]
  rw [h.users.versions]

end Transfer

end DnsZone
