import DnsZone.Proofs.VersionedZone.Serial
import DnsZone.Proofs.VersionedZone.Snapshots

/-!
# What an action does to the versions of a zone

The versions that a zone has, its readers and its policy change in few ways. A commit of a writer
adds a version if something was changed, and the end of a reader takes the reader off; in both cases
old versions are dropped afterwards. A reader that is started is added, and the policy may be
replaced. `Usage.Turnover` says so of every action. It also says of which kind an action is, for an
action that publishes a version and one that drops old versions can be told beforehand.
-/

namespace DnsZone

open VersionedZone (Txn)

namespace VersionedZone

variable {z : VersionedZone} {t : Txn}

/-- The end of a reader. -/
theorem close_of_reading (halive : z.alive = true) {v : Version} (haccess : t.access = .reading v)
    (commit : Bool) : (t.close commit z).2.2 = z.unpin v.id := by
  change (z.finish commit _ t.access).2 = _
  rw [haccess, finish, if_pos halive]

theorem changed_of_writing {d : Draft} (haccess : t.access = .writing d) :
    t.changed z = .ok d.changed := by
  rw [Transaction.changed, Transaction.requireOpen, isEnded_of_writing haccess]
  change Except.ok t.access.changed = _
  rw [haccess]
  rfl

end VersionedZone

/-- Whether old versions are dropped when the transaction ends, by a commit or otherwise. -/
def Participant.dropsOld (committing : Bool) (p : Participant) : Bool :=
  match p.txn.access with
  | .reading _ => true
  | .writing _ => committing
  | .ended => false

namespace Usage

/-- Whether an action is a commit that succeeds, of a writer that has changed something. -/
def publishes (u : Usage) : Action → Bool
  | .call i .commit =>
      match u.txns[i]? with
      | none => false
      | some p =>
          match p.txn.changed u.zone, (p.txn.call u.zone .commit).1 with
          | .ok true, .ok _ => p.writes
          | _, _ => false
  | _ => false

/-- Whether an action ends a reader or commits a writer, after which old versions are dropped. -/
def prunes (u : Usage) : Action → Bool
  | .call i c =>
      match u.txns[i]? with
      | none => false
      | some p => p.txn.ends c && p.dropsOld (p.txn.commits u.zone c)
  | .drop i =>
      match u.txns[i]? with
      | none => false
      | some p => p.dropsOld false
  | _ => false

/-- Whether an action replaces the policy. -/
def replacesPolicy : Action → Bool
  | .setPolicy policy => policy.validate.isOk
  | _ => false

/-- What an action makes of the zone and of all versions that there ever were. -/
inductive Turnover (u : Usage) (a : Action) : VersionedZone → List Version → Prop where
  /-- The action has nothing to do with the versions. -/
  | stays {z : VersionedZone} (hchain : z.chain = u.zone.chain)
      (hreaders : z.readers = u.zone.readers) (hpolicy : z.policy = u.zone.policy)
      (hpublishes : u.publishes a = false) (hprunes : u.prunes a = false) :
      Turnover u a z u.history
  | setsPolicy {policy : Retention} (ha : a = .setPolicy policy)
      (hreplaces : replacesPolicy a = true) :
      Turnover u a { u.zone with policy := policy } u.history
  | readerStarts {query? : Option VersionQuery} (ha : a = .read query?) (v : Version)
      (hv : v ∈ u.zone.chain.toList) :
      Turnover u a { u.zone with readers := u.zone.readers.register v.id } u.history
  | readerEnds (v : Version) {i : Nat} {p : Participant} (ha : a.txn? = some i)
      (hp : u.txns[i]? = some p) (haccess : p.txn.access = .reading v)
      (hpublishes : u.publishes a = false) (hprunes : u.prunes a = true) :
      Turnover u a (u.zone.unpin v.id) u.history
  | writerCommits (d : Draft) (learned? : Option Name) (hbase : d.base = u.zone.latest)
      (hnumbered : d.Numbered) (hpublishes : u.publishes a = d.changed)
      (hprunes : u.prunes a = true) :
      Turnover u a (u.zone.install d learned?) (u.history ++ d.version?.toList)

variable {u : Usage} {i : Nat} {p : Participant}

/-- Only writers have changed anything. -/
theorem publishes_of_not_writes (hp : u.txns[i]? = some p) (h : p.writes = false) (c : Call) :
    u.publishes (.call i c) = false := by
  cases c with
  | commit =>
      simp only [publishes, hp]
      split
      · exact h
      · rfl
  | _ => rfl

/-- A call that does not end the transaction publishes nothing. -/
theorem publishes_of_not_ends (hp : u.txns[i]? = some p) {c : Call} (h : p.txn.ends c = false) :
    u.publishes (.call i c) = false := by
  cases c with
  | commit =>
      have hended : Access.mode p.txn.access = .ended := by
        simpa [Transaction.ends, Transaction.isEnded] using h
      refine publishes_of_not_writes hp ?_ .commit
      rw [Participant.writes, hended]
      rfl
  | _ => rfl

theorem publishes_of_writing (hw : Writers u) (hp : u.txns[i]? = some p) {d : Draft}
    (haccess : p.txn.access = .writing d) (c : Call) :
    u.publishes (.call i c) = (p.txn.commits u.zone c && d.changed) := by
  cases c with
  | commit =>
      have hwrites := Participant.writes_of_writing haccess
      simp only [publishes, hp, VersionedZone.changed_of_writing haccess, hwrites]
      rcases commit_ok_or_error hw.alive haccess with ⟨hok, hcommits⟩ | ⟨⟨e, he⟩, hcommits⟩
      · rw [hok, hcommits]
        cases d.changed <;> rfl
      · rw [he, hcommits]
        cases d.changed <;> rfl
  | _ => rfl

theorem turnover_call (hw : Writers u) (hp : u.txns[i]? = some p) (c : Call) :
    Turnover u (.call i c) (u.call i p c).zone (u.call i p c).history := by
  change Turnover u (.call i c) (p.txn.call u.zone c).2.2 (u.historyWith (p.txn.call u.zone c).2.2)
  have hmem : p ∈ u.txns := List.mem_of_getElem? hp
  have hprunes : u.prunes (.call i c) =
      (p.txn.ends c && p.dropsOld (p.txn.commits u.zone c)) := by
    simp only [prunes, hp]
  cases hends : p.txn.ends c with
  | false =>
      rw [hends, Bool.false_and] at hprunes
      rw [(Transaction.call_of_not_ends hends).1, historyWith_of_latest rfl]
      exact .stays rfl rfl rfl (publishes_of_not_ends hp hends) hprunes
  | true =>
      rw [hends, Bool.true_and, Participant.dropsOld] at hprunes
      rw [Transaction.call_of_ends hends]
      cases haccess : p.txn.access with
      | reading v =>
          have hwrites := Participant.writes_of_reading haccess
          have hlatest : (u.zone.unpin v.id).latest = u.zone.latest := rfl
          rw [haccess] at hprunes
          rw [VersionedZone.close_of_reading hw.alive haccess, historyWith_of_latest hlatest]
          exact .readerEnds v rfl hp haccess (publishes_of_not_writes hp hwrites c) hprunes
      | writing d =>
          obtain ⟨hbase, hnumbered⟩ := hw.based p hmem d haccess
          have hpublishes := publishes_of_writing hw hp haccess c
          rw [haccess] at hprunes
          rw [VersionedZone.close_of_writing hw.alive haccess]
          simp only
          cases hcommits : p.txn.commits u.zone c with
          | false =>
              have hlatest : u.zone.release.latest = u.zone.latest := rfl
              rw [hcommits] at hpublishes hprunes
              rw [if_neg Bool.false_ne_true, historyWith_of_latest hlatest]
              exact .stays rfl rfl rfl hpublishes hprunes
          | true =>
              rw [hcommits] at hpublishes hprunes
              rw [if_pos rfl, historyWith_install hbase hnumbered]
              exact .writerCommits d _ hbase hnumbered hpublishes hprunes
      | ended =>
          have hopen := Transaction.isEnded_of_ends hends
          rw [Transaction.isEnded, haccess] at hopen
          cases hopen

theorem turnover_drop (hw : Writers u) (hp : u.txns[i]? = some p) :
    Turnover u (.drop i) (u.drop i p).zone (u.drop i p).history := by
  change Turnover u (.drop i) (p.txn.drop u.zone) (u.historyWith (p.txn.drop u.zone))
  have hprunes : u.prunes (.drop i) = p.dropsOld false := by
    simp only [prunes, hp]
  rw [Participant.dropsOld] at hprunes
  rw [Transaction.drop]
  cases haccess : p.txn.access with
  | reading v =>
      have hopen := VersionedZone.isEnded_of_reading haccess
      have hlatest : (u.zone.unpin v.id).latest = u.zone.latest := rfl
      rw [haccess] at hprunes
      rw [hopen, if_neg Bool.false_ne_true, VersionedZone.close_of_reading hw.alive haccess,
        historyWith_of_latest hlatest]
      exact .readerEnds v rfl hp haccess rfl hprunes
  | writing d =>
      have hopen := VersionedZone.isEnded_of_writing haccess
      have hlatest : u.zone.release.latest = u.zone.latest := rfl
      rw [haccess] at hprunes
      rw [hopen, if_neg Bool.false_ne_true, VersionedZone.close_of_writing hw.alive haccess]
      simp only
      rw [if_neg Bool.false_ne_true, historyWith_of_latest hlatest]
      exact .stays rfl rfl rfl rfl hprunes
  | ended =>
      have hended : p.txn.isEnded = true := by
        rw [Transaction.isEnded, haccess]
        rfl
      rw [haccess] at hprunes
      rw [if_pos hended, historyWith_of_latest rfl]
      exact .stays rfl rfl rfl rfl hprunes

/-- What every action makes of the versions, as long as writers take turns. -/
theorem turnover_step (hw : Writers u) (a : Action) :
    Turnover u a (u.step a).zone (u.step a).history := by
  cases a with
  | call i c =>
      rw [step]
      cases hp : u.txns[i]? with
      | none =>
          have hpublishes : u.publishes (.call i c) = false := by
            cases c with
            | commit => simp only [publishes, hp]
            | _ => rfl
          have hprunes : u.prunes (.call i c) = false := by
            simp only [prunes, hp]
          exact .stays rfl rfl rfl hpublishes hprunes
      | some p => exact turnover_call hw hp c
  | drop i =>
      rw [step]
      cases hp : u.txns[i]? with
      | none =>
          have hprunes : u.prunes (.drop i) = false := by
            simp only [prunes, hp]
          exact .stays rfl rfl rfl rfl hprunes
      | some p => exact turnover_drop hw hp
  | setPolicy policy =>
      rw [step, VersionedZone.setPolicy]
      cases hvalid : policy.validate with
      | error e => exact .stays rfl rfl rfl rfl rfl
      | ok _ =>
          refine .setsPolicy rfl ?_
          rw [replacesPolicy, hvalid]
          rfl
  | read query? =>
      rw [step, VersionedZone.reader_eq]
      cases hselect : u.zone.select query? with
      | error e => exact .stays rfl rfl rfl rfl rfl
      | ok v => exact .readerStarts rfl v (VersionedZone.mem_of_select hselect)
  | ask =>
      rw [step, VersionedZone.enqueue]
      obtain ⟨id?, admission⟩ := u.zone.admission.enqueue
      cases id? with
      | none => exact .stays rfl rfl rfl rfl rfl
      | some id => exact .stays rfl rfl rfl rfl rfl
  | seize =>
      rw [step]
      cases u.zone.admission.seize? with
      | none => exact .stays rfl rfl rfl rfl rfl
      | some admission => exact .stays rfl rfl rfl rfl rfl
  | wake id =>
      rw [step, VersionedZone.take?]
      split
      · exact .stays rfl rfl rfl rfl rfl
      · rename_i z hz
        split at hz
        · obtain ⟨admission, -, rfl⟩ := Option.map_eq_some_iff.mp hz
          exact .stays rfl rfl rfl rfl rfl
        · cases hz
  | expire id =>
      rw [step, VersionedZone.abandon]
      split
      · obtain ⟨taken, admission⟩ := u.zone.admission.abandon id
        cases taken with
        | false => exact .stays rfl rfl rfl rfl rfl
        | true => exact .stays rfl rfl rfl rfl rfl
      · exact .stays rfl rfl rfl rfl rfl
  | begin replacement =>
      rw [step]
      split
      · exact .stays rfl rfl rfl rfl rfl
      · exact .stays rfl rfl rfl rfl rfl

end Usage

end DnsZone
