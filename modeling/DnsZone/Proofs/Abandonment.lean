import DnsZone.Proofs.PlainZone.Moves
import DnsZone.Proofs.Transaction.Exchange
import DnsZone.Proofs.VersionedZone.History

/-!
# Abandoned writers leave no trace

A writer is abandoned if it is rolled back or dropped, if its commit is refused, or if what is run
in it fails. The zone is then as if the writer had never made a call: others find what they would
have found without it, and write access is free again or goes to the writer that has waited longest.
-/

namespace DnsZone

open VersionedZone (Txn)

/-! ### Ways to abandon a writer -/

section

variable {ζ τ : Type} [Access τ] [Backend ζ τ]

/-- The transaction `t` ends without its changes, which leaves the zone `z'`. -/
inductive Transaction.Abandons (z : ζ) (t : Transaction τ) : ζ → Prop where
  | rollsBack : Abandons z t (t.rollback z).2.2
  | drops : Abandons z t (t.drop z)
  | refused {fault : ZoneError} (h : (t.commit z).1 = .error fault) :
      Abandons z t (t.commit z).2.2
  /-- What is run in the transaction leaves it as `t` and fails. -/
  | fails {ε α : Type} {body : Transaction τ → ζ → Except ε α × Transaction τ × ζ}
      {t₀ : Transaction τ} {z₀ : ζ} {e : ε} (h : body t₀ z₀ = (.error e, t, z))
      (ofZoneError : ZoneError → ε) :
      Abandons z t (Transaction.writeWith ofZoneError body t₀ z₀).2

variable {z z' : ζ} {t : Transaction τ}

/-- A commit that is refused has committed nothing, unless committing itself can fail. -/
theorem Transaction.close_of_commit_error {fault : ZoneError}
    (h : (t.commit z).1 = .error fault) (hopen : t.isEnded = false)
    (hok : (t.close true z).1 = .ok ()) : (t.commit z).2.2 = (t.close false z).2.2 := by
  rw [commit, hopen] at h ⊢
  cases hfault : t.apexFault? z with
  | none =>
      rw [hfault] at h
      cases hok.symm.trans h
  | some _ =>
      simp only [Bool.false_eq_true, ↓reduceIte]
      generalize t.close false z = x
      obtain ⟨result, t', z'⟩ := x
      cases result <;> rfl

/-- However a writer is abandoned, it is closed without a commit. -/
theorem Transaction.Abandons.eq_close (h : t.Abandons z z') (hopen : t.isEnded = false)
    (hok : (t.close true z).1 = .ok ()) : z' = (t.close false z).2.2 := by
  have hdrop : t.drop z = (t.close false z).2.2 := by
    rw [drop, hopen]
    rfl
  cases h with
  | rollsBack =>
      rw [rollback, hopen]
      rfl
  | drops => exact hdrop
  | refused h => exact close_of_commit_error h hopen hok
  | fails h =>
      rw [writeWith, h]
      exact hdrop

end

/-! ### Plain zones -/

namespace PlainZone

/-- A writer that is started on the zone and abandoned after any calls leaves the zone just as it
was, with the lock free. -/
def ForgetsWriters (z : PlainZone) : Prop :=
  ∀ replacement t z₀ calls z', Transaction.writer? replacement z = some (t, z₀) →
    (t.exchange z₀ calls).2.1.isEnded = false →
      (t.exchange z₀ calls).2.1.Abandons (t.exchange z₀ calls).2.2 z' →
        z' = z ∧ z'.locked = false

theorem forgetsWriters (z : PlainZone) : z.ForgetsWriters := by
  intro replacement t z₀ calls z' ht hopen habandons
  obtain ⟨hzone, hedited⟩ := Transaction.exchange_of_open rfl hopen
  have hmode := hedited.mode_eq mode_apply
  rw [writer?_eq] at ht
  split at ht
  · cases ht
  · rename_i hlocked
    cases ht
    -- the calls have changed what is staged, but the zone is as it was with the lock taken
    obtain ⟨s, hs⟩ := exists_staging hmode
    rw [hzone] at habandons
    have hz' := habandons.eq_close hopen (by rw [close_of_writing _ hs])
    rw [close_of_writing _ hs] at hz'
    have hlocked : z.locked = false := Bool.eq_false_iff.mpr hlocked
    have hsame : z' = z := by
      rw [hz']
      change { z with locked := false } = z
      rw [← hlocked]
    exact ⟨hsame, hsame ▸ hlocked⟩

end PlainZone

/-! ### What others do does not depend on a writer -/

/-- Those of the actions that are not on the transaction started as number `i`. -/
def Action.others (i : Nat) (actions : List Action) : List Action :=
  actions.filter fun a => a.txn? != some i

namespace Usage

/-- The users of a zone, if the transaction started as number `i` stood as `p`. -/
def withTxn (u : Usage) (i : Nat) (p : Participant) : Usage := { u with txns := u.txns.set i p }

@[simp] theorem zone_withTxn (u : Usage) (i : Nat) (p : Participant) :
    (u.withTxn i p).zone = u.zone := rfl

@[simp] theorem granted_withTxn (u : Usage) (i : Nat) (p : Participant) :
    (u.withTxn i p).granted = u.granted := rfl

@[simp] theorem txns_withTxn (u : Usage) (i : Nat) (p : Participant) :
    (u.withTxn i p).txns = u.txns.set i p := rfl

@[simp] theorem queuers_withTxn (u : Usage) (i : Nat) (p : Participant) :
    (u.withTxn i p).queuers = u.queuers := rfl

variable {u : Usage} {i : Nat} {p : Participant}

theorem length_le_effect {u' : Usage} (h : Effect u u') : u.txns.length ≤ u'.txns.length := by
  cases h with
  | quiet hquiet => cases hquiet <;> simp
  | calls => exact (List.length_set ..).ge
  | drops => exact (List.length_set ..).ge

/-- An action that is not on a transaction has the same effect however that one stands. -/
theorem step_withTxn (hi : i < u.txns.length) (p : Participant) {a : Action}
    (ha : a.txn? ≠ some i) : (u.withTxn i p).step a = (u.step a).withTxn i p := by
  have happend (q : Participant) : u.txns.set i p ++ [q] = (u.txns ++ [q]).set i p :=
    (List.set_append_left i p hi).symm
  cases a with
  | ask =>
      simp only [step, zone_withTxn, queuers_withTxn]
      rcases u.zone.enqueue with ⟨_ | id, z⟩ <;> rfl
  | seize =>
      simp only [step, zone_withTxn, queuers_withTxn]
      cases u.zone.admission.seize? <;> rfl
  | wake id =>
      have htake : (if id ∈ (u.withTxn i p).queuers.callers then (u.withTxn i p).zone.take? id
          else none) = if id ∈ u.queuers.callers then u.zone.take? id else none := rfl
      rw [step, step, htake]
      cases (if id ∈ u.queuers.callers then u.zone.take? id else none) <;> rfl
  | expire id =>
      rw [step, step]
      by_cases hid : id ∈ u.queuers.callers
      · have hid' : id ∈ (u.withTxn i p).queuers.callers := hid
        rw [if_pos hid, if_pos hid', zone_withTxn]
        rcases u.zone.abandon id with ⟨_ | _, z⟩ <;> rfl
      · have hid' : id ∉ (u.withTxn i p).queuers.callers := hid
        rw [if_neg hid, if_neg hid']
  | begin replacement =>
      simp only [step, zone_withTxn, granted_withTxn, txns_withTxn, happend]
      by_cases hgranted : u.granted = 0
      · simp only [if_pos hgranted]
      · simp only [if_neg hgranted]
        rfl
  | read query? =>
      simp only [step, zone_withTxn, txns_withTxn, happend]
      rcases Transaction.reader query? u.zone with fault | ⟨t, z⟩ <;> rfl
  | setPolicy policy =>
      simp only [step, zone_withTxn]
      cases u.zone.setPolicy policy <;> rfl
  | call j c =>
      have hij : i ≠ j := fun h => ha (congrArg some h.symm)
      simp only [step, txns_withTxn, List.getElem?_set_ne hij]
      cases u.txns[j]? with
      | none => rfl
      | some q =>
          simp only [call, txns_withTxn, List.set_comm _ _ hij]
          rfl
  | drop j =>
      have hij : i ≠ j := fun h => ha (congrArg some h.symm)
      simp only [step, txns_withTxn, List.getElem?_set_ne hij]
      cases u.txns[j]? with
      | none => rfl
      | some q =>
          simp only [drop, txns_withTxn, List.set_comm _ _ hij]
          rfl

/-- A transaction that has ended stays so. -/
theorem ended_effect (hp : u.txns[i]? = some p) (hended : p.txn.isEnded = true) {u' : Usage}
    (h : Effect u u') : ∃ p', u'.txns[i]? = some p' ∧ p'.txn.isEnded = true := by
  have hi : i < u.txns.length := (List.getElem?_eq_some_iff.mp hp).1
  have hset {j : Nat} {q q' : Participant} (hq : u.txns[j]? = some q)
      (hq' : q.txn.isEnded = true → q'.txn.isEnded = true) :
      ∃ p', (u.txns.set j q')[i]? = some p' ∧ p'.txn.isEnded = true := by
    by_cases hij : j = i
    · subst hij
      cases hp.symm.trans hq
      exact ⟨q', List.getElem?_set_self hi, hq' hended⟩
    · exact ⟨p, (List.getElem?_set_ne hij).trans hp, hended⟩
  cases h with
  | quiet hquiet => exact ⟨p, hquiet.getElem?_txns hp, hended⟩
  | calls hq c => exact hset hq fun h => Transaction.isEnded_exchange h [c]
  | drops hq => exact hset hq fun _ => rfl

theorem ended_run (hp : u.txns[i]? = some p) (hended : p.txn.isEnded = true)
    (actions : List Action) :
    ∃ p', (u.run actions).txns[i]? = some p' ∧ p'.txn.isEnded = true := by
  induction actions generalizing u p with
  | nil => exact ⟨p, hp, hended⟩
  | cons a rest ih =>
      obtain ⟨p', hp', hended'⟩ := ended_effect hp hended (effect_step u a)
      exact ih hp' hended'

/-- A call that does not end a transaction changes nothing but how that stands. -/
theorem call_of_not_ends {c : Call} (hopen : p.txn.isEnded = false) (hends : p.txn.ends c = false) :
    ∃ p', (u.withTxn i p).call i p c = u.withTxn i p' := by
  have hzone : (p.txn.call u.zone c).2.2 = u.zone := (Transaction.call_of_not_ends hends).1
  refine ⟨{ p with calls := p.calls ++ [c], txn := (p.txn.call u.zone c).2.1 }, ?_⟩
  have hcommitted : (u.withTxn i p).committedWith p c (p.txn.call u.zone c).1 = u.committed := by
    cases c with
    | commit =>
        rw [Transaction.ends, hopen] at hends
        cases hends
    | _ => rfl
  have hhistory : (u.withTxn i p).historyWith u.zone = u.history := historyWith_of_latest rfl
  change Usage.mk _ _ _ _ _ _ = Usage.mk _ _ _ _ _ _
  congr 1
  · exact List.set_set ..
  · change (u.withTxn i p).historyWith (p.txn.call u.zone c).2.2 = _
    rw [hzone, hhistory]

/-- An action on a transaction that is open either ends it or changes nothing but how it stands. -/
theorem step_own (hi : i < u.txns.length) (hopen : p.txn.isEnded = false) {a : Action}
    (ha : a.txn? = some i) :
    (∃ p', (u.withTxn i p).step a = u.withTxn i p') ∨
      ∃ p', ((u.withTxn i p).step a).txns[i]? = some p' ∧ p'.txn.isEnded = true := by
  have hp : (u.withTxn i p).txns[i]? = some p := List.getElem?_set_self hi
  have hset (q : Participant) : ((u.withTxn i p).txns.set i q)[i]? = some q :=
    List.getElem?_set_self ((List.length_set ..).symm ▸ hi)
  cases a with
  | call j c =>
      cases ha
      simp only [step, hp]
      cases hends : p.txn.ends c with
      | false => exact .inl (call_of_not_ends hopen hends)
      | true =>
          refine .inr ⟨_, hset _, ?_⟩
          change ((p.txn.call u.zone c).2.1).isEnded = true
          rw [Transaction.txn_call_of_ends hends]
          rfl
  | drop j =>
      cases ha
      simp only [step, hp]
      exact .inr ⟨_, hset _, rfl⟩
  | _ => cases ha

/-- As long as a transaction is open, the others have done what they would have done without its
calls. -/
theorem run_withTxn (hi : i < u.txns.length) {actions : List Action} {q : Participant}
    (hq : ((u.withTxn i p).run actions).txns[i]? = some q) (hopen : q.txn.isEnded = false) :
    ∃ p', (u.withTxn i p).run actions = (u.run (Action.others i actions)).withTxn i p' := by
  -- actions of others do not see how the transaction stands, its own change nothing else
  induction actions generalizing u p with
  | nil => exact ⟨p, rfl⟩
  | cons a rest ih =>
      have hstays {v : Usage} {p' : Participant} {later : List Action}
          (hp' : v.txns[i]? = some p') (hlater : (v.run later).txns[i]? = some q) :
          p'.txn.isEnded = false := by
        refine Bool.eq_false_iff.mpr fun hended => ?_
        obtain ⟨q', hq', hended'⟩ := ended_run hp' hended later
        cases hlater.symm.trans hq'
        rw [hopen] at hended'
        cases hended'
      by_cases ha : a.txn? = some i
      · have hskip : Action.others i (a :: rest) = Action.others i rest :=
          List.filter_cons_of_neg (by simp [ha])
        have hp : p.txn.isEnded = false := hstays (List.getElem?_set_self hi) hq
        rw [hskip]
        rcases step_own hi hp ha with ⟨p', hp'⟩ | ⟨p', hp', hended⟩
        · change (((u.withTxn i p).step a).run rest).txns[i]? = some q at hq
          change ∃ p'', ((u.withTxn i p).step a).run rest = _
          rw [hp'] at hq ⊢
          exact ih hi hq
        · have hopen' : p'.txn.isEnded = false := hstays hp' hq
          rw [hended] at hopen'
          cases hopen'
      · have hkeep : Action.others i (a :: rest) = a :: Action.others i rest :=
          List.filter_cons_of_pos (by simpa using ha)
        have hstep := step_withTxn hi p ha
        change (((u.withTxn i p).step a).run rest).txns[i]? = some q at hq
        change ∃ p'', ((u.withTxn i p).step a).run rest = _
        rw [hkeep]
        rw [hstep] at hq ⊢
        exact ih (Nat.lt_of_lt_of_le hi (length_le_effect (effect_step u a))) hq

end Usage

/-! ### Versioned zones -/

/-- The zone `z'` is as `z`, except that the writer that had access has given it back: nobody has
it, and if writers wait it is handed to the one that has waited longest. -/
structure VersionedZone.OnlyReleased (z z' : VersionedZone) : Prop where
  chain : z'.chain = z.chain
  origin : z'.origin = z.origin
  policy : z'.policy = z.policy
  readers : z'.readers = z.readers
  inactive : z'.admission.active = false
  free : z.admission.waiting = [] → z'.admission.isFree = true
  handed : ∀ id rest, z.admission.waiting = id :: rest →
    z'.admission.handedTo = some id ∧ z'.admission.waiting = rest

theorem VersionedZone.onlyReleased_release {z : VersionedZone} (h : z.admission.handedTo = none) :
    z.OnlyReleased z.release := by
  refine ⟨rfl, rfl, rfl, rfl, ?_, fun hwaiting => ?_, fun id rest hwaiting => ?_⟩
  · change z.admission.release.active = false
    rw [Admission.release]
    cases z.admission.waiting <;> rfl
  · change z.admission.release.isFree = true
    rw [Admission.release, hwaiting, Admission.isFree_iff]
    exact ⟨rfl, h, rfl⟩
  · change z.admission.release.handedTo = some id ∧ z.admission.release.waiting = rest
    rw [Admission.release, hwaiting]
    exact ⟨rfl, rfl⟩

namespace Usage

/-- A writer that picks up the latest version, and is abandoned after it and others have used the
zone in the meantime, leaves the zone as the others alone would have left it, but for giving write
access back. -/
structure ForgetsWriter (u : Usage) (replacement : Bool) (meanwhile : List Action) : Prop where
  start : (u.step (.begin replacement)).zone = u.zone
  ends : u.granted ≠ 0 → ∀ p z',
    ((u.step (.begin replacement)).run meanwhile).txns[u.txns.length]? = some p →
      p.writes = true → p.txn.Abandons ((u.step (.begin replacement)).run meanwhile).zone z' →
        ((u.step (.begin replacement)).run
          (Action.others u.txns.length meanwhile)).zone.OnlyReleased z'

variable {u : Usage}

/-- An open writer that is abandoned gives write access back and does nothing else. -/
theorem Writers.onlyReleased (h : u.Writers) {p : Participant} (hp : p ∈ u.txns)
    (hwrites : p.writes = true) {z' : VersionedZone} (habandons : p.txn.Abandons u.zone z') :
    u.zone.OnlyReleased z' := by
  have hmode : Access.mode p.txn.access = .writing := of_decide_eq_true hwrites
  obtain ⟨d, hd⟩ := VersionedZone.exists_draft hmode
  have hclose (commit : Bool) := VersionedZone.close_of_writing h.alive hd commit
  have hopen : p.txn.isEnded = false := by
    rw [Transaction.isEnded, hmode]
    rfl
  have hz' := habandons.eq_close hopen (by rw [hclose])
  rw [hclose] at hz'
  -- the writer is counted among those that hold access, so access is in use
  have hholders : 0 < u.holders :=
    Nat.lt_of_lt_of_le (List.countP_pos_iff.mpr ⟨p, hp, hwrites⟩) (Nat.le_add_left _ _)
  have hactive : u.zone.admission.active = true := by
    rw [h.sound.holders_eq] at hholders
    cases hactive : u.zone.admission.active with
    | true => rfl
    | false =>
        rw [hactive] at hholders
        exact absurd hholders (Nat.lt_irrefl 0)
  rw [hz']
  exact VersionedZone.onlyReleased_release (h.sound.handedTo_eq hactive)

theorem Writers.forgetsWriter (h : u.Writers) (replacement : Bool) (meanwhile : List Action) :
    u.ForgetsWriter replacement meanwhile := by
  constructor
  · rw [step]
    split <;> rfl
  · intro hgranted p z' hp hwrites habandons
    have hbegin : u.step (.begin replacement) =
        { u with
          granted := u.granted - 1
          txns := u.txns ++ [⟨.writer replacement, [], u.zone.startWriter replacement⟩] } := by
      rw [step, if_neg hgranted]
    have hwriters : ((u.step (.begin replacement)).run meanwhile).Writers :=
      run_induction (fun heffect h => h.effect heffect) (h.effect (effect_step u _)) meanwhile
    have honly := hwriters.onlyReleased (List.mem_of_getElem? hp) hwrites habandons
    have hi : u.txns.length < (u.step (.begin replacement)).txns.length := by
      rw [hbegin, List.length_append]
      exact Nat.lt_succ_self _
    have hself : (u.step (.begin replacement)).withTxn u.txns.length
        ⟨.writer replacement, [], u.zone.startWriter replacement⟩ =
          u.step (.begin replacement) := by
      rw [hbegin]
      simp [withTxn]
    have hopen : p.txn.isEnded = false := by
      rw [Transaction.isEnded, of_decide_eq_true hwrites]
      rfl
    -- the writer is open after the others, so these have done what they do without it
    rw [← hself] at hp
    obtain ⟨p', hp'⟩ := run_withTxn hi hp hopen
    rw [hself] at hp'
    rw [hp'] at honly
    exact honly

end Usage

/-- An abandoned writer leaves no trace: on a versioned zone but for what others did in the
meantime, whatever had been done to it before, and on a plain zone none at all. -/
theorem abandoned_writers_leave_no_trace :
    (∀ (config : ZoneConfig) (before : List Action) (replacement : Bool)
      (meanwhile : List Action),
        (config.usage before).ForgetsWriter replacement meanwhile) ∧
      ∀ z : PlainZone, z.ForgetsWriters :=
  ⟨fun config before replacement meanwhile =>
    (config.writers_usage before).forgetsWriter replacement meanwhile, PlainZone.forgetsWriters⟩

end DnsZone
