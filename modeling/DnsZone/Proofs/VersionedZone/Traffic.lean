import DnsZone.Proofs.Traffic
import DnsZone.Proofs.VersionedZone.Invariant
import DnsZone.Proofs.VersionedZone.Storage

/-!
# Transfers to versioned zones

An updater of a versioned zone is started when write access was granted. What it does through its
transactions, a user of the zone could do as well. So the traffic `Resembles` the zone in use by
transactions only: the zone is the same, and the same transactions are open. Whatever the
transactions of users cannot do to a zone, updaters cannot do either.
-/

namespace DnsZone

open VersionedZone (Txn)

instance : Crowd Usage VersionedZone VersionedAccess Action where
  zone u := u.zone
  txns u := u.txns.map Participant.txn
  act u a := u.step a
  Admits A u a := u.Admits A a
  enlist? u :=
    if u.granted = 0 then none
    else some (u.zone.startWriter false, { u with granted := u.granted - 1 })
  leave z u := { u with zone := z, history := u.historyWith z }
  zone_leave _ _ := rfl
  txns_leave _ _ := rfl
  admits_of_forall hA u a := by cases a <;> simp [Usage.Admits, Transaction.Admits, hA]

/-- A new versioned zone that nobody has used yet. -/
def ZoneConfig.unusedVersioned (config : ZoneConfig) : Traffic Usage VersionedAccess :=
  ⟨config.unused, []⟩

/-- A new versioned zone after some events. -/
def ZoneConfig.traffic (config : ZoneConfig) (events : List (Traffic.Event Action)) :
    Traffic Usage VersionedAccess := config.unusedVersioned.run events

/-! ### Open transactions -/

namespace Transaction

variable {τ : Type} [Access τ]

/-- The transactions among some that have not ended. -/
def stillOpen (ts : List (Transaction τ)) : List (Transaction τ) :=
  ts.filter fun t => !t.isEnded

/-- The same transactions stay open if in two lists an open one is replaced by others of which the
same are open. -/
theorem perm_stillOpen {a : Transaction τ} (ha : a.isEnded = false)
    {bs cs l l' m m' : List (Transaction τ)} (hl : (a :: l').Perm (bs ++ l))
    (hm : (a :: m').Perm (cs ++ m)) (hbs : (stillOpen bs).Perm (stillOpen cs))
    (h : (stillOpen l).Perm (stillOpen m)) : (stillOpen l').Perm (stillOpen m') := by
  have hopen {xs ys k : List (Transaction τ)} (hperm : (a :: xs).Perm (ys ++ k)) :
      (a :: stillOpen xs).Perm (stillOpen ys ++ stillOpen k) := by
    have hfilter := hperm.filter fun t => !t.isEnded
    rwa [List.filter_cons_of_pos (by simp [ha]), List.filter_append] at hfilter
  exact (((hopen hl).trans (hbs.append h)).trans (hopen hm).symm).cons_inv

end Transaction

namespace Usage

/-! ### Calls made one after another -/

theorem run_append (u : Usage) (actions later : List Action) :
    u.run (actions ++ later) = (u.run actions).run later := List.foldl_append

/-- What calls on one transaction leave. -/
structure AfterCalls (u : Usage) (j : Nat) (t : Txn) (z : VersionedZone) (u' : Usage) : Prop where
  zone : u'.zone = z
  granted : u'.granted = u.granted
  queuers : u'.queuers = u.queuers
  txns : ∃ p, u'.txns = u.txns.set j p ∧ p.txn = t

theorem afterCalls_run {u : Usage} {j : Nat} {p : Participant} (hp : u.txns[j]? = some p)
    (calls : List Call) :
    u.AfterCalls j (p.txn.exchange u.zone calls).2.1 (p.txn.exchange u.zone calls).2.2
      (u.run (calls.map (.call j))) := by
  have hj : j < u.txns.length := (List.getElem?_eq_some_iff.mp hp).1
  induction calls generalizing u p with
  | nil =>
      refine ⟨rfl, rfl, rfl, p, ?_, rfl⟩
      rw [← (List.getElem?_eq_some_iff.mp hp).2, List.set_getElem_self]
      rfl
  | cons c rest ih =>
      have hstep : u.step (.call j c) = u.call j p c := by
        rw [Usage.step, hp]
      have hp' : (u.call j p c).txns[j]? = some
          { p with calls := p.calls ++ [c], txn := (p.txn.call u.zone c).2.1 } :=
        List.getElem?_set_self hj
      have hrest := ih hp' ((List.length_set ..).symm ▸ hj)
      obtain ⟨q, hq, htxn⟩ := hrest.txns
      change AfterCalls u j _ _ ((u.step (.call j c)).run (rest.map (.call j)))
      rw [hstep]
      refine ⟨hrest.zone, hrest.granted, hrest.queuers, q, hq.trans ?_, htxn⟩
      exact List.set_set ..

/-- Actions that make only calls of a transfer make edits that are admitted if the origin is left
alone. -/
theorem admitsAll_of_ofTransfer {A : Txn → Edit → Prop}
    (hA : ∀ t e, (∀ origin, e ≠ .setOrigin origin) → A t e) (u : Usage) {actions : List Action}
    (h : ∀ a ∈ actions, ∀ i c, a = .call i c → c.OfTransfer) : u.AdmitsAll A actions := by
  induction actions generalizing u with
  | nil => trivial
  | cons a rest ih =>
      refine ⟨?_, ih _ fun a' ha' => h a' (List.mem_cons_of_mem a ha')⟩
      cases a with
      | call i c =>
          intro p _ e he
          rcases h _ List.mem_cons_self i c rfl with hc | ⟨e', hc, hne⟩
          · rw [hc] at he
            cases he
          · rw [hc] at he
            cases he
            exact hA p.txn _ hne
      | _ => trivial

theorem admitsAll_append {A : Txn → Edit → Prop} {u : Usage} {actions later : List Action}
    (h : u.AdmitsAll A actions) (hlater : (u.run actions).AdmitsAll A later) :
    u.AdmitsAll A (actions ++ later) := by
  induction actions generalizing u with
  | nil => exact hlater
  | cons a rest ih => exact ⟨h.1, ih h.2 hlater⟩

end Usage

namespace Traffic

open Transaction (stillOpen)

/-! ### Traffic and transactions -/

/-- The zone is as it is in the use `s`, and the same transactions are open. -/
structure Resembles (t : Traffic Usage VersionedAccess) (s : Usage) : Prop where
  zone : s.zone = t.users.zone
  granted : s.granted = t.users.granted
  callers : s.queuers.callers = t.users.queuers.callers
  txns : (stillOpen (s.txns.map Participant.txn)).Perm (stillOpen t.txns)

namespace Resembles

variable {t : Traffic Usage VersionedAccess} {s : Usage}

/-- An open transaction of the traffic is one of the users of the zone. -/
theorem exists_participant (h : t.Resembles s) {w : Txn} (hw : w ∈ t.txns)
    (hopen : w.isEnded = false) :
    ∃ (j : Nat) (p : Participant), s.txns[j]? = some p ∧ p.txn = w := by
  have hmem : w ∈ stillOpen t.txns := List.mem_filter.mpr ⟨hw, by simp [hopen]⟩
  obtain ⟨p, hp, hpw⟩ := List.mem_map.mp (List.mem_filter.mp (h.txns.mem_iff.mpr hmem)).1
  obtain ⟨j, hj⟩ := List.mem_iff_getElem?.mp hp
  exact ⟨j, p, hj, hpw⟩

/-- Transactions that are replaced by ended ones, or join, in both. -/
theorem perm_set (h : t.Resembles s) {j : Nat} {p p' : Participant} (hp : s.txns[j]? = some p)
    (hopen : p.txn.isEnded = false) {bs : List Txn} {txns : List Txn}
    (hm : (p.txn :: txns).Perm (bs ++ t.txns)) (more : List Participant)
    (hbs : (stillOpen (p'.txn :: more.map Participant.txn)).Perm (stillOpen bs)) :
    (stillOpen ((s.txns.set j p' ++ more).map Participant.txn)).Perm (stillOpen txns) := by
  have hset : (p.txn :: ((s.txns.set j p' ++ more).map Participant.txn)).Perm
      ((p'.txn :: more.map Participant.txn) ++ s.txns.map Participant.txn) := by
    have hperm := ((perm_cons_set hp p').map Participant.txn).append_right
      (more.map Participant.txn)
    rw [List.map_append]
    exact hperm.trans (List.Perm.cons p'.txn List.perm_append_comm)
  exact Transaction.perm_stillOpen hopen hset hm hbs h.txns

/-- What an updater does through its writer can be done by a user of the zone. -/
theorem conduct (h : t.Resembles s) {k : Nat} {u u' : Updater VersionedAccess}
    (hu : t.updaters[k]? = some u) {w : Txn} (hw : u.writer? = some w)
    (hopen : w.isEnded = false) {z : VersionedZone}
    (hconduct : Updater.Conduct t.users.zone w u'.writer? z) :
    ∃ actions, (∀ a ∈ actions, ∀ i c, a = .call i c → c.OfTransfer) ∧
      (t.leave z (t.updaters.set k u')).Resembles (s.run actions) := by
  have hmem : w ∈ t.txns := Traffic.mem_txns_of_updater hu hw
  obtain ⟨j, p, hp, rfl⟩ := h.exists_participant hmem hopen
  have hj : j < s.txns.length := (List.getElem?_eq_some_iff.mp hp).1
  have hm := Traffic.perm_append_txns_set hu (Crowd.txns_leave z t.users) u'
  rw [hw] at hm
  have hcall {calls : List Call} (hcalls : ∀ c ∈ calls, c.OfTransfer) :
      ∀ a ∈ calls.map (Action.call j), ∀ i c, a = .call i c → c.OfTransfer := by
    intro a ha i c hac
    obtain ⟨c', hc', rfl⟩ := List.mem_map.mp ha
    cases hac
    exact hcalls c hc'
  have hcalls_run (calls : List Call) := Usage.afterCalls_run hp calls
  rw [h.zone] at hcalls_run
  generalize hw' : u'.writer? = w?' at hconduct hm
  cases hconduct with
  | @goesOn calls hcalls =>
      have hrun := hcalls_run calls
      obtain ⟨q, hq, htxn⟩ := hrun.txns
      refine ⟨calls.map (.call j), hcall hcalls, hrun.zone, hrun.granted.trans h.granted, ?_, ?_⟩
      · rw [hrun.queuers]
        exact h.callers
      · rw [hq, ← List.append_nil (s.txns.set j q)]
        refine h.perm_set hp hopen hm [] ?_
        rw [htxn]
        exact .refl _
  | @stops calls hcalls =>
      have hrun := hcalls_run calls
      obtain ⟨q, hq, htxn⟩ := hrun.txns
      have hq' : (s.run (calls.map (.call j))).txns[j]? = some q := by
        rw [hq]
        exact List.getElem?_set_self hj
      have hdrop : s.run (calls.map (.call j) ++ [.drop j]) =
          (s.run (calls.map (.call j))).drop j q := by
        rw [Usage.run_append]
        change (s.run (calls.map (.call j))).step (.drop j) = _
        rw [Usage.step, hq']
      refine ⟨calls.map (.call j) ++ [.drop j], ?_, ?_⟩
      · intro a ha i c hac
        rcases List.mem_append.mp ha with ha | ha
        · exact hcall hcalls a ha i c hac
        · rw [List.mem_singleton.mp ha] at hac
          cases hac
      · rw [hdrop]
        refine ⟨?_, hrun.granted.trans h.granted, ?_, ?_⟩
        · change q.txn.drop (s.run (calls.map (.call j))).zone = _
          rw [htxn, hrun.zone]
          rfl
        · change (s.run (calls.map (.call j))).queuers.callers = _
          rw [hrun.queuers]
          exact h.callers
        · change (stillOpen (((s.run (calls.map (.call j))).txns.set j _).map _)).Perm _
          rw [hq, List.set_set, ← List.append_nil (s.txns.set j _)]
          exact h.perm_set hp hopen hm [] (.refl _)
  | @restarts calls w' _ hcalls hended hnext =>
      have hrun := hcalls_run calls
      obtain ⟨q, hq, htxn⟩ := hrun.txns
      rw [VersionedZone.writer?_eq] at hnext
      obtain ⟨a, ha, heq⟩ := Option.map_eq_some_iff.mp hnext
      cases heq
      have hstart : (s.run (calls.map (.call j))).run [.seize, .begin false] =
          { s.run (calls.map (.call j)) with
            zone := { (s.run (calls.map (.call j))).zone with admission := a }
            granted := (s.run (calls.map (.call j))).granted
            queuers := (s.run (calls.map (.call j))).queuers.arrive none
            txns := (s.run (calls.map (.call j))).txns ++ [⟨.writer false, [],
              (s.run (calls.map (.call j))).zone.startWriter false⟩] } := by
        change ((s.run (calls.map (.call j))).step .seize).step (.begin false) = _
        rw [Usage.step.eq_def _ .seize]
        simp only [hrun.zone, ha]
        rfl
      refine ⟨calls.map (.call j) ++ [.seize, .begin false], ?_, ?_⟩
      · intro a ha i c hac
        rcases List.mem_append.mp ha with ha | ha
        · exact hcall hcalls a ha i c hac
        · simp only [List.mem_cons, List.not_mem_nil, or_false] at ha
          rcases ha with rfl | rfl <;> cases hac
      · rw [Usage.run_append, hstart]
        refine ⟨?_, hrun.granted.trans h.granted, ?_, ?_⟩
        · rw [hrun.zone]
          rfl
        · change (s.run (calls.map (.call j))).queuers.callers = _
          rw [hrun.queuers]
          exact h.callers
        · change (stillOpen (((s.run (calls.map (.call j))).txns ++ _).map _)).Perm _
          rw [hq, hrun.zone]
          refine h.perm_set hp hopen hm _ ?_
          have hqended : q.txn.isEnded = true := by
            rw [htxn]
            exact hended
          rw [stillOpen, List.filter_cons_of_neg (by simp [hqended])]
          exact .refl _

/-- A transaction is started in both. -/
theorem perm_join (h : t.Resembles s) (p : Participant) {txns : List Txn}
    (hm : (stillOpen txns).Perm (stillOpen (p.txn :: t.txns))) :
    (stillOpen ((s.txns ++ [p]).map Participant.txn)).Perm (stillOpen txns) := by
  have hjoin : (stillOpen (s.txns.map Participant.txn ++ [p.txn])).Perm
      (stillOpen (p.txn :: t.txns)) := by
    rw [stillOpen, List.filter_append]
    refine (h.txns.append_right _).trans (List.perm_append_comm.trans ?_)
    rw [stillOpen, ← List.filter_append]
    exact .refl _
  rw [List.map_append]
  exact hjoin.trans hm.symm

/-- Nobody but an updater without an open writer stands otherwise. -/
theorem setIdle (h : t.Resembles s) {k : Nat} {u : Updater VersionedAccess}
    (hu : t.updaters[k]? = some u) (hidle : ∀ w ∈ u.writer?, w.isEnded = true)
    {u' : Updater VersionedAccess} (hu' : u'.writer? = none) :
    (t.leave t.users.zone (t.updaters.set k u')).Resembles s where
  zone := h.zone
  granted := h.granted
  callers := h.callers
  txns := by
    have hset := Traffic.perm_append_txns_set hu (Crowd.txns_leave t.users.zone t.users) u'
    have hm := hset.filter fun w => !w.isEnded
    have hnone : (u.writer?.toList.filter fun w => !w.isEnded) = [] :=
      List.filter_eq_nil_iff.mpr fun w hw => by simp [hidle w (Option.mem_toList.mp hw)]
    rw [hu', List.filter_append, hnone, List.nil_append, Option.toList_none, List.nil_append] at hm
    exact h.txns.trans hm.symm

/-- A transaction of a user is started in both. -/
theorem joinUser (h : t.Resembles s) (p : Participant) (z : VersionedZone) (granted : Nat) :
    Resembles
      { t with
        users := { t.users with zone := z, granted := granted, txns := t.users.txns ++ [p] } }
      { s with zone := z, granted := granted, txns := s.txns ++ [p] } where
  zone := rfl
  granted := rfl
  callers := h.callers
  txns := by
    refine h.perm_join p (List.Perm.filter _ ?_)
    change (((t.users.txns ++ [p]).map Participant.txn) ++ _).Perm (p.txn :: t.txns)
    rw [List.map_append]
    exact List.perm_append_comm.append_right _

/-- What is done on no transaction has the same effect on both. -/
theorem quiet (h : t.Resembles s) {a : Action} (ha : a.txn? = none) :
    Resembles { t with users := t.users.step a } (s.step a) := by
  have hjoin (p : Participant) (z : VersionedZone) (granted : Nat) :=
    h.joinUser p z granted
  obtain ⟨hzone, hgranted, hcallers, htxns⟩ := h
  cases a with
  | ask =>
      rw [Usage.step, Usage.step, hzone]
      rcases t.users.zone.enqueue with ⟨_ | id, z⟩
      · exact ⟨rfl, congrArg (· + 1) hgranted, hcallers, htxns⟩
      · exact ⟨rfl, hgranted, congrArg (· ++ [id]) hcallers, htxns⟩
  | seize =>
      rw [Usage.step, Usage.step, hzone]
      cases t.users.zone.admission.seize? with
      | none => exact ⟨hzone, hgranted, hcallers, htxns⟩
      | some a => exact ⟨rfl, congrArg (· + 1) hgranted, hcallers, htxns⟩
  | wake id =>
      rw [Usage.step, Usage.step, hzone, hcallers]
      cases (if id ∈ t.users.queuers.callers then t.users.zone.take? id else none) with
      | none => exact ⟨hzone, hgranted, hcallers, htxns⟩
      | some z =>
          exact ⟨rfl, congrArg (· + 1) hgranted, congrArg (List.filter (· != id)) hcallers, htxns⟩
  | expire id =>
      rw [Usage.step, Usage.step, hzone, hcallers]
      split
      · rcases t.users.zone.abandon id with ⟨_ | _, z⟩
        · exact ⟨rfl, hgranted, congrArg (List.filter (· != id)) hcallers, htxns⟩
        · exact ⟨rfl, congrArg (· + 1) hgranted, congrArg (List.filter (· != id)) hcallers, htxns⟩
      · exact ⟨hzone, hgranted, hcallers, htxns⟩
  | begin replacement =>
      rw [Usage.step, Usage.step, hzone, hgranted]
      split
      · exact ⟨hzone, hgranted, hcallers, htxns⟩
      · exact hjoin _ _ _
  | read query? =>
      rw [Usage.step, Usage.step, hzone]
      rcases Transaction.reader query? t.users.zone with fault | ⟨w, z⟩
      · exact ⟨hzone, hgranted, hcallers, htxns⟩
      · exact hgranted ▸ hjoin _ _ _
  | setPolicy policy =>
      rw [Usage.step, Usage.step, hzone]
      cases t.users.zone.setPolicy policy with
      | error _ => exact ⟨hzone, hgranted, hcallers, htxns⟩
      | ok z => exact ⟨rfl, hgranted, hcallers, htxns⟩
  | call i c => cases ha
  | drop i => cases ha

/-- The transaction of a user goes on or ends in both. -/
theorem setUser (h : t.Resembles s) {i j : Nat} {p q : Participant}
    (hp : t.users.txns[i]? = some p) (hq : s.txns[j]? = some q) (hqp : q.txn = p.txn)
    (hopen : p.txn.isEnded = false) {p' q' : Participant} (hqp' : q'.txn = p'.txn)
    (z : VersionedZone) (committed committed' : List Script) (history history' : List Version) :
    Resembles
      { t with
        users := { t.users with
          zone := z
          txns := t.users.txns.set i p'
          committed := committed
          history := history } }
      { s with
        zone := z
        txns := s.txns.set j q'
        committed := committed'
        history := history' } where
  zone := rfl
  granted := h.granted
  callers := h.callers
  txns := by
    have hm := ((perm_cons_set hp p').map Participant.txn).append_right
      (t.updaters.filterMap Updater.writer?)
    rw [List.map_cons, List.map_cons, ← hqp] at hm
    change (stillOpen ((s.txns.set j q').map Participant.txn)).Perm _
    have hbs : (stillOpen [q'.txn]).Perm (stillOpen [p'.txn]) := by rw [hqp']
    rw [← List.append_nil (s.txns.set j q')]
    refine h.perm_set hq (hqp ▸ hopen) ?_ [] hbs
    exact hm

/-- The transaction of a user that has ended does not matter. -/
theorem setEnded (h : t.Resembles s) {i : Nat} {p p' : Participant}
    (hp : t.users.txns[i]? = some p) (hended : p.txn.isEnded = true)
    (hended' : p'.txn.isEnded = true) (committed : List Script) (history : List Version) :
    Resembles
      { t with
        users := { t.users with
          txns := t.users.txns.set i p'
          committed := committed
          history := history } } s where
  zone := h.zone
  granted := h.granted
  callers := h.callers
  txns := by
    have hm := (((perm_cons_set hp p').map Participant.txn).append_right
      (t.updaters.filterMap Updater.writer?)).filter fun w => !w.isEnded
    rw [List.map_cons, List.map_cons, List.cons_append, List.cons_append,
      List.filter_cons_of_neg (by simp [hended]), List.filter_cons_of_neg (by simp [hended'])] at hm
    exact h.txns.trans hm.symm

/-- A call or a drop of a user can be made in both. -/
theorem onUser (h : t.Resembles s) (a : Action) :
    ∃ actions, (∀ A : Txn → Edit → Prop, t.users.Admits A a → s.AdmitsAll A actions) ∧
      Resembles { t with users := t.users.step a } (s.run actions) := by
  have hpartner {i : Nat} {p : Participant} (hp : t.users.txns[i]? = some p)
      (hopen : p.txn.isEnded = false) :=
    h.exists_participant (List.mem_append_left _
      (List.mem_map.mpr ⟨p, List.mem_of_getElem? hp, rfl⟩)) hopen
  cases ha : a.txn? with
  | none =>
      refine ⟨[a], fun A hA => ⟨?_, trivial⟩, h.quiet ha⟩
      cases a with
      | call i c => cases ha
      | _ => trivial
  | some i =>
      cases hp : t.users.txns[i]? with
      | none =>
          refine ⟨[], fun _ _ => trivial, ?_⟩
          cases a with
          | call i' c =>
              cases ha
              rw [Usage.step, hp]
              exact h
          | drop i' =>
              cases ha
              rw [Usage.step, hp]
              exact h
          | _ => cases ha
      | some p =>
          cases hended : p.txn.isEnded with
          | true =>
              refine ⟨[], fun _ _ => trivial, ?_⟩
              cases a with
              | call i' c =>
                  cases ha
                  have hends : p.txn.ends c = false := by
                    cases c <;> simp [Transaction.ends, hended]
                  have hzone := (Transaction.call_of_not_ends (z := t.users.zone) hends).1
                  rw [Usage.step, hp]
                  change Resembles { t with users := t.users.call i p c } s
                  rw [Usage.call, hzone]
                  exact h.setEnded hp hended (Transaction.isEnded_exchange hended [c]) _ _
              | drop i' =>
                  cases ha
                  rw [Usage.step, hp]
                  change Resembles { t with users := t.users.drop i p } s
                  rw [Usage.drop, Transaction.drop_of_isEnded hended]
                  exact h.setEnded hp hended rfl _ _
              | _ => cases ha
          | false =>
              obtain ⟨j, q, hq, hqp⟩ := hpartner hp hended
              cases a with
              | call i' c =>
                  cases ha
                  refine ⟨[.call j c], fun A hA => ⟨fun q' hq' => ?_, trivial⟩, ?_⟩
                  · cases hq.symm.trans hq'
                    rw [hqp]
                    exact hA p hp
                  · change Resembles { t with users := t.users.step (.call i c) }
                      (s.step (.call j c))
                    rw [Usage.step, Usage.step, hp, hq]
                    change Resembles { t with users := t.users.call i p c } (s.call j q c)
                    rw [Usage.call, Usage.call, h.zone, hqp]
                    refine h.setUser hp hq hqp hended ?_ _ _ _ _ _
                    rfl
              | drop i' =>
                  cases ha
                  refine ⟨[.drop j], fun A hA => ⟨trivial, trivial⟩, ?_⟩
                  change Resembles { t with users := t.users.step (.drop i) } (s.step (.drop j))
                  rw [Usage.step, Usage.step, hp, hq]
                  change Resembles { t with users := t.users.drop i p } (s.drop j q)
                  rw [Usage.drop, Usage.drop, h.zone, hqp]
                  refine h.setUser hp hq hqp hended ?_ _ _ _ _ _
                  rfl
              | _ => cases ha

theorem enlist?_eq_some {users users' : Usage} {w : Txn}
    (h : Crowd.enlist? users = some (w, users')) :
    users.granted ≠ 0 ∧ (w, users') =
      (users.zone.startWriter false, { users with granted := users.granted - 1 }) := by
  change (if users.granted = 0 then none else _) = _ at h
  split at h
  · cases h
  · exact ⟨‹_›, (Option.some.inj h).symm⟩

/-- A writer is started in both. -/
theorem begins (h : t.Resembles s) (hgranted : t.users.granted ≠ 0)
    {updaters : List (Updater VersionedAccess)}
    (hm : (stillOpen (Traffic.txns ⟨t.users, updaters⟩)).Perm
      (stillOpen (t.users.zone.startWriter false :: t.txns))) :
    Resembles ⟨{ t.users with granted := t.users.granted - 1 }, updaters⟩
      (s.step (.begin false)) := by
  rw [Usage.step, h.granted, if_neg hgranted, h.zone]
  exact ⟨rfl, rfl, h.callers, h.perm_join _ hm⟩

/-- An updater that has waited goes on. -/
theorem resume (h : t.Resembles s) {k : Nat} {u : Updater VersionedAccess}
    (hu : t.updaters[k]? = some u) (hwaits : u.isWaiting = true) (hgranted : t.users.granted ≠ 0) :
    Resembles
      { users := { t.users with granted := t.users.granted - 1 }
        updaters := t.updaters.set k ⟨some (t.users.zone.startWriter false), true⟩ }
      (s.step (.begin false)) := by
  obtain ⟨w, hw, hended⟩ := (Option.any_eq_true ..).mp hwaits
  refine h.begins hgranted ?_
  have hset := Traffic.perm_append_txns_set hu rfl ⟨some (t.users.zone.startWriter false), true⟩
  rw [hw] at hset
  -- the writer of the batch before does not count
  have hm := hset.filter fun w => !w.isEnded
  rwa [Option.toList_some, List.singleton_append, List.filter_cons_of_neg (by simp [hended])] at hm

/-- Whatever happens, the users of the zone could have done the same. -/
theorem step (h : t.Resembles s) (e : Event Action) :
    ∃ actions, (∀ A : Txn → Edit → Prop, (∀ w e, (∀ origin, e ≠ .setOrigin origin) → A w e) →
        t.Admits A e → s.AdmitsAll A actions) ∧ (t.step e).Resembles (s.run actions) := by
  have heffect := t.effect_step rfl e
  generalize t.step e = t' at heffect ⊢
  cases heffect with
  | acts a =>
      obtain ⟨actions, hadmits, hnext⟩ := h.onUser a
      exact ⟨actions, fun A _ => hadmits A, hnext⟩
  | stays => exact ⟨[], fun _ _ _ => trivial, h⟩
  | starts henlist =>
      obtain ⟨hgranted, hstart⟩ := enlist?_eq_some henlist
      cases hstart
      refine ⟨[.begin false], fun _ _ _ => ⟨trivial, trivial⟩, h.begins hgranted ?_⟩
      refine List.Perm.filter _ ?_
      rw [Traffic.txns, List.filterMap_append, ← List.append_assoc]
      exact List.perm_append_comm
  | conducts hu hw hopen hconduct =>
      obtain ⟨actions, hcalls, hnext⟩ := h.conduct hu hw hopen hconduct
      exact ⟨actions, fun A hA _ => s.admitsAll_of_ofTransfer hA hcalls, hnext⟩
  | idles hu hidle hu' => exact ⟨[], fun _ _ _ => trivial, h.setIdle hu hidle hu'⟩
  | resumes hu hwaits henlist =>
      obtain ⟨hgranted, hstart⟩ := enlist?_eq_some henlist
      cases hstart
      exact ⟨[.begin false], fun _ _ _ => ⟨trivial, trivial⟩, h.resume hu hwaits hgranted⟩

end Resembles

/-- Whatever happens to a zone, its users could have done the same through transactions, with edits
that are admitted if those of the users are and an updater may leave the origin alone. -/
theorem Resembles.run {t : Traffic Usage VersionedAccess} {s : Usage} (h : t.Resembles s)
    (events : List (Event Action)) :
    ∃ actions, (∀ A : Txn → Edit → Prop, (∀ w e, (∀ origin, e ≠ .setOrigin origin) → A w e) →
        t.AdmitsAll A events → s.AdmitsAll A actions) ∧
      (t.run events).Resembles (s.run actions) := by
  induction events generalizing t s with
  | nil => exact ⟨[], fun _ _ _ => trivial, h⟩
  | cons e rest ih =>
      obtain ⟨actions, hadmits, hnext⟩ := h.step e
      obtain ⟨later, hlater, hlast⟩ := ih hnext
      refine ⟨actions ++ later, fun A hA hall => ?_, ?_⟩
      · exact Usage.admitsAll_append (hadmits A hA hall.1) (hlater A hA hall.2)
      · rw [Usage.run_append]
        exact hlast

end Traffic

/-- Whatever happens to a new zone to which transfers are applied, its users could have done the
same through transactions. -/
theorem ZoneConfig.exists_resembles_traffic (config : ZoneConfig)
    (events : List (Traffic.Event Action)) :
    ∃ actions, (∀ A : Txn → Edit → Prop, (∀ w e, (∀ origin, e ≠ .setOrigin origin) → A w e) →
        config.unusedVersioned.AdmitsAll A events → config.unused.AdmitsAll A actions) ∧
      (config.traffic events).Resembles (config.usage actions) :=
  Traffic.Resembles.run ⟨rfl, rfl, rfl, .refl _⟩ events

end DnsZone
