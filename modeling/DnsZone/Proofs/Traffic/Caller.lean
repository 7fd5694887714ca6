import DnsZone.Proofs.OpenWriter
import DnsZone.Proofs.Transaction.LifeCycle

/-!
# One transaction in the traffic

Whoever has started a transaction makes calls on it, and in between others do what they like. A
writer does not notice: of a zone that keeps versions it has a draft of its own, and from a plain
zone its lock keeps all others away. So what its own calls keep holds of a writer in whatever
traffic, as long as it is open.
-/

namespace DnsZone

/-- The call that is made, and the number of the transaction on which it is made. -/
def Action.call? : Action → Option (Nat × Call)
  | .call i c => some (i, c)
  | _ => none

/-- The call that is made, and the number of the transaction on which it is made. -/
def PlainAction.call? : PlainAction → Option (Nat × Call)
  | .call i c => some (i, c)
  | _ => none

/-- The number of the transaction that an action is on. -/
def PlainAction.txn? : PlainAction → Option Nat
  | .call i _ => some i
  | .drop i => some i
  | _ => none

namespace Traffic

variable {υ ζ τ α : Type} [Access τ] [Host ζ τ] [Crowd υ ζ τ α]

/-! ### What a transaction meets -/

section

variable (call? : α → Option (Nat × Call)) (i : Nat)

/-- The call that is made on the transaction started as number `i`, if one is. -/
def callOn? : Event α → Option Call
  | .act a => (call? a).bind fun (j, c) => if j = i then some c else none
  | _ => none

/-- The calls that are made on the transaction started as number `i`. -/
def callsOn (events : List (Event α)) : List Call := events.filterMap (callOn? call? i)

end

/-- The transaction that a user has started as number `i`. -/
def txn? (i : Nat) (t : Traffic υ τ) : Option (Transaction τ) := (Crowd.txns t.users)[i]?

omit [Access τ] [Host ζ τ] in
theorem mem_txns {t : Traffic υ τ} {i : Nat} {w : Transaction τ} (hw : t.txn? i = some w) :
    w ∈ t.txns :=
  List.mem_append_left _ (List.mem_of_getElem? hw)

/-- In the course of the events the call `c` is made on the transaction started as number `i`, and
before that call the transaction is `w`. -/
def Receives (t : Traffic υ τ) (call? : α → Option (Nat × Call)) (i : Nat)
    (events : List (Event α)) (w : Transaction τ) (c : Call) : Prop :=
  ∃ before e after, events = before ++ e :: after ∧ (t.run before).txn? i = some w ∧
    callOn? call? i e = some c

theorem Receives.mem_callsOn {t : Traffic υ τ} {call? : α → Option (Nat × Call)} {i : Nat}
    {events : List (Event α)} {w : Transaction τ} {c : Call}
    (h : t.Receives call? i events w c) : c ∈ callsOn call? i events := by
  obtain ⟨before, e, after, rfl, -, hc⟩ := h
  exact List.mem_filterMap.mpr ⟨e, List.mem_append_right _ List.mem_cons_self, hc⟩

theorem Receives.append {t : Traffic υ τ} {call? : α → Option (Nat × Call)} {i : Nat}
    {events : List (Event α)} {w : Transaction τ} {c : Call}
    (h : t.Receives call? i events w c) (later : List (Event α)) :
    t.Receives call? i (events ++ later) w c := by
  obtain ⟨before, e, after, rfl, hw, hc⟩ := h
  exact ⟨before, e, after ++ later, List.append_assoc .., hw, hc⟩

/-- What can come to the transaction `w` that was started as number `i`: a call is made on it, or
others do something that a writer does not notice, or it ends. -/
inductive Meets (t : Traffic υ τ) (i : Nat) (w : Transaction τ) (t' : Traffic υ τ) :
    Option Call → Prop where
  | call (c : Call) (hw : t'.txn? i = some (w.call t.zone c).2.1)
      (hzone : t'.zone = (w.call t.zone c).2.2) : Meets t i w t' (some c)
  | others (hw : t'.txn? i = some w)
      (hzone : w.writes = true → Transaction.WritersSeeAlike t.zone t'.zone) : Meets t i w t' none
  | ends {w' : Transaction τ} (hw : t'.txn? i = some w')
      (hended : w'.isEnded = true) : Meets t i w t' none

/-- Nothing else than that comes to the transactions of users, whatever happens. -/
def MeetsAlways (call? : α → Option (Nat × Call)) (t : Traffic υ τ) : Prop :=
  ∀ events e i w, (t.run events).txn? i = some w →
    Meets (t.run events) i w ((t.run events).step e) (callOn? call? i e)

/-- What is kept by the calls on a writer that do not end it, and does not depend on what others do
that it does not notice, holds as long as the writer is open. -/
theorem MeetsAlways.writer_induction [LawfulAccess τ] {call? : α → Option (Nat × Call)}
    {t : Traffic υ τ} (hmeets : t.MeetsAlways call?) {i : Nat} {w : Transaction τ}
    (hw : t.txn? i = some w) (hwrites : w.writes = true) {P : ζ → Transaction τ → Prop}
    (h : P t.zone w)
    (hothers : ∀ z z' w, w.writes = true → Transaction.WritersSeeAlike z z' → P z w → P z' w)
    {later : List (Event α)}
    (hcall : ∀ w c, t.Receives call? i later w c →
      ∀ z, w.ends c = false → P z w → P z (w.call z c).2.1) :
    ∃ w', (t.run later).txn? i = some w' ∧
      (w'.isEnded = false → w'.writes = true ∧ P (t.run later).zone w') := by
  induction later using List.reverseRecOn with
  | nil => exact ⟨w, hw, fun _ => ⟨hwrites, h⟩⟩
  | append_singleton before e ih =>
      obtain ⟨w₁, hw₁, hbefore⟩ := ih fun w c hc => hcall w c (hc.append [e])
      have hlast : ∀ c, callOn? call? i e = some c → ∀ z, w₁.ends c = false → P z w₁ →
          P z (w₁.call z c).2.1 := fun c hc => hcall w₁ c ⟨before, e, [], rfl, hw₁, hc⟩
      have hmeets := hmeets before e i w₁ hw₁
      rw [run_append]
      change ∃ w', ((t.run before).step e).txn? i = some w' ∧ (_ → _ ∧
        P ((t.run before).step e).zone w')
      generalize callOn? call? i e = c? at hmeets hlast
      cases hmeets with
      | call c hw' hzone =>
          refine ⟨_, hw', fun hopen => ?_⟩
          rw [hzone]
          have hopen₁ : w₁.isEnded = false := by
            refine Bool.eq_false_iff.mpr fun hended => ?_
            exact Bool.eq_false_iff.mp hopen (Transaction.call_of_ended hended c).2
          have hends : w₁.ends c = false := by
            refine Bool.eq_false_iff.mpr fun hends => ?_
            exact Bool.eq_false_iff.mp hopen (Transaction.isEnded_call_of_ends hends)
          obtain ⟨hsame, hmode, -⟩ := Transaction.call_of_open (z := (t.run before).zone) hends
          obtain ⟨hwrites₁, h₁⟩ := hbefore hopen₁
          refine ⟨?_, ?_⟩
          · rw [Transaction.writes, hmode]
            exact hwrites₁
          · rw [hsame]
            exact hlast c rfl _ hends h₁
      | others hw' hzone =>
          refine ⟨w₁, hw', fun hopen => ?_⟩
          obtain ⟨hwrites₁, h₁⟩ := hbefore hopen
          exact ⟨hwrites₁, hothers _ _ w₁ hwrites₁ (hzone hwrites₁) h₁⟩
      | ends hw' hended =>
          refine ⟨_, hw', fun hopen => ?_⟩
          rw [hended] at hopen
          cases hopen

/-- What updaters do does not come to other transactions, unless it concerns what writers find. -/
theorem meets_of_updater [LawfulAccess τ] {t : Traffic υ τ} {i : Nat} {w : Transaction τ}
    (hw : t.txn? i = some w) {e : Event α} (he : ∀ a, e ≠ .act a)
    (henlist : ∀ {w' : Transaction τ} {users : υ}, Crowd.enlist? t.users = some (w', users) →
      Crowd.txns users = Crowd.txns t.users ∧
        (w.writes = true → Transaction.WritersSeeAlike t.zone (Crowd.zone users)))
    (hconduct : ∀ {u : Updater τ} {w' : Transaction τ} {w? : Option (Transaction τ)} {z : ζ},
      u ∈ t.updaters → u.writer? = some w' → Updater.Conduct t.zone w' w? z →
        w.writes = true → Transaction.WritersSeeAlike t.zone z) :
    Meets t i w (t.step e) none := by
  have heffect := t.effect_step LawfulAccess.mode_ended e
  have hleave {z : ζ} {updaters : List (Updater τ)} :
      (t.leave z updaters).txn? i = some w ∧ (t.leave z updaters).zone = z :=
    ⟨by rw [txn?, leave, Crowd.txns_leave]; exact hw, Crowd.zone_leave z t.users⟩
  have hkeeps {w' : Transaction τ} {users : υ} {updaters : List (Updater τ)}
      (h : Crowd.enlist? t.users = some (w', users)) :
      (Traffic.mk users updaters).txn? i = some w := by
    rw [txn?, (henlist h).1]
    exact hw
  generalize t.step e = t' at heffect ⊢
  cases heffect with
  | acts a => exact absurd rfl (he a)
  | stays => exact .others hw fun _ => .refl t.zone
  | starts h => exact .others (hkeeps h) (henlist h).2
  | resumes _ _ h => exact .others (hkeeps h) (henlist h).2
  | conducts hu hw' _ hc =>
      refine .others hleave.1 fun hwrites => ?_
      rw [hleave.2]
      exact hconduct (List.mem_of_getElem? hu) hw' hc hwrites
  | idles =>
      refine .others hleave.1 fun _ => ?_
      rw [hleave.2]
      exact .refl t.zone

end Traffic

/-! ### Zones that keep versions -/

namespace Usage

variable {u : Usage} {i : Nat} {p : Participant}

/-- An action that is not on a transaction leaves it as it is. -/
theorem getElem?_step (hp : u.txns[i]? = some p) {a : Action} (ha : a.txn? ≠ some i) :
    (u.step a).txns[i]? = some p := by
  have hset {j : Nat} (hj : some j ≠ some i) (q : Participant) :
      (u.txns.set j q)[i]? = some p :=
    (List.getElem?_set_ne fun h => hj (congrArg some h)).trans hp
  cases hnone : a.txn? with
  | none => exact (quiet_step u hnone).getElem?_txns hp
  | some j =>
      cases a with
      | call j c =>
          rw [step]
          split
          · exact hp
          · exact hset ha _
      | drop j =>
          rw [step]
          split
          · exact hp
          · exact hset ha _
      | _ => cases hnone

theorem txn?_eq_some (hp : u.txns[i]? = some p) (updaters : List (Updater VersionedAccess)) :
    (Traffic.mk u updaters).txn? i = some p.txn := by
  change (u.txns.map Participant.txn)[i]? = _
  rw [List.getElem?_map, hp]
  rfl

end Usage

namespace Traffic

theorem callOn?_of_versioned {i : Nat} {a : Action} (ha : a.txn? ≠ some i) :
    callOn? Action.call? i (.act a) = none := by
  cases a with
  | call j c => exact if_neg fun h => ha (congrArg some h)
  | _ => rfl

theorem meets_of_versioned (t : Traffic Usage VersionedAccess) {i : Nat}
    {w : Transaction VersionedAccess} (hw : t.txn? i = some w) (e : Event Action) :
    Meets t i w (t.step e) (callOn? Action.call? i e) := by
  obtain ⟨p, hp, rfl⟩ := Option.map_eq_some_iff.mp ((List.getElem?_map ..).symm.trans hw)
  have hset (q : Participant) : (t.users.txns.set i q)[i]? = some q :=
    List.getElem?_set_self (List.getElem?_eq_some_iff.mp hp).1
  cases e with
  | act a =>
      change Meets t i p.txn ⟨t.users.step a, t.updaters⟩ _
      by_cases ha : a.txn? = some i
      · cases a with
        | call j c =>
            cases ha
            have hcall : callOn? Action.call? i (.act (.call i c)) = some c := if_pos rfl
            rw [hcall, Usage.step, hp]
            exact .call c (Usage.txn?_eq_some (u := t.users.call i p c) (hset _) t.updaters) rfl
        | drop j =>
            cases ha
            rw [Usage.step, hp]
            exact .ends (Usage.txn?_eq_some (u := t.users.drop i p) (hset _) t.updaters) rfl
        | _ => cases ha
      · rw [callOn?_of_versioned ha]
        exact .others (Usage.txn?_eq_some (Usage.getElem?_step hp ha) t.updaters)
          fun _ => VersionedZone.writersSeeAlike _ _
  | _ =>
      refine meets_of_updater hw (fun _ h => by cases h) (fun h => ?_)
        fun _ _ _ _ => VersionedZone.writersSeeAlike _ _
      change (if t.users.granted = 0 then none else some _) = _ at h
      split at h
      · cases h
      · cases h
        exact ⟨rfl, fun _ => VersionedZone.writersSeeAlike _ _⟩

end Traffic

/-! ### Plain zones -/

namespace PlainZone

theorem zone_exchange_of_not_writes {t : Transaction PlainAccess} (ht : t.writes = false)
    (z : PlainZone) (calls : List Call) :
    (t.exchange z calls).2.2 = z ∧ (t.exchange z calls).2.1.writes = false := by
  induction calls generalizing t with
  | nil => exact ⟨rfl, ht⟩
  | cons c rest ih =>
      obtain ⟨hzone, hcall⟩ := zone_call_of_not_writes ht z c
      change ((t.call z c).2.1.exchange (t.call z c).2.2 rest).2.2 = z ∧
        ((t.call z c).2.1.exchange (t.call z c).2.2 rest).2.1.writes = false
      rw [hzone]
      exact ih hcall

/-- No writer is started while another one holds the lock. -/
theorem writer?_of_locked {z : PlainZone} (hz : z.locked = true) (replacement : Bool) :
    Transaction.writer? replacement z = none := by
  rw [writer?_eq, if_pos hz]

/-- An updater leaves a zone alone of which another writer holds the lock. -/
theorem zone_conduct_of_locked {z z' : PlainZone} {t : Transaction PlainAccess}
    (hz : z.locked = true) (ht : t.writes = false) {w? : Option (Transaction PlainAccess)}
    (hconduct : Updater.Conduct z t w? z') : z' = z := by
  cases hconduct with
  | goesOn => exact (zone_exchange_of_not_writes ht z _).1
  | stops =>
      obtain ⟨hzone, hended⟩ := zone_exchange_of_not_writes ht z _
      exact (zone_drop_of_not_writes hended _).trans hzone
  | restarts _ _ hnext =>
      rw [(zone_exchange_of_not_writes ht z _).1, writer?_of_locked hz] at hnext
      cases hnext

variable {G : PlainZone → Prop} {W : PlainZone → Transaction PlainAccess → Prop}

/-- Only one of the transactions writes. -/
theorem Tended.not_writes_of_ne {z : PlainZone} {ts : List (Transaction PlainAccess)}
    (h : Tended G W z ts) {i j : Nat} {t t' : Transaction PlainAccess} (ht : ts[i]? = some t)
    (hwrites : t.writes = true) (ht' : ts[j]? = some t') (hij : j ≠ i) : t'.writes = false := by
  have hothers := ((h.perm (perm_cons_eraseIdx ht).symm).of_writes hwrites).2
  have hmem : t' ∈ ts.eraseIdx i := List.mem_eraseIdx_iff_getElem?.mpr ⟨j, hij, ht'⟩
  exact Bool.eq_false_iff.mpr (List.countP_eq_zero.mp hothers t' hmem)

end PlainZone

namespace PlainUsage

variable {u : PlainUsage} {i : Nat} {w : Transaction PlainAccess}

/-- An action that is not on a transaction leaves it as it is. -/
theorem getElem?_step (hw : u.txns[i]? = some w) {a : PlainAction} (ha : a.txn? ≠ some i) :
    (u.step a).txns[i]? = some w := by
  have hi : i < u.txns.length := (List.getElem?_eq_some_iff.mp hw).1
  have hset {j : Nat} (hj : some j ≠ some i) (t : Transaction PlainAccess) :
      (u.txns.set j t)[i]? = some w :=
    (List.getElem?_set_ne fun h => hj (congrArg some h)).trans hw
  cases a with
  | start s =>
      rw [step]
      split
      · exact (List.getElem?_append_left hi).trans hw
      · exact hw
  | call j c =>
      rw [step]
      split
      · exact hw
      · exact hset ha _
  | drop j =>
      rw [step]
      split
      · exact hw
      · exact hset ha _
  | change c =>
      rw [step]
      split
      · exact hw
      · exact hw

/-- While a transaction holds the lock and no other one writes, only an action on it changes the
zone. -/
theorem zone_step_of_locked (hlocked : u.zone.locked = true)
    (hidle : ∀ j t, u.txns[j]? = some t → j ≠ i → t.writes = false) {a : PlainAction}
    (ha : a.txn? ≠ some i) : (u.step a).zone = u.zone := by
  cases a with
  | start s =>
      rw [step]
      split
      · rename_i t z hopen
        cases s with
        | reader query? => exact (PlainZone.reader_eq_ok (Option.some.inj hopen)).2
        | writer replacement =>
            obtain ⟨r, hr, -⟩ := Option.map_eq_some_iff.mp hopen
            cases (PlainZone.writer?_of_locked hlocked replacement).symm.trans hr
      · rfl
  | call j c =>
      rw [step]
      split
      · rfl
      · rename_i t ht
        have ht := hidle j t ht fun h => ha (congrArg some h)
        exact (PlainZone.zone_call_of_not_writes ht u.zone c).1
  | drop j =>
      rw [step]
      split
      · rfl
      · rename_i t ht
        have ht := hidle j t ht fun h => ha (congrArg some h)
        exact PlainZone.zone_drop_of_not_writes ht u.zone
  | change c =>
      rw [step]
      split
      · rfl
      · rename_i result z hmake
        rw [c.make?_eq, PlainZone.writeDirect, PlainZone.writer?_of_locked hlocked] at hmake
        cases hmake

end PlainUsage

namespace Traffic

open PlainZone (Tended)

theorem callOn?_of_plain {i : Nat} {a : PlainAction} (ha : a.txn? ≠ some i) :
    callOn? PlainAction.call? i (.act a) = none := by
  cases a with
  | call j c => exact if_neg fun h => ha (congrArg some h)
  | _ => rfl

variable {G : PlainZone → Prop} {W : PlainZone → Transaction PlainAccess → Prop}
  {t : Traffic PlainUsage PlainAccess} {i : Nat} {w : Transaction PlainAccess}

/-- A user's writer holds the lock, and no other transaction writes. -/
theorem exclusive_of_writes (h : Tended G W t.zone t.txns) (hw : t.txn? i = some w)
    (hwrites : w.writes = true) :
    t.zone.locked = true ∧
      (∀ j t', t.users.txns[j]? = some t' → j ≠ i → t'.writes = false) ∧
      ∀ u ∈ t.updaters, ∀ t' ∈ u.writer?, t'.writes = false := by
  have hw : t.users.txns[i]? = some w := hw
  have hi : i < t.users.txns.length := (List.getElem?_eq_some_iff.mp hw).1
  have hfirst {j : Nat} {t' : Transaction PlainAccess} (ht' : t.users.txns[j]? = some t') :
      t.txns[j]? = some t' :=
    (List.getElem?_append_left (List.getElem?_eq_some_iff.mp ht').1).trans ht'
  refine ⟨((h.perm (perm_cons_eraseIdx (hfirst hw)).symm).of_writes hwrites).1, ?_, ?_⟩
  · intro j t' ht' hj
    exact h.not_writes_of_ne (hfirst hw) hwrites (hfirst ht') hj
  · intro u hu t' ht'
    obtain ⟨k, hk⟩ := List.mem_iff_getElem?.mp (List.mem_filterMap.mpr ⟨u, hu, ht'⟩)
    have hlater : t.txns[t.users.txns.length + k]? = some t' := by
      refine (List.getElem?_append_right (Nat.le_add_right ..)).trans ?_
      rwa [Nat.add_sub_cancel_left]
    exact h.not_writes_of_ne (hfirst hw) hwrites hlater (by omega)

theorem meets_of_plain (h : Tended G W t.zone t.txns) (hw : t.txn? i = some w)
    (e : Event PlainAction) : Meets t i w (t.step e) (callOn? PlainAction.call? i e) := by
  have hw' : t.users.txns[i]? = some w := hw
  have hi : i < t.users.txns.length := (List.getElem?_eq_some_iff.mp hw').1
  cases e with
  | act a =>
      change Meets t i w ⟨t.users.step a, t.updaters⟩ _
      by_cases ha : a.txn? = some i
      · cases a with
        | call j c =>
            cases ha
            have hcall : callOn? PlainAction.call? i (.act (.call i c)) = some c := if_pos rfl
            rw [hcall, PlainUsage.step, hw']
            exact .call c (List.getElem?_set_self hi) rfl
        | drop j =>
            cases ha
            rw [PlainUsage.step, hw']
            exact .ends (List.getElem?_set_self hi) rfl
        | _ => cases ha
      · rw [callOn?_of_plain ha]
        refine .others (PlainUsage.getElem?_step hw' ha) fun hwrites => ?_
        obtain ⟨hlocked, hidle, -⟩ := exclusive_of_writes h hw hwrites
        change Transaction.WritersSeeAlike t.zone (t.users.step a).zone
        rw [PlainUsage.zone_step_of_locked hlocked hidle ha]
        exact .refl t.zone
  | _ =>
      refine meets_of_updater hw (fun _ h => by cases h) (fun henlist => ?_)
        fun hu hwriter hconduct hwrites => ?_
      · obtain ⟨hwriter, htxns⟩ := enlist?_eq_some henlist
        refine ⟨htxns, fun hwrites => ?_⟩
        have hlocked := (exclusive_of_writes h hw hwrites).1
        cases (PlainZone.writer?_of_locked hlocked false).symm.trans hwriter
      · obtain ⟨hlocked, -, hidle⟩ := exclusive_of_writes h hw hwrites
        rw [PlainZone.zone_conduct_of_locked hlocked (hidle _ hu _ hwriter) hconduct]
        exact .refl t.zone

end Traffic

/-! ### Writers in the traffic -/

/-- Whatever happens to a zone in use comes to each transaction of its users in these ways. -/
theorem ZoneConfig.meetsAlways (config : ZoneConfig) :
    (∀ events, (config.traffic events).MeetsAlways Action.call?) ∧
      ∀ events, (config.plainTraffic events).MeetsAlways PlainAction.call? := by
  refine ⟨fun _ later e i w hw => Traffic.meets_of_versioned _ hw e,
    fun events later e i w hw => ?_⟩
  have htended := config.sound_plainTraffic (events ++ later)
  rw [plainTraffic, Traffic.run_append] at htended
  exact Traffic.meets_of_plain htended hw e

end DnsZone
