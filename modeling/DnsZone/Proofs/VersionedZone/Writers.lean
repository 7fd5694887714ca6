import DnsZone.Proofs.VersionedZone.Usage

/-!
# At most one writer, and what it starts from

Whatever the users of a zone do, access to it is given to one writer at a time, in the order of
arrival, and taken back when that writer ends. Since only a writer adds versions, the latest version
stays the same while a writer is open: it is the base of the writer until the end.
-/

namespace DnsZone

open VersionedZone (Txn Move)

/-! ### The invariant -/

namespace Usage

/-- The number of writers that have access: those that are to pick up a version, and those whose
transactions have not ended. -/
def holders (u : Usage) : Nat := u.granted + u.txns.countP Participant.writes

/-- Access is given to one writer at a time, which is based on the latest version. -/
structure Writers (u : Usage) : Prop where
  alive : u.zone.alive = true
  sound : u.zone.admission.Sound u.holders u.queuers
  based : ∀ p ∈ u.txns, ∀ d, p.txn.access = .writing d → d.base = u.zone.latest ∧ d.Numbered

variable {u : Usage}

theorem Writers.turn (h : Writers u) {k : Nat} {a : Admission} {q : Queuers}
    (hturn : u.zone.admission.Turns u.queuers k a q) :
    Writers
      { u with
        zone := { u.zone with admission := a }
        granted := u.granted + k
        queuers := q } where
  alive := h.alive
  sound := by
    have hholders : u.holders + k = u.granted + k + u.txns.countP Participant.writes :=
      Nat.add_right_comm ..
    have hsound := h.sound.turn hturn
    rw [hholders] at hsound
    exact hsound
  based := h.based

/-- A transaction is started, as a reader or by a writer that was granted access. -/
theorem Writers.join (h : Writers u) (p : Participant) (granted : Nat) (readers : Readers)
    (hgranted : granted + p.writes.toNat = u.granted)
    (hp : ∀ d, p.txn.access = .writing d → d.base = u.zone.latest ∧ d.Numbered) :
    Writers
      { u with
        zone := { u.zone with readers := readers }
        granted := granted
        txns := u.txns ++ [p] } where
  alive := h.alive
  sound := by
    have hholders : granted + (u.txns ++ [p]).countP Participant.writes = u.holders := by
      rw [holders, ← hgranted, List.countP_append, List.countP_singleton]
      cases p.writes with
      | false => rfl
      | true => exact (Nat.add_right_comm granted 1 _).symm
    have hsound := h.sound
    rw [← hholders] at hsound
    exact hsound
  based := by
    intro p' hp' d hd
    rcases List.mem_append.mp hp' with hp' | hp'
    · exact h.based p' hp' d hd
    · cases List.mem_singleton.mp hp'
      exact hp d hd

/-- Replacing one element changes the count by what the two elements differ. -/
theorem countP_set_add {α : Type} {l : List α} {i : Nat} {a : α} (h : l[i]? = some a)
    (f : α → Bool) (b : α) :
    (l.set i b).countP f + (f a).toNat = l.countP f + (f b).toNat := by
  induction l generalizing i with
  | nil => cases h
  | cons x l ih =>
      cases i with
      | zero =>
          cases h
          rw [List.set_cons_zero, List.countP_cons, List.countP_cons]
          cases f a <;> cases f b <;> simp
      | succ i =>
          have ih := ih h
          rw [List.set_cons_succ, List.countP_cons, List.countP_cons]
          omega

theorem Writers.holders_le_one (h : Writers u) : u.holders ≤ 1 := by
  rw [h.sound.holders_eq]
  exact Bool.toNat_le _

/-- Once the writer has ended, nobody writes. -/
theorem Writers.no_other_writer (h : Writers u) {i : Nat} {p q : Participant}
    (hp : u.txns[i]? = some p) (hwrites : p.writes = true) (hended : q.writes = false) :
    u.granted = 0 ∧ (u.txns.set i q).countP Participant.writes = 0 := by
  have hcount := countP_set_add hp Participant.writes q
  rw [hwrites, hended] at hcount
  have hcount : (u.txns.set i q).countP Participant.writes + 1 =
      u.txns.countP Participant.writes := hcount
  have hone := h.holders_le_one
  rw [holders, ← hcount] at hone
  omega

/-- A writer that goes on has its draft from before. -/
theorem Writers.based_of_move (h : Writers u) {p : Participant} (hp : p ∈ u.txns) {t : Txn}
    {z : VersionedZone} (hmove : Move u.zone p.txn t z) {d : Draft}
    (hd : t.access = .writing d) : d.base = u.zone.latest ∧ d.Numbered := by
  cases hmove with
  | stays hedited =>
      have hmode := VersionedZone.mode_of_edited hedited
      cases haccess : p.txn.access with
      | writing d₀ =>
          obtain ⟨hbase₀, hnumbered₀⟩ := h.based p hp d₀ haccess
          obtain ⟨d', hd', hbase, hnumbered⟩ := hedited.draft haccess hnumbered₀
          cases hd.symm.trans hd'
          exact ⟨hbase.trans hbase₀, hnumbered⟩
      | _ =>
          rw [hd, haccess] at hmode
          cases hmode
  | _ => cases hd

/-- The transaction of a participant goes on or ends. -/
theorem Writers.move (h : Writers u) {i : Nat} {p : Participant} {t : Txn} {z : VersionedZone}
    (hp : u.txns[i]? = some p) (hmove : Move u.zone p.txn t z) (calls : List Call)
    (committed : List Script) (history : List Version) :
    Writers
      { u with
        zone := z
        txns := u.txns.set i { p with calls := calls, txn := t }
        committed := committed
        history := history } := by
  have hcount := countP_set_add hp Participant.writes { p with calls := calls, txn := t }
  have halive := hmove.alive_eq.trans h.alive
  rcases hmove.writer with ⟨hiff, hadmission, hlatest⟩ | ⟨ht, hpw, hadmission⟩
  · refine ⟨halive, ?_, ?_⟩
    · have hwrites : Participant.writes { p with calls := calls, txn := t } = p.writes := by
        rw [Participant.writes, Participant.writes, decide_eq_decide]
        exact hiff
      rw [hwrites] at hcount
      have hsound := h.sound
      rw [holders, ← Nat.add_right_cancel hcount, ← hadmission] at hsound
      exact hsound
    · intro p' hp' d hd
      change d.base = z.latest ∧ d.Numbered
      rw [hlatest]
      rcases List.mem_or_eq_of_mem_set hp' with hp' | rfl
      · exact h.based p' hp' d hd
      · exact h.based_of_move (List.mem_of_getElem? hp) hmove hd
  · have hended : Participant.writes { p with calls := calls, txn := t } = false :=
      decide_eq_false ht
    have hwriting : p.writes = true := decide_eq_true hpw
    obtain ⟨hgranted, hnone⟩ := h.no_other_writer hp hwriting hended
    refine ⟨halive, ?_, ?_⟩
    · rw [hended, hwriting, hnone] at hcount
      have hone : u.txns.countP Participant.writes = 1 := hcount.symm
      have hsound := h.sound
      rw [holders, hgranted, hone] at hsound
      have hholders : u.granted + (u.txns.set i { p with calls := calls, txn := t }).countP
          Participant.writes = 0 := by rw [hgranted, hnone]
      have hrelease := hsound.release
      rw [← hadmission, ← hholders] at hrelease
      exact hrelease
    · intro p' hp' d hd
      have hp'w : p'.writes = true := decide_eq_true (congrArg Access.mode hd)
      exact absurd hp'w (List.countP_eq_zero.mp hnone p' hp')

theorem Writers.quiet (h : Writers u) {u' : Usage} (hquiet : Quiet u u') : Writers u' := by
  cases hquiet with
  | turns hturn => exact h.turn hturn
  | policy => exact ⟨h.alive, h.sound, h.based⟩
  | begins replacement hgranted =>
      refine h.join ⟨.writer replacement, [], u.zone.startWriter replacement⟩ _ u.zone.readers
        (Nat.sub_add_cancel (Nat.pos_of_ne_zero hgranted)) ?_
      intro d hd
      cases hd
      exact ⟨rfl, Draft.numbered_start _ _⟩
  | reads =>
      rename_i query? v _
      refine h.join ⟨.reader query?, [], .ofReader (.reading v) u.zone⟩ u.granted _ rfl ?_
      intro d hd
      cases hd

theorem Writers.effect (h : Writers u) {u' : Usage} (heffect : Effect u u') : Writers u' := by
  cases heffect with
  | quiet hquiet => exact h.quiet hquiet
  | calls hp c => exact h.move hp (VersionedZone.move_call h.alive c) _ _ _
  | drops hp => exact h.move hp (VersionedZone.move_drop h.alive) _ _ _

theorem writers_fresh {z : VersionedZone} (halive : z.alive = true)
    (hadmission : z.admission = {}) : Writers (fresh z) where
  alive := halive
  sound := hadmission ▸ Admission.Sound.initial
  based p hp := by cases hp

end Usage

theorem ZoneConfig.writers_usage (config : ZoneConfig) (actions : List Action) :
    (config.usage actions).Writers :=
  Usage.run_induction (fun heffect h => h.effect heffect) (Usage.writers_fresh rfl rfl) actions

/-! ### Admission in the order of arrival -/

namespace Usage

variable {u : Usage}

theorem timedOut_run (u : Usage) (actions : List Action) :
    u.queuers.timedOut ⊆ (u.run actions).queuers.timedOut := by
  refine run_induction (P := fun u' => u.queuers.timedOut ⊆ u'.queuers.timedOut) ?_
    (List.Subset.refl _) actions
  intro u₁ u₂ heffect h
  cases heffect with
  | quiet hquiet =>
      cases hquiet with
      | turns hturn => exact List.Subset.trans h hturn.timedOut_subset
      | _ => exact h
  | _ => exact h

/-- How writers are admitted to a zone in use. -/
structure FairlyAdmitted (u : Usage) : Prop where
  /-- Access is not handed to a writer while another has it. -/
  exclusive : ¬ (u.zone.admission.active = true ∧ u.zone.admission.handedTo.isSome = true)
  /-- There is one writer that was admitted and has not ended, or none, as the zone has it. -/
  one_holder : u.holders = if u.zone.admission.active then 1 else 0
  /-- As long as writers wait, there is one that is to hand access on. -/
  not_stranded : u.zone.admission.waiting ≠ [] →
    u.zone.admission.active = true ∨ u.zone.admission.handedTo.isSome = true
  /-- Whoever still waits for an answer is known to the zone. -/
  not_lost : u.queuers.callers = u.zone.admission.handedTo.toList ++ u.zone.admission.waiting
  /-- Those that had to wait were admitted in the order of their numbers. -/
  increasing : (u.queuers.admitted.filterMap Turn.id?).Pairwise (· < ·)
  /-- Those admitted, the one that was handed access and those that wait are, in this order, all
  that have arrived and have not given up. -/
  in_order : u.queuers.admitted ++
    (u.zone.admission.handedTo.toList ++ u.zone.admission.waiting).map Turn.waited =
      u.queuers.arrivals.filter u.queuers.remains
  /-- Nobody that arrives now is admitted before those. -/
  not_overtaken : u.zone.admission.waiting ≠ [] ∨ u.zone.admission.handedTo.isSome = true →
    ∀ a ∈ [Action.ask, .seize], (u.step a).queuers.admitted = u.queuers.admitted
  /-- Who has given up is never admitted. -/
  gone : ∀ later, ∀ id ∈ u.queuers.timedOut, .waited id ∉ (u.run later).queuers.admitted
  /-- Who was handed access when its time is over takes it. -/
  taken : ∀ id, u.zone.admission.handedTo = some id →
    (u.step (.expire id)).queuers.admitted = u.queuers.admitted ++ [.waited id] ∧
      (u.step (.expire id)).queuers.timedOut = u.queuers.timedOut ∧
        (u.step (.expire id)).zone.admission.active = true

/-- Somebody that waits or was handed access keeps those that arrive from being admitted. -/
theorem admitted_of_not_isFree (h : u.zone.admission.isFree = false) :
    ∀ a ∈ [Action.ask, .seize], (u.step a).queuers.admitted = u.queuers.admitted := by
  intro a ha
  rcases List.mem_cons.mp ha with rfl | ha
  · rw [step, VersionedZone.enqueue, Admission.enqueue, h]
    rfl
  · cases List.mem_singleton.mp ha
    rw [step, Admission.seize?, h]
    rfl

theorem Writers.fairlyAdmitted (h : Writers u) : FairlyAdmitted u where
  exclusive := by
    rintro ⟨hactive, hhanded⟩
    rw [h.sound.handedTo_eq hactive] at hhanded
    cases hhanded
  one_holder := by
    rw [h.sound.holders_eq]
    cases u.zone.admission.active <;> rfl
  not_stranded := h.sound.busy
  not_lost := h.sound.callers_eq
  increasing := h.sound.sorted_admitted
  in_order := h.sound.in_order
  not_overtaken hbusy := by
    refine admitted_of_not_isFree (Bool.eq_false_iff.mpr fun hfree => ?_)
    obtain ⟨-, hhanded, hwaiting⟩ := Admission.isFree_iff.mp hfree
    rcases hbusy with hbusy | hbusy
    · exact hbusy hwaiting
    · rw [hhanded] at hbusy
      cases hbusy
  gone later id hid := by
    have hlater := run_induction (P := Writers) (fun heffect h => h.effect heffect) h later
    exact (hlater.sound.not_mem_of_timedOut (timedOut_run u later hid)).1
  taken id hid := by
    have hcaller : id ∈ u.queuers.callers := by
      rw [h.sound.callers_eq, Admission.queued, hid]
      exact List.mem_cons_self
    have htake : u.zone.admission.take? id =
        some { u.zone.admission with active := true, handedTo := none } := if_pos hid
    rw [Usage.step, if_pos hcaller, VersionedZone.abandon, Admission.abandon, htake]
    exact ⟨rfl, rfl, rfl⟩

end Usage

/-- Whatever the users of a new zone do, writers are admitted to it fairly: one at a time, in the
order of their arrival, and none is forgotten. -/
theorem ZoneConfig.fairlyAdmitted_usage (config : ZoneConfig) (actions : List Action) :
    (config.usage actions).FairlyAdmitted := (config.writers_usage actions).fairlyAdmitted

end DnsZone
