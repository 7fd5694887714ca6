import DnsZone.Proofs.VersionedZone.History

/-!
# Readers see what they were started on

The zone counts its readers by version, and this count is right whatever readers and writers do. So
no version is dropped that somebody reads: as long as a reader is open it sees the same, and others
can be started on the same version. Since no number is given to a version twice, a version found
under a number is the same at all times.
-/

namespace DnsZone

open VersionedZone (Txn Move)

/-- What is selected is one of the versions that the zone has. -/
theorem VersionedZone.mem_of_select {z : VersionedZone} {query? : Option VersionQuery}
    {v : Version} (h : z.select query? = .ok v) : v ∈ z.chain.toList := by
  unfold select at h
  split at h
  · cases h
    exact List.mem_append_right _ (List.mem_singleton_self _)
  · split at h
    · cases h
    · rename_i hfind
      cases h
      exact (VersionChain.mem_of_byId? hfind).1
  · split at h
    · cases h
    · rename_i hfind
      cases h
      obtain ⟨apex, _, hfind⟩ := Option.bind_eq_some_iff.mp hfind
      exact VersionChain.mem_of_bySerial? hfind

theorem Participant.reads_eq_true_iff {p : Participant} {id : VersionId} :
    p.reads id = true ↔ ∃ v, p.txn.access = .reading v ∧ v.id = id := by
  rw [reads]
  cases p.txn.access with
  | reading v => simp
  | writing d => simp
  | ended => simp

/-- A transaction that goes on as a reader was a reader of the same version. -/
theorem Transaction.Edited.reading_iff {z : VersionedZone} {t t' : Txn} (h : t.Edited z t')
    (v : Version) : t'.access = .reading v ↔ t.access = .reading v := by
  by_cases hmode : Access.mode t.access = .writing
  · have hmode' := (VersionedZone.mode_of_edited h).trans hmode
    constructor
    · intro hv
      rw [hv] at hmode'
      cases hmode'
    · intro hv
      rw [hv] at hmode
      cases hmode
  · rw [(h.of_not_writing hmode).1]

namespace Usage

variable {u : Usage}

/-- The registry counts the readers of each version, and the zone keeps what they read. -/
structure Pinned (u : Usage) : Prop where
  counted : ∀ id, u.zone.readers.count id = u.txns.countP (Participant.reads id)
  positive : u.zone.readers.Positive
  kept : ∀ p ∈ u.txns, ∀ v, p.txn.access = .reading v → v ∈ u.zone.chain.toList

/-- A version that somebody reads is counted. -/
theorem count_pos_of_reading {readers : Readers} {txns : List Participant}
    (h : ∀ id, readers.count id = txns.countP (Participant.reads id)) {p : Participant}
    (hp : p ∈ txns) {v : Version} (hv : p.txn.access = .reading v) : 0 < readers.count v.id := by
  rw [h]
  exact List.countP_pos_iff.mpr ⟨p, hp, Participant.reads_eq_true_iff.mpr ⟨v, hv, rfl⟩⟩

/-- A transaction goes on or ends, and the count changes by as much. What is read from then on was
read before, so the zone has to keep only what is still counted. -/
theorem Pinned.set (h : Pinned u) {i : Nat} {p : Participant} (hp : u.txns[i]? = some p)
    (p' : Participant) (z : VersionedZone) (committed : List Script) (history : List Version)
    (hcount : ∀ id, z.readers.count id + (p.reads id).toNat =
      u.zone.readers.count id + (p'.reads id).toNat)
    (hpositive : z.readers.Positive)
    (hbefore : ∀ v, p'.txn.access = .reading v → p.txn.access = .reading v)
    (hkept : ∀ v ∈ u.zone.chain.toList, 0 < z.readers.count v.id → v ∈ z.chain.toList) :
    Pinned
      { u with
        zone := z
        txns := u.txns.set i p'
        committed := committed
        history := history } := by
  have hcounted (id : VersionId) :
      z.readers.count id = (u.txns.set i p').countP (Participant.reads id) := by
    have hset := countP_set_add hp (Participant.reads id) p'
    rw [← h.counted id, ← hcount id] at hset
    exact (Nat.add_right_cancel hset).symm
  refine ⟨hcounted, hpositive, fun q hq v hv => ?_⟩
  refine hkept v ?_ (count_pos_of_reading hcounted hq hv)
  rcases List.mem_or_eq_of_mem_set hq with hq | rfl
  · exact h.kept q hq v hv
  · exact h.kept p (List.mem_of_getElem? hp) v (hbefore v hv)

/-- What becomes of the readers when a transaction goes on or ends. -/
theorem Pinned.move (h : Pinned u) {i : Nat} {p : Participant} {t : Txn} {z : VersionedZone}
    (hp : u.txns[i]? = some p) (hmove : Move u.zone p.txn t z) (calls : List Call)
    (committed : List Script) (history : List Version) :
    Pinned
      { u with
        zone := z
        txns := u.txns.set i { p with calls := calls, txn := t }
        committed := committed
        history := history } := by
  cases hmove with
  | stays hedited =>
      refine h.set hp _ _ _ _ (fun id => ?_) h.positive (fun v => (hedited.reading_iff v).mp)
        fun v hv _ => hv
      have hreads : Participant.reads id { p with calls := calls, txn := t } = p.reads id := by
        rw [Bool.eq_iff_iff, Participant.reads_eq_true_iff, Participant.reads_eq_true_iff]
        simp only [hedited.reading_iff]
      rw [hreads]
  | readerEnds hv =>
      rename_i v
      refine h.set hp _ _ _ _ (fun id => ?_) (Readers.positive_unregister h.positive v.id)
        (fun w hw => by cases hw) fun w hw hcount => VersionChain.mem_prune hw hcount
      have hcount := count_pos_of_reading h.counted (List.mem_of_getElem? hp) hv
      have hreads : p.reads id = decide (v.id = id) := by
        rw [Participant.reads, hv]
      change (u.zone.readers.unregister v.id).count id + _ = _
      rw [Readers.count_unregister, hreads]
      by_cases hid : id = v.id
      · rw [if_pos hid, hid, decide_eq_true rfl]
        exact Nat.sub_add_cancel hcount
      · rw [if_neg hid, decide_eq_false (Ne.symm hid)]
        rfl
  | writerCommits hd learned? =>
      rw [VersionedZone.install_eq]
      refine h.set hp _ _ _ _ (fun id => ?_) h.positive (fun w hw => by cases hw)
        fun w hw hcount => VersionChain.mem_prune ?_ hcount
      · rw [Participant.reads, hd]
        rfl
      · rw [VersionedZone.toList_append]
        exact List.mem_append_left _ hw
  | writerEnds hd =>
      refine h.set hp _ _ _ _ (fun id => ?_) h.positive (fun w hw => by cases hw) fun v hv _ => hv
      rw [Participant.reads, hd]
      rfl

/-- A transaction is started, as a reader of a version that the zone has or as a writer. -/
theorem Pinned.join (h : Pinned u) (p : Participant) (granted : Nat) (readers : Readers)
    (hcount : ∀ id, readers.count id = u.zone.readers.count id + (p.reads id).toNat)
    (hpositive : readers.Positive)
    (hkept : ∀ v, p.txn.access = .reading v → v ∈ u.zone.chain.toList) :
    Pinned
      { u with
        zone := { u.zone with readers := readers }
        granted := granted
        txns := u.txns ++ [p] } where
  counted id := by
    rw [List.countP_append, List.countP_singleton, ← h.counted id]
    cases hreads : p.reads id <;> simp [hcount, hreads]
  positive := hpositive
  kept q hq v hv := by
    rcases List.mem_append.mp hq with hq | hq
    · exact h.kept q hq v hv
    · cases List.mem_singleton.mp hq
      exact hkept v hv

theorem Pinned.quiet (h : Pinned u) {u' : Usage} (hquiet : Quiet u u') : Pinned u' := by
  cases hquiet with
  | turns => exact ⟨h.counted, h.positive, h.kept⟩
  | policy => exact ⟨h.counted, h.positive, h.kept⟩
  | begins replacement =>
      exact h.join ⟨.writer replacement, [], u.zone.startWriter replacement⟩ _ _ (fun _ => rfl)
        h.positive fun v hv => by cases hv
  | reads hselect =>
      rename_i query? v
      refine h.join ⟨.reader query?, [], .ofReader (.reading v) u.zone⟩ u.granted _
        (fun id => ?_) (Readers.positive_register h.positive v.id) fun w hw => ?_
      · rw [Readers.count_register, Participant.reads]
        by_cases hid : id = v.id
        · rw [if_pos hid, hid]
          simp [Transaction.ofReader]
        · rw [if_neg hid]
          simp [Transaction.ofReader, Ne.symm hid]
      · cases hw
        exact VersionedZone.mem_of_select hselect

theorem Pinned.effect (h : Pinned u) (hw : Writers u) {u' : Usage} (heffect : Effect u u') :
    Pinned u' := by
  cases heffect with
  | quiet hquiet => exact h.quiet hquiet
  | calls hp c => exact h.move hp (VersionedZone.move_call hw.alive c) _ _ _
  | drops hp => exact h.move hp (VersionedZone.move_drop hw.alive) _ _ _

theorem pinned_fresh {z : VersionedZone} (h : z.readers = .empty) : Pinned (fresh z) where
  counted id := by
    change z.readers.count id = 0
    rw [h]
    rfl
  positive := by
    change z.readers.Positive
    rw [h]
    exact Readers.positive_empty
  kept p hp := by cases hp

end Usage

theorem ZoneConfig.pinned_usage (config : ZoneConfig) (actions : List Action) :
    (config.usage actions).Pinned :=
  (Usage.run_induction (P := fun u => u.Writers ∧ u.Pinned)
    (fun heffect h => ⟨h.1.effect heffect, h.2.effect h.1 heffect⟩)
    ⟨Usage.writers_fresh rfl rfl, Usage.pinned_fresh rfl⟩ actions).2

/-! ### What a reader sees -/

namespace VersionedZone

/-- What a transaction is told depends on its own state only, not on what becomes of the zone. -/
theorem ask_congr (z z' : VersionedZone) {t t' : Txn} (haccess : t'.access = t.access)
    (horigin : t'.origin = t.origin) (q : Query) : t'.ask z' q = t.ask z q := by
  obtain ⟨access, origin, originSet, checksOrigin, checks⟩ := t
  obtain ⟨access', origin', originSet', checksOrigin', checks'⟩ := t'
  cases haccess
  cases horigin
  cases q <;> rfl

/-- Two transactions see the same content, whichever way they look. -/
structure SameContent (z : VersionedZone) (t : Txn) (z' : VersionedZone) (t' : Txn) : Prop where
  /-- Both list the same record sets. -/
  sets : ∃ l, t.sets z = .ok l ∧ t'.sets z' = .ok l
  /-- Under every name in the form in which names are stored, both see the same. -/
  find? : ∀ n key, Backend.find? z t.access n key = Backend.find? z' t'.access n key
  node? : ∀ n, Backend.node? z t.access n = Backend.node? z' t'.access n
  contains : ∀ n, Backend.contains z t.access n = Backend.contains z' t'.access n

/-- Readers of one version see the same. -/
theorem sameContent_of_reading (z z' : VersionedZone) {t t' : Txn} {v : Version}
    (h : t.access = .reading v) (h' : t'.access = .reading v) : SameContent z t z' t' := by
  obtain ⟨access, origin, originSet, checksOrigin, checks⟩ := t
  obtain ⟨access', origin', originSet', checksOrigin', checks'⟩ := t'
  cases h
  cases h'
  exact ⟨⟨v.sets, rfl, rfl⟩, fun _ _ => rfl, fun _ => rfl, fun _ => rfl⟩

/-- A reader that is started by number reads a version of that number. -/
theorem reading_of_reader {z z' : VersionedZone} {id : VersionId} {t : Txn}
    (h : Transaction.reader (some (.id id)) z = .ok (t, z')) :
    ∃ v ∈ z.chain.toList, v.id = id ∧ t.access = .reading v := by
  rw [reader_eq] at h
  obtain ⟨v, hselect, heq⟩ := map_eq_ok_iff.mp h
  cases heq
  rw [select] at hselect
  cases hfind : z.chain.byId? id with
  | none =>
      rw [hfind] at hselect
      cases hselect
  | some w =>
      rw [hfind] at hselect
      cases hselect
      obtain ⟨hmem, hid⟩ := VersionChain.mem_of_byId? hfind
      exact ⟨v, hmem, hid, rfl⟩

theorem reader_of_byId? {z : VersionedZone} {v : Version} (h : z.chain.byId? v.id = some v) :
    ∃ t z', Transaction.reader (some (.id v.id)) z = .ok (t, z') ∧ t.access = .reading v := by
  have hselect : z.select (some (.id v.id)) = .ok v := by
    rw [select, h]
  rw [reader_eq, hselect]
  exact ⟨_, _, rfl, rfl⟩

/-- A reader goes on reading the same version by the same origin, or ends. -/
theorem Move.reading {z z' : VersionedZone} {t t' : Txn} (h : Move z t t' z') {v : Version}
    {origin : Origin}
    (ht : t.access = .ended ∨ t.access = .reading v ∧ t.origin = origin) :
    t'.access = .ended ∨ t'.access = .reading v ∧ t'.origin = origin := by
  cases h with
  | stays hedited =>
      have hmode : Access.mode t.access ≠ .writing := by
        rcases ht with ht | ⟨ht, _⟩
        · rw [ht]
          nofun
        · rw [ht]
          nofun
      obtain ⟨haccess, horigin⟩ := hedited.of_not_writing hmode
      rw [haccess, horigin]
      exact ht
  | _ => exact .inl rfl

end VersionedZone

namespace Usage

variable {u : Usage} {i : Nat} {v : Version} {origin : Origin}

/-- The transaction that was started as number `i` reads `v` and goes by `origin`, or has ended. -/
def ReadsUntilEnd (i : Nat) (v : Version) (origin : Origin) (u : Usage) : Prop :=
  ∃ p, u.txns[i]? = some p ∧
    (p.txn.access = .ended ∨ p.txn.access = .reading v ∧ p.txn.origin = origin)

theorem ReadsUntilEnd.move {u u' : Usage} (h : ReadsUntilEnd i v origin u) {j : Nat}
    {p p' : Participant} (hp : u.txns[j]? = some p) (htxns : u'.txns = u.txns.set j p')
    {z : VersionedZone} (hmove : Move u.zone p.txn p'.txn z) :
    ReadsUntilEnd i v origin u' := by
  obtain ⟨q, hq, hreads⟩ := h
  rw [ReadsUntilEnd, htxns]
  by_cases hij : j = i
  · subst hij
    cases hp.symm.trans hq
    refine ⟨p', ?_, hmove.reading hreads⟩
    exact List.getElem?_set_self (List.getElem?_eq_some_iff.mp hp).1
  · exact ⟨q, (List.getElem?_set_ne hij).trans hq, hreads⟩

theorem ReadsUntilEnd.effect (h : ReadsUntilEnd i v origin u) (hw : Writers u) {u' : Usage}
    (heffect : Effect u u') : ReadsUntilEnd i v origin u' := by
  cases heffect with
  | quiet hquiet =>
      obtain ⟨q, hq, hreads⟩ := h
      exact ⟨q, hquiet.getElem?_txns hq, hreads⟩
  | calls hp c => exact h.move hp rfl (VersionedZone.move_call hw.alive c)
  | drops hp => exact h.move hp rfl (VersionedZone.move_drop hw.alive)

/-- What readers of the zone see is stable. -/
structure SnapshotsStable (u : Usage) : Prop where
  /-- As many readers of a version are registered as there are that have not ended. -/
  counted : ∀ id, u.zone.readers.count id = u.txns.countP (Participant.reads id)
  /-- Nothing is registered that nobody reads. -/
  no_zero : ∀ e ∈ u.zone.readers.toList, e.2 ≠ 0
  /-- The zone keeps every version that has a reader. -/
  kept : ∀ id, 0 < u.zone.readers.count id → id ∈ u.zone.chain.ids
  /-- A reader that has not ended is always told the same. -/
  constant : ∀ (i : Nat) p v, u.txns[i]? = some p → p.txn.access = .reading v → ∀ later,
    ∃ p', (u.run later).txns[i]? = some p' ∧
      (p'.txn.isEnded = true ∨ ∀ q, p'.txn.ask (u.run later).zone q = p.txn.ask u.zone q)
  /-- Another reader can be started on the version of one that has not ended, and sees the same. -/
  reopened : ∀ p ∈ u.txns, ∀ v, p.txn.access = .reading v →
    ∃ t z, Transaction.reader (some (.id v.id)) u.zone = .ok (t, z) ∧ u.zone.SameContent p.txn z t
  /-- Readers started on one number at different times see the same. -/
  repeatable : ∀ id later t z t' z', Transaction.reader (some (.id id)) u.zone = .ok (t, z) →
    Transaction.reader (some (.id id)) (u.run later).zone = .ok (t', z') → z.SameContent t z' t'
  /-- A reader that cannot be started changes nothing. -/
  refused : ∀ query? e, Transaction.reader query? u.zone = .error e → u.step (.read query?) = u

theorem Pinned.snapshotsStable (h : Pinned u) (hw : Writers u) (hh : Historic u) :
    SnapshotsStable u where
  counted := h.counted
  no_zero e he := Nat.ne_of_gt (h.positive e he)
  kept id hid := by
    rw [h.counted id] at hid
    obtain ⟨p, hp, hreads⟩ := List.countP_pos_iff.mp hid
    obtain ⟨v, hv, rfl⟩ := Participant.reads_eq_true_iff.mp hreads
    exact List.mem_map_of_mem (h.kept p hp v hv)
  constant i p v hp hv later := by
    have hreads : ReadsUntilEnd i v p.txn.origin u := ⟨p, hp, .inr ⟨hv, rfl⟩⟩
    obtain ⟨-, p', hp', hreads⟩ := run_induction
      (P := fun u' => Writers u' ∧ ReadsUntilEnd i v p.txn.origin u')
      (fun heffect h' => ⟨h'.1.effect heffect, h'.2.effect h'.1 heffect⟩) ⟨hw, hreads⟩ later
    refine ⟨p', hp', ?_⟩
    rcases hreads with hended | ⟨haccess, horigin⟩
    · exact .inl (by rw [Transaction.isEnded, hended]; rfl)
    · exact .inr (VersionedZone.ask_congr _ _ (haccess.trans hv.symm) horigin)
  reopened p hp v hv := by
    have hmem := h.kept p hp v hv
    have hfind : u.zone.chain.byId? v.id = some v :=
      VersionChain.byId?_of_mem hmem fun w hw hid =>
        hh.eq_of_id_eq (hh.kept.subset hw) (hh.kept.subset hmem) hid
    obtain ⟨t, z, ht, haccess⟩ := VersionedZone.reader_of_byId? hfind
    exact ⟨t, z, ht, VersionedZone.sameContent_of_reading _ _ hv haccess⟩
  repeatable id later t z t' z' ht ht' := by
    obtain ⟨v, hv, hid, haccess⟩ := VersionedZone.reading_of_reader ht
    obtain ⟨v', hv', hid', haccess'⟩ := VersionedZone.reading_of_reader ht'
    have hlater := (run_induction (P := fun u' => Writers u' ∧ Historic u')
      (fun heffect h' => ⟨h'.1.effect heffect, h'.2.effect h'.1 heffect⟩) ⟨hw, hh⟩ later).2
    have hmem := (history_prefix_run u later).subset (hh.kept.subset hv)
    cases hlater.eq_of_id_eq hmem (hlater.kept.subset hv') (hid.trans hid'.symm)
    exact VersionedZone.sameContent_of_reading _ _ haccess haccess'
  refused query? e he := by
    rw [Usage.step, he]

end Usage

/-- However readers and writers of a new zone come and go, and whatever its policy is: readers see
what they were started on, and versions that are read are kept. -/
theorem ZoneConfig.snapshotsStable_usage (config : ZoneConfig) (actions : List Action) :
    (config.usage actions).SnapshotsStable :=
  (config.pinned_usage actions).snapshotsStable (config.writers_usage actions)
    (config.historic_usage actions)

end DnsZone
