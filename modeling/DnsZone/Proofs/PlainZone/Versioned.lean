import DnsZone.Proofs.PlainZone.View
import DnsZone.Proofs.Readers
import DnsZone.Proofs.Transaction.Script
import DnsZone.Proofs.VersionChain
import DnsZone.Proofs.VersionedZone.Moves
import DnsZone.Proofs.VersionedZone.View

/-!
# Plain zones behave like versioned zones

A plain zone and a versioned zone that keeps the latest version only cannot be told apart by
transactions that are run one after another. Between transactions both hold the same content, and
the generation of the one is the number of the latest version of the other. While a writer is open,
what it has staged in an overlay shows the content of the working copy, and one of them is there to
be committed exactly if the other one is.
-/

namespace DnsZone

/-- The zones hold the same, and transactions take the same of them. -/
structure PlainZone.Like (p : PlainZone) (v : VersionedZone) : Prop where
  origin : p.origin = v.origin
  checksOrigin : p.checksOrigin = v.checksOrigin
  alive : v.alive = true
  policy : v.policy = .latest
  older : v.chain.older = []
  generation : p.generation = v.latest.id
  content : p.content = v.latest.content
  plain_proper : NameMap.Proper p.nodes
  versioned_proper : NameMap.Proper v.latest.nodes

/-- What is staged on `p` has the same effect as the draft of a writer on `v`. -/
structure Staging.Like (s : Staging) (p : PlainZone) (d : Draft) (v : VersionedZone) : Prop where
  base : d.base = v.latest
  replacement : s.replacement = d.replacement
  touched : d.copy?.isSome = !(s.overlay.isEmpty && s.wiped.isEmpty)
  hasChanges : ∀ w, d.copy? = some w → w.hasChanges = true
  id : d.working.id = v.latest.id.next
  overlay_proper : s.overlay.Proper
  copy_proper : d.working.Proper
  content : s.content p.nodes p.generation.next = d.working.content

/-- At most one transaction is open, and it is the same on both zones. -/
inductive PlainZone.Paired (p : PlainZone) (v : VersionedZone) :
    PlainAccess → VersionedAccess → Prop where
  | ended (hlocked : p.locked = false) (hactive : v.admission.active = false)
      (hreaders : v.readers.toList = []) : Paired p v .ended .ended
  | reading (hlocked : p.locked = false) (hactive : v.admission.active = false)
      (hreaders : v.readers.toList = [(v.latest.id, 1)]) : Paired p v .reading (.reading v.latest)
  | writing {s : Staging} {d : Draft} (hactive : v.admission.active = true)
      (hreaders : v.readers.toList = []) (hlike : s.Like p d v) :
      Paired p v (.writing s) (.writing d)

/-- The zones and the open transaction, if there is one, are alike, and nobody waits to write. -/
structure PlainZone.Simulates (p : PlainZone) (a : PlainAccess) (v : VersionedZone)
    (b : VersionedAccess) : Prop extends p.Like v where
  handedTo : v.admission.handedTo = none
  waiting : v.admission.waiting = []
  paired : p.Paired v a b

namespace Staging.Like

variable {s s' : Staging} {p : PlainZone} {d : Draft} {v : VersionedZone}

/-- A change of the working copy and the same change of what is staged. -/
theorem modify (h : s.Like p d v) {f : WorkingCopy → WorkingCopy}
    (hreplacement : s'.replacement = s.replacement)
    (htouched : (s'.overlay.isEmpty && s'.wiped.isEmpty) = false)
    (hchanges : (f d.working).hasChanges = true) (hid : (f d.working).id = d.working.id)
    (hoverlay : s'.overlay.Proper) (hcopy : (f d.working).Proper)
    (hcontent : s'.content p.nodes p.generation.next = (f d.working).content) :
    s'.Like p (d.modify f) v where
  base := h.base
  replacement := hreplacement.trans h.replacement
  touched := by
    rw [htouched]
    rfl
  hasChanges w hw := by
    cases hw
    exact hchanges
  id := hid.trans h.id
  overlay_proper := hoverlay
  copy_proper := hcopy
  content := hcontent

theorem put (h : s.Like p d v) (hlike : p.Like v) (n : Name) (set : RecordSet) :
    (s.put n set).Like p (d.modify fun w => w.put n set) v := by
  refine h.modify rfl ?_ (d.working.hasChanges_put n set) rfl ?_
    (WorkingCopy.proper_put h.copy_proper n set) ?_
  · rw [Staging.put, OrderedMap.isEmpty_insert]
    rfl
  · exact Overlay.proper_insert h.overlay_proper fun s' hs' => by cases hs'; rfl
  · rw [Staging.content_put h.overlay_proper, WorkingCopy.content_put h.copy_proper, h.content,
      h.id, hlike.generation]

theorem eraseSet (h : s.Like p d v) (hlike : p.Like v) {n : Name} {key : SetKey}
    (hfound : (d.working.find? n key).isSome = true) :
    (s.eraseSet n key).Like p (d.modify fun w => w.eraseSet n key) v := by
  refine h.modify rfl ?_ (WorkingCopy.hasChanges_eraseSet hfound) (WorkingCopy.id_eraseSet ..) ?_
    (WorkingCopy.proper_eraseSet h.copy_proper n key) ?_
  · rw [Staging.eraseSet, OrderedMap.isEmpty_insert]
    rfl
  · exact Overlay.proper_insert h.overlay_proper fun s' hs' => by cases hs'
  · rw [Staging.content_eraseSet h.overlay_proper,
      WorkingCopy.content_eraseSet h.copy_proper hfound, h.content, h.id, hlike.generation]

theorem eraseName (h : s.Like p d v) {n : Name} (hfound : d.working.slots.contains n = true) :
    (s.eraseName n).Like p (d.modify fun w => w.eraseName n) v := by
  refine h.modify rfl ?_ (WorkingCopy.hasChanges_eraseName hfound) ?_
    (Overlay.proper_eraseAt h.overlay_proper n) (WorkingCopy.proper_eraseName h.copy_proper n) ?_
  · have hwiped := OrderedMap.isEmpty_insert s.wiped n ()
    rw [Staging.eraseName, hwiped, Bool.and_false]
  · rw [WorkingCopy.eraseName, if_pos hfound]
    rfl
  · rw [Staging.content_eraseName h.overlay_proper, WorkingCopy.content_eraseName, h.content]

/-- A writer that has not touched anything: it sees the content of the zone, or none of it. -/
theorem untouched (hlike : p.Like v) (replacement : Bool) (supply : Nat) :
    (Staging.start replacement supply).Like p (.start v.latest replacement) v where
  base := rfl
  replacement := rfl
  touched := rfl
  hasChanges w hw := by cases hw
  id := by cases replacement <;> rfl
  overlay_proper := Overlay.proper_empty
  copy_proper := by
    cases replacement with
    | true => exact WorkingCopy.proper_forkReplacing _ _ _
    | false => exact WorkingCopy.proper_fork _ hlike.versioned_proper _
  content := by
    rw [Staging.content_start]
    cases replacement with
    | true => rfl
    | false =>
        change p.content = (WorkingCopy.fork _ v.latest _).content
        rw [WorkingCopy.content_fork, hlike.content]

theorem clear (h : s.Like p d v) (hlike : p.Like v) : s.clear.Like p d.clear v := by
  have hstart := untouched hlike true s.supply
  rw [← h.base] at hstart
  exact hstart

/-- Both are to be committed, or neither is. -/
theorem changed_eq (h : s.Like p d v) (hlike : p.Like v) : s.hasChanges p.nodes = d.changed := by
  have hempty : p.nodes.isEmpty = v.latest.nodes.isEmpty := by
    rw [Bool.eq_iff_iff, OrderedMap.isEmpty_iff_find?_eq_none,
      OrderedMap.isEmpty_iff_find?_eq_none]
    refine forall_congr' fun n => ?_
    have hn : (p.nodes.find? n).map _ = (v.latest.nodes.find? n).map _ := congrFun hlike.content n
    rw [← Option.map_eq_none_iff, hn, Option.map_eq_none_iff]
  rw [Staging.hasChanges, Draft.changed, ← Bool.not_and, ← h.touched]
  cases hcopy : d.copy? with
  | none =>
      rw [h.replacement, hempty, ← h.base]
      rfl
  | some w => exact (h.hasChanges w hcopy).symm

theorem view_proper (h : s.Like p d v) (hlike : p.Like v) : d.view.Proper := by
  have hcopy := h.copy_proper
  rw [Draft.view]
  rw [Draft.working] at hcopy
  cases hw : d.copy? with
  | some w =>
      rw [hw] at hcopy
      exact hcopy
  | none =>
      cases d.replacement with
      | true => trivial
      | false =>
          have hbase := hlike.versioned_proper
          rw [← h.base] at hbase
          exact hbase

end Staging.Like

namespace PlainZone

variable {p : PlainZone} {a : PlainAccess} {v : VersionedZone} {b : VersionedAccess}

/-- Both transactions see the same content. -/
theorem Simulates.shows (h : p.Simulates a v b) (hopen : Access.mode a ≠ .ended) :
    ∃ c, Shows p a c ∧ Shows v b c := by
  have hpaired := h.paired
  cases hpaired with
  | ended => exact absurd rfl hopen
  | reading =>
      have hplain := PlainZone.shows h.plain_proper .reading fun s hs => by cases hs
      rw [contentIn_of_staging?_eq_none p rfl, h.content] at hplain
      have hversioned := v.shows (.reading v.latest) h.versioned_proper
      exact ⟨_, hplain, (VersionedView.content_committed v.latest) ▸ hversioned⟩
  | writing hactive hreaders hlike =>
      rename_i s d
      have hplain := PlainZone.shows h.plain_proper (.writing s) fun s' hs' => by
        cases hs'
        exact hlike.overlay_proper
      rw [contentIn_writing, hlike.content, ← d.content_view] at hplain
      exact ⟨_, hplain, v.shows (.writing d) (hlike.view_proper h.toLike)⟩

theorem Simulates.mode_eq (h : p.Simulates a v b) : Access.mode a = Access.mode b := by
  cases h.paired <;> rfl

/-- While a writer is open, the two agree on what is in the working copy. -/
theorem Simulates.writing (h : p.Simulates a v b) (hopen : Access.mode a = .writing) :
    ∃ s d, a = .writing s ∧ b = .writing d ∧ s.Like p d v ∧
      ∀ s' d', s'.Like p d' v → p.Simulates (.writing s') v (.writing d') := by
  have hpaired := h.paired
  cases hpaired with
  | ended => cases hopen
  | reading => cases hopen
  | writing hactive hreaders hlike =>
      exact ⟨_, _, rfl, rfl, hlike, fun s' d' h' =>
        { h with paired := .writing hactive hreaders h' }⟩

/-! ### Ending -/

theorem Like.learn (h : p.Like v) (learned? : Option Name) :
    (p.learn learned?).Like (v.learn learned?) := by
  have hname : p.origin? = v.origin? := congrArg Origin.name? h.origin
  have hrelativize : p.relativize = v.relativize := congrArg Origin.relativize h.origin
  refine { h with origin := ?_ }
  change Origin.mk (p.origin?.or learned?) p.relativize = ⟨v.origin?.or learned?, v.relativize⟩
  rw [hname, hrelativize]

/-- A commit leaves the same content in both, under the same number. -/
theorem Like.install (h : p.Like v) {s : Staging} {d : Draft} (hlike : s.Like p d v)
    (hreaders : v.readers.toList = []) : (p.install s).Like (v.append d.version?).prune := by
  rw [PlainZone.install, hlike.changed_eq h, Draft.version?]
  cases d.changed with
  | false =>
      refine { h with older := ?_ }
      change VersionChain.dropOldest _ _ v.chain.older = []
      rw [h.older]
      rfl
  | true =>
      refine {
        origin := h.origin
        checksOrigin := h.checksOrigin
        alive := h.alive
        policy := h.policy
        older := ?_
        generation := ?_
        content := ?_
        plain_proper := Staging.proper_commit h.plain_proper _
        versioned_proper := WorkingCopy.proper_freeze hlike.copy_proper }
      · change (VersionChain.prune (v.chain.push d.working.freeze) v.policy v.readers).older = []
        rw [h.policy]
        refine VersionChain.older_prune_latest hreaders fun w hw => ?_
        rw [VersionChain.push, VersionChain.toList, h.older] at hw
        cases List.mem_singleton.mp hw
        change v.latest.id.val < d.working.id.val
        rw [hlike.id]
        exact Nat.lt_succ_self _
      · change p.generation.next = d.working.id
        rw [hlike.id, h.generation]
      · change NameMap.content (s.commit p.nodes p.generation.next).1 = d.working.freeze.content
        rw [Staging.content_commit, WorkingCopy.content_freeze, hlike.content]

/-- Once a writer has given write access back, nobody has it. -/
theorem Like.ended {p' : PlainZone} {v' : VersionedZone} (h : p'.Like v')
    (hlocked : p'.locked = false) (hhanded : v.admission.handedTo = none)
    (hwaiting : v.admission.waiting = []) (hadmission : v'.admission = v.admission.release)
    (hreaders : v'.readers.toList = []) : p'.Simulates .ended v' .ended := by
  rw [Admission.release, hwaiting] at hadmission
  refine { h with handedTo := ?_, waiting := ?_, paired := .ended hlocked ?_ hreaders }
  · rw [hadmission]
    exact hhanded
  · rw [hadmission]
  · rw [hadmission]

theorem Simulates.finish (h : p.Simulates a v b) (hopen : Access.mode a ≠ .ended) (commit : Bool)
    (learned? : Option Name) :
    (p.finish commit learned? a).1 = (v.finish commit learned? b).1 ∧
      (p.finish commit learned? a).2.Simulates .ended (v.finish commit learned? b).2 .ended := by
  have hpaired := h.paired
  cases hpaired with
  | ended => exact absurd rfl hopen
  | reading hlocked hactive hreaders =>
      rw [VersionedZone.finish, if_pos h.alive]
      have holder : (v.unpin v.latest.id).chain.older = [] := by
        change VersionChain.dropOldest _ _ v.chain.older = []
        rw [h.older]
        rfl
      exact ⟨rfl, { h with
        older := holder
        paired := .ended hlocked hactive (Readers.toList_unregister hreaders) }⟩
  | writing hactive hreaders hlike =>
      rename_i s d
      rw [VersionedZone.finish, if_pos h.alive]
      cases commit with
      | false =>
          have hlike' : p.unlock.Like v.release := { h.toLike with }
          exact ⟨rfl, hlike'.ended rfl h.handedTo h.waiting rfl hreaders⟩
      | true =>
          have hlearned : s.Like (p.learn learned?) d (v.learn learned?) := { hlike with }
          have hinstall := (h.toLike.learn learned?).install hlearned hreaders
          have hlike' : ((p.learn learned?).install s).unlock.Like (v.install d learned?) := by
            rw [VersionedZone.install_eq]
            revert hinstall
            -- whether the origin is learned before or after the version is added is the same
            cases d.version? <;> exact fun hinstall => { hinstall with }
          have hadmission : (v.install d learned?).admission = v.admission.release := by
            rw [VersionedZone.install_eq]
          have hkept : (v.install d learned?).readers = v.readers := by
            rw [VersionedZone.install_eq]
          exact ⟨rfl, hlike'.ended rfl h.handedTo h.waiting hadmission (hkept ▸ hreaders)⟩

/-! ### Starting -/

theorem Like.find?_eq (h : p.Like v) (n : Name) (key : SetKey) :
    p.find? n key = v.latest.find? n key := by
  have hplain : p.content.set? n key = p.find? n key := by
    rw [Content.set?, find?, node?, Option.bind_map]
    exact Option.bind_map ..
  have hversioned : v.latest.content.set? n key = v.latest.find? n key := by
    rw [← VersionedView.content_committed, ← VersionedView.find?_eq_set?]
    rfl
  rw [← hplain, ← hversioned, h.content]

/-- The only version of the one answers a query exactly if the other does. -/
theorem Like.select_eq (h : p.Like v) (query : VersionQuery) :
    v.select (some query) =
      if p.answers query then .ok v.latest else .error (.notFound query) := by
  have hchain : v.chain.toList = [v.latest] := by
    rw [VersionChain.toList, h.older]
    rfl
  cases query with
  | id id =>
      rw [VersionedZone.select, VersionChain.byId?, hchain, answers, h.generation]
      by_cases hid : v.latest.id = id
      · simp [hid]
      · simp [hid]
  | serial serial =>
      rw [VersionedZone.select, answers, soaSerial?, h.origin]
      cases v.origin.apex? with
      | none => rfl
      | some apex =>
          have hsoa : (v.latest.find? apex .soa).bind RecordSet.soaSerial? =
              v.latest.soaSerial? apex := rfl
          rw [Option.bind_some, Option.bind_some, VersionChain.bySerial?, hchain, h.find?_eq, hsoa]
          by_cases hserial : (v.latest.soaSerial? apex == some serial) = true
          · simp [hserial]
          · simp [hserial]

theorem Simulates.openReader (h : p.Simulates .ended v .ended) (query? : Option VersionQuery) :
    SameResult (fun o o' => o.2.Simulates o.1 o'.2 o'.1) (p.openReader query?)
      (v.openReader query?) := by
  have hpaired := h.paired
  cases hpaired with
  | ended hlocked hactive hreaders =>
      have hopened : p.Simulates .reading { v with readers := v.readers.register v.latest.id }
          (.reading v.latest) :=
        { h with paired := .reading hlocked hactive (Readers.toList_register hreaders _) }
      cases query? with
      | none => exact .ok hopened
      | some query =>
          rw [PlainZone.openReader, VersionedZone.openReader, VersionedZone.pin, h.select_eq]
          split
          · exact .ok hopened
          · exact .error _

theorem Simulates.openWriter? (h : p.Simulates .ended v .ended) (replacement : Bool) :
    ∃ o o', p.openWriter? replacement = some o ∧ v.openWriter? replacement = some o' ∧
      o.2.Simulates o.1 o'.2 o'.1 := by
  have hpaired := h.paired
  cases hpaired with
  | ended hlocked hactive hreaders =>
      have hfree : v.admission.isFree = true := by
        rw [Admission.isFree, hactive, h.handedTo, h.waiting]
        rfl
      have hlike := Staging.Like.untouched h.toLike replacement p.supply
      refine ⟨(.writing (.start replacement p.supply), { p with locked := true }),
        (v.begin replacement, { v with admission := { v.admission with active := true } }),
        ?_, ?_, { h with paired := .writing rfl hreaders { hlike with } }⟩
      · rw [PlainZone.openWriter?, hlocked]
        rfl
      · rw [VersionedZone.openWriter?, Admission.seize?, hfree]
        rfl

/-! ### Every operation keeps the zones alike -/

theorem hostBisimulation : HostBisimulation Simulates where
  mode h := h.mode_eq
  shows h hopen := h.shows hopen
  changed h hopen := by
    have hpaired := h.paired
    cases hpaired with
    | ended => exact absurd rfl hopen
    | reading => rfl
    | writing hactive hreaders hlike => exact hlike.changed_eq h.toLike
  put h hopen n s := by
    obtain ⟨s', d, rfl, rfl, hlike, hnext⟩ := h.writing hopen
    exact hnext _ _ (hlike.put h.toLike n s)
  eraseName h hopen n hn := by
    obtain ⟨s', d, rfl, rfl, hlike, hnext⟩ := h.writing hopen
    obtain ⟨c, hc, hc'⟩ := h.shows (by simp [hopen])
    rw [hc.contains_eq hc'] at hn
    exact hnext _ _ (hlike.eraseName (d.contains_working n ▸ hn))
  eraseSet h hopen n key hkey := by
    obtain ⟨s', d, rfl, rfl, hlike, hnext⟩ := h.writing hopen
    obtain ⟨c, hc, hc'⟩ := h.shows (by simp [hopen])
    rw [hc.find?_eq hc'] at hkey
    exact hnext _ _ (hlike.eraseSet h.toLike (d.find?_working n key ▸ hkey))
  clear h hopen := by
    obtain ⟨s', d, rfl, rfl, hlike, hnext⟩ := h.writing hopen
    exact hnext _ _ (hlike.clear h.toLike)
  finish h hopen commit learned? := h.finish hopen commit learned?
  ended h hended := by
    have hpaired := h.paired
    cases hpaired with
    | ended => exact h
    | reading => cases hended
    | writing => cases hended
  origin h := h.origin
  checksOrigin h := h.checksOrigin
  openReader h := h.openReader
  openWriter? h := h.openWriter?

theorem simulates_create (origin? : Option Name) (cls : RecordClass)
    (relativize checksOrigin : Bool) :
    (PlainZone.create origin? cls relativize checksOrigin).Simulates .ended
      (VersionedZone.create origin? cls relativize checksOrigin .latest) .ended where
  origin := rfl
  checksOrigin := rfl
  alive := rfl
  policy := rfl
  older := rfl
  generation := rfl
  content := rfl
  plain_proper _ _ h := by cases h
  versioned_proper _ _ h := by cases h
  handedTo := rfl
  waiting := rfl
  paired := .ended rfl rfl rfl

/-- Whatever transactions are run on a new plain zone and, one after another as well, on a new
versioned zone that keeps the latest version only, their callers learn the same, and after each of
them the generation of the one is the number of the latest version of the other. -/
theorem transcripts_agree_with_versioned (origin? : Option Name) (cls : RecordClass)
    (relativize checksOrigin : Bool) (scripts : List Script) :
    List.Forall₂ (fun x y => Transcript.Agree x.1 y.1 ∧ x.2.generation = y.2.latest.id)
      (Script.runAll (PlainZone.create origin? cls relativize checksOrigin) scripts)
      (Script.runAll (VersionedZone.create origin? cls relativize checksOrigin .latest)
        scripts) := by
  have hruns := hostBisimulation.runAll
    (simulates_create origin? cls relativize checksOrigin) scripts
  refine hruns.imp fun x y h => ?_
  obtain ⟨hagree, hsimulates⟩ := h
  exact ⟨hagree, hsimulates.generation⟩

end PlainZone

end DnsZone
