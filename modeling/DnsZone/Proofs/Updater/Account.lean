import Mathlib.Data.List.Induction
import DnsZone.Proofs.Traffic
import DnsZone.Proofs.Updater.Tally

/-!
# What a transfer has committed

An updater commits what it has made of the zone when it begins another batch, and with the last
update. An `Account` tells from what came of the updates which of them were committed: none, those
before the last batch that was begun, or all up to the last update. If nobody else writes to the
zone, its content is that of the beginning with those updates applied.
-/

namespace DnsZone

/-- The ledger after updates that were not refused. -/
def Ledger.afterAll (l : Ledger) (updates : List Update) : Ledger := updates.foldl after l

theorem Ledger.afterAll_concat (l : Ledger) (updates : List Update) (update : Update) :
    l.afterAll (updates ++ [update]) = (l.afterAll updates).after update := List.foldl_concat ..

namespace Updater

/-- An update and what came of it. -/
structure Entry where
  update : Update
  progress : Progress

namespace Entry

def isAccepted (e : Entry) : Bool :=
  match e.progress with
  | .settled (.error _) => false
  | _ => true

/-- Whether a batch has begun with the update. -/
def opensBatch (e : Entry) : Bool := e.isAccepted && e.update.batches

end Entry

/-- What there is to be told of a transfer so far. -/
structure Account where
  updates : List Update := []
  /-- Whether a batch has begun. -/
  batching : Bool := false
  /-- The updates that were committed. -/
  committed : List Update := []

namespace Account

/-- Another update has arrived. If it begins a batch and is not the first one to do so, the updates
before it are committed, and if it is the last one, it is committed with them. -/
def note (a : Account) (e : Entry) : Account where
  updates := a.updates ++ [e.update]
  batching := a.batching || e.opensBatch
  committed :=
    if e.isAccepted && e.update.isBoundary && a.batching then a.updates
    else if e.isAccepted && e.update.isLast then a.updates ++ [e.update]
    else a.committed

theorem note_refused (a : Account) (update : Update) (fault : ZoneError) :
    a.note ⟨update, .settled (.error fault)⟩ = { a with updates := a.updates ++ [update] } := by
  simp [note, Entry.opensBatch, Entry.isAccepted]

theorem note_edit (a : Account) {update : Update} (hboundary : update.isBoundary = false)
    (hlast : update.isLast = false) :
    a.note ⟨update, .settled (.ok ())⟩ =
      ⟨a.updates ++ [update], a.batching || update.batches, a.committed⟩ := by
  simp [note, Entry.opensBatch, Entry.isAccepted, hboundary, hlast]

theorem note_boundary (a : Account) (r : Record) {progress : Progress}
    (h : Entry.isAccepted ⟨.beginBatchDelete r, progress⟩ = true) :
    a.note ⟨.beginBatchDelete r, progress⟩ = ⟨a.updates ++ [.beginBatchDelete r], true,
      if a.batching then a.updates else a.committed⟩ := by
  simp [note, Entry.opensBatch, h, Update.isBoundary, Update.isLast, Update.batches]

theorem note_last (a : Account) (r : Record) :
    a.note ⟨.finished r, .settled (.ok ())⟩ =
      ⟨a.updates ++ [.finished r], a.batching, a.updates ++ [.finished r]⟩ := by
  simp [note, Entry.opensBatch, Entry.isAccepted, Update.isBoundary, Update.isLast, Update.batches]

/-- What there is to be told of a transfer with these entries. -/
def ofLog (log : List Entry) : Account := log.foldl note {}

theorem ofLog_concat (log : List Entry) (e : Entry) : ofLog (log ++ [e]) = (ofLog log).note e :=
  List.foldl_concat ..

theorem updates_ofLog (log : List Entry) : (ofLog log).updates = log.map Entry.update := by
  induction log using List.reverseRecOn with
  | nil => rfl
  | append_singleton log e ih =>
      rw [ofLog_concat, note, ih, List.map_append]
      rfl

theorem batching_ofLog (log : List Entry) : (ofLog log).batching = log.any Entry.opensBatch := by
  induction log using List.reverseRecOn with
  | nil => rfl
  | append_singleton log e ih =>
      rw [ofLog_concat, note, ih, List.any_append]
      simp

end Account

/-- The updates after which a transfer can have committed: none, those before another batch has
begun, or those up to the last update. -/
inductive CommitPoint : List Entry → List Update → Prop where
  | start (log : List Entry) : CommitPoint log []
  | boundary {before later : List Entry} {e : Entry} (haccepted : e.isAccepted = true)
      (hboundary : e.update.isBoundary = true) (hbatching : before.any Entry.opensBatch = true) :
      CommitPoint (before ++ e :: later) (before.map Entry.update)
  | last {before later : List Entry} {e : Entry} (haccepted : e.isAccepted = true)
      (hlast : e.update.isLast = true) :
      CommitPoint (before ++ e :: later) (before.map Entry.update ++ [e.update])

theorem CommitPoint.concat {log : List Entry} {p : List Update} (h : CommitPoint log p)
    (e : Entry) : CommitPoint (log ++ [e]) p := by
  cases h with
  | start => exact .start _
  | boundary haccepted hboundary hbatching =>
      rw [List.append_assoc]
      exact .boundary haccepted hboundary hbatching
  | last haccepted hlast =>
      rw [List.append_assoc]
      exact .last haccepted hlast

theorem Account.commitPoint_ofLog (log : List Entry) : CommitPoint log (ofLog log).committed := by
  induction log using List.reverseRecOn with
  | nil => exact .start _
  | append_singleton log e ih =>
      rw [ofLog_concat, note, updates_ofLog, batching_ofLog]
      split
      · rename_i h
        simp only [Bool.and_eq_true] at h
        exact .boundary h.1.1 h.1.2 h.2
      · split
        · rename_i h
          simp only [Bool.and_eq_true] at h
          exact .last h.1 h.2
        · exact ih.concat e

/-! ### Accounts are true of zones -/

variable {ζ τ : Type} [Access τ] [Host ζ τ] [DirectStore ζ] [Storage ζ τ]

/-- The account is true of an updater and its zone, if nobody else has written to the zone since it
was as the ledger says: the zone stores what was committed, and the writer finds what all updates
make of that. -/
structure Follows (l : Ledger) (a : Account) (z : ζ) (u : Updater τ) : Prop where
  sound : Storage.Sound z
  stored : DirectStore.Has z (l.afterAll a.committed).table
  batching : u.batching = a.batching
  carries : ∀ t, u.writer? = some t → t.isEnded = false → Carries z (l.afterAll a.updates) t
  /-- Between two batches all is committed. -/
  waiting : u.isWaiting = true → u.batching = true ∧
    ∃ m, l.afterAll a.updates = ⟨Host.origin z, {}, m⟩ ∧ DirectStore.Has z m

/-- The writer is started on a zone that stays as it was, and finds its record sets. -/
structure Starts (z : ζ) (t : Transaction τ) (z' : ζ) : Prop where
  sound : Storage.Sound z'
  terms : Host.terms z' = Host.terms z
  find?_eq : ∀ n key, DirectStore.findSet? z' n key = DirectStore.findSet? z n key
  exists_access : ∃ a, t = .ofWriter a z' ∧ Storage.Ready z' a ∧
    ∀ n key, Backend.find? z' a n key = DirectStore.findSet? z n key

theorem starts_of_writer? {z z' : ζ} {t : Transaction τ} (hz : Storage.Sound z)
    (h : Transaction.writer? false z = some (t, z')) : Starts z t z' := by
  rw [Transaction.writer?] at h
  split at h
  · cases h
  · rename_i a z₁ hopen
    cases h
    obtain ⟨hsound, hready, hterms, hfind, hfind'⟩ := Storage.opens hz hopen
    exact ⟨hsound, hterms, hfind', a, rfl, hready, hfind⟩

theorem Starts.has {z z' : ζ} {t : Transaction τ} (h : Starts z t z') {m : SetTable}
    (hm : DirectStore.Has z m) : DirectStore.Has z' m :=
  fun n key => (h.find?_eq n key).trans (hm n key)

/-- What is committed is stored. -/
theorem Carries.stores_of_commit {z z' : ζ} {l : Ledger} {t t' : Transaction τ}
    (hz : Storage.Sound z) (h : Carries z l t) (hcommit : t.commit z = (.ok (), t', z')) :
    Storage.Stores z l.table z' := by
  cases hfault : t.apexFault? z with
  | none =>
      obtain ⟨z₁, hok, hstores⟩ := h.commit_of_ok hz hfault
      cases hcommit.symm.trans hok
      exact hstores
  | some fault =>
      obtain ⟨z₁, herror, -⟩ := h.commit_of_fault hz hfault
      cases hcommit.symm.trans herror

/-- What is refused is not. -/
theorem Carries.spares_of_commit {z z' : ζ} {l : Ledger} {t t' : Transaction τ}
    (hz : Storage.Sound z) (h : Carries z l t) {fault : ZoneError}
    (hcommit : t.commit z = (.error fault, t', z')) : Storage.Spares z z' := by
  cases hfault : t.apexFault? z with
  | none =>
      obtain ⟨z₁, hok, -⟩ := h.commit_of_ok hz hfault
      cases hcommit.symm.trans hok
  | some fault' =>
      obtain ⟨z₁, herror, hspares⟩ := h.commit_of_fault hz hfault
      cases hcommit.symm.trans herror
      exact hspares

/-- A writer of a transfer goes by the origin of its zone and checks nothing. -/
theorem Carries.ledger_eq {z : ζ} {l : Ledger} {t : Transaction τ} (h : Carries z l t) :
    l = ⟨Host.origin z, {}, l.table⟩ := by
  obtain ⟨origin, checks, table⟩ := l
  have horigin : origin = Host.origin z := h.origin
  have hchecks : checks = {} := h.unchecked
  rw [horigin, hchecks]

/-- A writer that is started carries the record sets of the zone. -/
theorem Starts.carries {z z' : ζ} {t : Transaction τ} (h : Starts z t z') {m : SetTable}
    (hm : DirectStore.Has z m) : Carries z' ⟨Host.origin z, {}, m⟩ t := by
  obtain ⟨a, rfl, ha, hfind⟩ := h.exists_access
  have horigin : Host.origin z' = Host.origin z := congrArg Terms.origin h.terms
  rw [← horigin]
  exact .ofWriter ha fun n key => (hfind n key).trans (hm n key)

namespace Follows

variable {l : Ledger} {a : Account} {z z' : ζ} {u : Updater τ} {t : Transaction τ}

theorem persists (h : Follows l a z u) (hz : Storage.Persists z z') : Follows l a z' u where
  sound := hz.sound
  stored := hz.has h.stored
  batching := h.batching
  carries t ht hopen := by
    have hcarries := h.carries t ht hopen
    have hterms := hz.terms
    obtain ⟨hready, hfind⟩ := hz.ready t.access hcarries.accounts.good
    exact {
      accounts := {
        good := hready
        origin := hcarries.accounts.origin
        checks := hcarries.accounts.checks
        find?_eq := fun n key => (hfind n key).trans (hcarries.accounts.find?_eq n key) }
      origin := hcarries.origin.trans (congrArg Terms.origin hterms).symm
      unchecked := hcarries.unchecked
      originSet := hcarries.originSet
      checksOrigin := hcarries.checksOrigin.trans (congrArg Terms.checksOrigin hterms).symm }
  waiting hwaits := by
    obtain ⟨hbatching, m, hm, hhas⟩ := h.waiting hwaits
    refine ⟨hbatching, m, ?_, hz.has hhas⟩
    have horigin : Host.origin z' = Host.origin z := congrArg Terms.origin hz.terms
    rw [hm, horigin]

/-- The updater is finished, and nothing was committed. -/
theorem finish (h : Follows l a z u) (hz : Storage.Spares z z') (updates : List Update)
    (batching : Bool) : Follows l ⟨updates, batching, a.committed⟩ z' ⟨none, batching⟩ where
  sound := hz.sound
  stored := (hz.stores h.stored).has
  batching := rfl
  carries _ ht := by cases ht
  waiting hwaits := by cases hwaits

/-- The updater is finished, and all was committed. -/
theorem ofStores {committed : List Update}
    (hz : Storage.Stores z (l.afterAll committed).table z') (updates : List Update)
    (batching : Bool) : Follows l ⟨updates, batching, committed⟩ z' ⟨none, batching⟩ where
  sound := hz.sound
  stored := hz.has
  batching := rfl
  carries _ ht := by cases ht
  waiting hwaits := by cases hwaits

/-- The updater has an open writer. -/
theorem ofCarries {updates committed : List Update} (hz : Storage.Sound z)
    (hstored : DirectStore.Has z (l.afterAll committed).table)
    (ht : Carries z (l.afterAll updates) t) (batching : Bool) :
    Follows l ⟨updates, batching, committed⟩ z ⟨some t, batching⟩ where
  sound := hz
  stored := hstored
  batching := rfl
  carries t' ht' _ := by
    cases ht'
    exact ht
  waiting hwaits := by simp [isWaiting, ht.isEnded_eq hz] at hwaits

theorem start {m : SetTable} (hm : DirectStore.Has z m) (ht : Starts z t z') :
    Follows ⟨Host.origin z, {}, m⟩ {} z' ⟨some t, false⟩ := by
  refine .ofCarries ht.sound ?_ ?_ false
  · exact ht.has hm
  · exact ht.carries hm

/-- A waiting updater goes on. -/
theorem resume (h : Follows l a z u) (hwaits : u.isWaiting = true) (ht : Starts z t z') :
    Follows l a z' ⟨some t, true⟩ := by
  obtain ⟨hbatching, m, hm, hhas⟩ := h.waiting hwaits
  obtain ⟨updates, batching, committed⟩ := a
  have hbatching : batching = true := h.batching.symm.trans hbatching
  have hcarries := ht.carries hhas
  rw [← hm] at hcarries
  rw [hbatching]
  exact .ofCarries ht.sound (ht.has h.stored) hcarries true

theorem drop (h : Follows l a z u) : Follows l a (u.drop z) ⟨none, u.batching⟩ := by
  have hspares : Storage.Spares z (u.drop z) := by
    cases hw : u.writer? with
    | none =>
        rw [Updater.drop, abort, hw]
        exact .refl h.sound
    | some t =>
        rw [Updater.drop, abort, hw]
        cases hended : t.isEnded with
        | true =>
            change Storage.Spares z (t.drop z)
            rw [Transaction.drop_of_isEnded hended]
            exact .refl h.sound
        | false => exact (h.carries t hw hended).drop h.sound
  have hfinish := h.finish hspares a.updates u.batching
  rw [h.batching] at hfinish ⊢
  exact hfinish

/-- A finished updater commits nothing any more. -/
theorem receive_of_finished (h : Follows l a z u) (hu : u.writer? = none) (overtaken : Bool)
    (update : Update) :
    Follows l (a.note ⟨update, (u.receive overtaken z update).1⟩)
      (u.receive overtaken z update).2.2 (u.receive overtaken z update).2.1 := by
  have hspares : Storage.Spares z z := .refl h.sound
  rw [Updater.receive_of_finished hu, apply_of_finished hu]
  split
  · rename_i hfirst
    rw [Bool.and_eq_true, Bool.not_eq_true', h.batching] at hfirst
    cases update with
    | beginBatchDelete r =>
        rw [a.note_boundary r rfl, hfirst.2]
        exact h.finish hspares _ _
    | _ => cases hfirst.1
  · rw [a.note_refused]
    obtain ⟨writer?, batching⟩ := u
    cases hu
    have hbatching : batching = a.batching := h.batching
    rw [hbatching]
    exact h.finish hspares _ _

/-- An update arrives. -/
theorem receive (h : Follows l a z u) (hwaits : u.isWaiting = false) (overtaken : Bool)
    (update : Update) :
    Follows l (a.note ⟨update, (u.receive overtaken z update).1⟩)
      (u.receive overtaken z update).2.2 (u.receive overtaken z update).2.1 := by
  cases hw : u.writer? with
  | none => exact h.receive_of_finished hw overtaken update
  | some t =>
      have hopen : t.isEnded = false := by simpa [isWaiting, hw] using hwaits
      have ht := h.carries t hw hopen
      have hcourse := course_receive (z := z) hw overtaken update
      revert hcourse
      generalize u.receive overtaken z update = o
      rw [h.batching]
      intro hcourse
      cases hcourse with
      | refused =>
          rw [a.note_refused]
          exact h.finish (ht.drop h.sound) _ _
      | edited _ hboundary hlast =>
          have hedited := ht.edited h.sound update
          rw [← Ledger.afterAll_concat] at hedited
          rw [a.note_edit hboundary hlast]
          exact .ofCarries h.sound h.stored hedited _
      | @finished r result t₁ z₁ _ hcommit =>
          have hedited := ht.edited h.sound (.finished r)
          rw [← Ledger.afterAll_concat] at hedited
          cases result with
          | ok =>
              rw [a.note_last]
              exact .ofStores (hedited.stores_of_commit h.sound hcommit) _ _
          | error fault =>
              rw [a.note_refused]
              exact h.finish (hedited.spares_of_commit h.sound hcommit) _ _
      | @begun r hbatching =>
          rw [a.note_boundary r rfl, hbatching]
          refine .ofCarries h.sound h.stored ?_ _
          rw [Ledger.afterAll_concat]
          exact ht
      | @stopped r fault t₁ z₁ hbatching hcommit =>
          have hended := Transaction.isEnded_commit (Storage.mode_ended ζ) z t
          rw [hcommit] at hended
          rw [Transaction.drop_of_isEnded hended, a.note_refused, hbatching]
          exact h.finish (ht.spares_of_commit h.sound hcommit) _ _
      | @resumed r t₁ t₂ z₁ z₂ hbatching hcommit hnext =>
          have hstores := ht.stores_of_commit h.sound hcommit
          have hstarts := starts_of_writer? hstores.sound hnext
          have hnext := hstarts.carries hstores.has
          have horigin : Host.origin z₁ = Host.origin z := congrArg Terms.origin hstores.terms
          rw [horigin, ← ht.ledger_eq] at hnext
          rw [a.note_boundary r rfl, if_pos hbatching]
          refine .ofCarries hstarts.sound (hstarts.has hstores.has) ?_ _
          rw [Ledger.afterAll_concat]
          exact hnext
      | @waits r t₁ z₁ hbatching hcommit =>
          have hstores := ht.stores_of_commit h.sound hcommit
          have hended := Transaction.isEnded_commit (Storage.mode_ended ζ) z t
          have horigin : Host.origin z₁ = Host.origin z := congrArg Terms.origin hstores.terms
          rw [hcommit] at hended
          rw [a.note_boundary r rfl, if_pos hbatching]
          refine ⟨hstores.sound, hstores.has, rfl, fun t' ht' hopen' => ?_,
            fun _ => ⟨rfl, (l.afterAll a.updates).table, ?_, hstores.has⟩⟩
          · cases ht'
            rw [hended] at hopen'
            cases hopen'
          · rw [Ledger.afterAll_concat, horigin]
            exact ht.ledger_eq

end Follows

end Updater

end DnsZone
