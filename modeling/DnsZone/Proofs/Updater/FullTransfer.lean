import DnsZone.Proofs.Ledger.Records
import DnsZone.Proofs.PlainZone.Storage
import DnsZone.Proofs.Sample
import DnsZone.Proofs.Traffic.SoleWriter
import DnsZone.Proofs.Updater.Tally
import DnsZone.Proofs.VersionedZone.Storage

/-!
# Full transfers

A full transfer deletes all records, adds those of the new zone and finishes with its start of
authority. Once all records are deleted, nothing that the zone held before has any influence: not on
which of the updates that follow are refused, and not on what the zone holds if they are all
accepted. Until then readers see what the zone held before.
-/

namespace DnsZone

/-! ### The content that is transferred -/

namespace SetTable

/-- Both tables hold the same. -/
def Same (m m' : SetTable) : Prop := ∀ n key, m.set? n key = m'.set? n key

/-- Merges a record into the record set of its key at its owner. -/
def mergeRecord (o : Origin) (m : SetTable) (r : Record) : SetTable :=
  match o.stored r.owner with
  | .error _ => m
  | .ok n =>
      m.put n r.data.key <|
        match m.set? n r.data.key with
        | none => .single r.ttl r.data
        | some old => old.merge (.single r.ttl r.data)

/-- Stores a record as the only one of its key at its owner. -/
def storeRecord (o : Origin) (m : SetTable) (r : Record) : SetTable :=
  match o.stored r.owner with
  | .error _ => m
  | .ok n => m.put n r.data.key (.single r.ttl r.data)

/-- Records merged in order into an empty zone, and then the start of authority in place of those at
its owner. -/
def transferred (o : Origin) (records : List Record) (soa : Record) : SetTable :=
  storeRecord o (records.foldl (mergeRecord o) .empty) soa

variable {m m' : SetTable}

theorem Same.put (h : m.Same m') (n : Name) (key : SetKey) (s : RecordSet) :
    Same (m.put n key s) (m'.put n key s) := by
  intro n' key'
  rw [set?_put, set?_put, h]

theorem Same.mergeRecord (h : m.Same m') (o : Origin) (r : Record) :
    Same (m.mergeRecord o r) (m'.mergeRecord o r) := by
  rw [SetTable.mergeRecord, SetTable.mergeRecord]
  split
  · exact h
  · rename_i n _
    rw [h n r.data.key]
    exact h.put n _ _

theorem Same.foldl_mergeRecord (h : m.Same m') (o : Origin) (records : List Record) :
    Same (records.foldl (SetTable.mergeRecord o) m)
      (records.foldl (SetTable.mergeRecord o) m') := by
  induction records generalizing m m' with
  | nil => exact h
  | cons r rest ih => exact ih (h.mergeRecord o r)

theorem Same.storeRecord (h : m.Same m') (o : Origin) (r : Record) :
    Same (m.storeRecord o r) (m'.storeRecord o r) := by
  rw [SetTable.storeRecord, SetTable.storeRecord]
  split
  · exact h
  · exact h.put _ _ _

end SetTable

namespace Ledger

variable {l : Ledger}

/-- The ledger `l'` is as `l` but for its table, which holds the same as `m`. -/
structure Tables (l : Ledger) (m : SetTable) (l' : Ledger) : Prop where
  origin : l'.origin = l.origin
  checks : l'.checks = l.checks
  table : l'.table.Same m

theorem edit_of_stored_eq_error {e : Edit} {n : Name} {f : Name → Ledger → Except ZoneError Ledger}
    (hnext : l.next e = l.atName n f) {fault : ZoneError} (hn : l.origin.stored n = .error fault) :
    (l.edit e).2 = l := by
  have herror : l.next e = .error fault := by
    rw [hnext, atName, hn]
    rfl
  rw [edit, herror]

theorem tables_addRecord (h : l.checks = {}) (r : Record) :
    l.Tables (l.table.mergeRecord l.origin r) (l.after (.addRecord r)) := by
  change l.Tables _ (l.edit (.addRecord r)).2
  rw [SetTable.mergeRecord]
  cases hn : l.origin.stored r.owner with
  | error fault =>
      rw [edit_of_stored_eq_error rfl hn]
      exact ⟨rfl, rfl, fun _ _ => rfl⟩
  | ok n =>
      obtain ⟨l', hl', hstores⟩ := add_of_unchecked h n r.ttl r.data
      rw [edit_of_atName rfl hn hl']
      refine ⟨hstores.origin, hstores.checks, fun n' key' => ?_⟩
      rw [hstores.set?_eq, SetTable.set?_put]
      rfl

theorem tables_finished (h : l.checks = {}) (r : Record) :
    l.Tables (l.table.storeRecord l.origin r) (l.after (.finished r)) := by
  change l.Tables _ (l.edit (.replace r.owner (.single r.ttl r.data))).2
  rw [SetTable.storeRecord]
  cases hn : l.origin.stored r.owner with
  | error fault =>
      rw [edit_of_stored_eq_error rfl hn]
      exact ⟨rfl, rfl, fun _ _ => rfl⟩
  | ok n =>
      rw [edit_of_atName rfl hn (put_of_unchecked h n r.data.key _)]
      exact ⟨rfl, rfl, fun _ _ => rfl⟩

end Ledger

/-! ### The updates of a full transfer -/

/-- Updates that replace the content of a zone by some records and a start of authority. -/
def Update.fullTransfer (records : List Record) (soa : Record) : List Update :=
  .deleteAllRecords :: (records.map .addRecord ++ [.finished soa])

theorem Update.isBoundary_of_mem_fullTransfer {records : List Record} {soa : Record}
    {update : Update} (h : update ∈ fullTransfer records soa) : update.isBoundary = false := by
  simp only [fullTransfer, List.mem_cons, List.mem_append, List.mem_map, List.not_mem_nil,
    or_false] at h
  rcases h with rfl | ⟨r, -, rfl⟩ | rfl <;> rfl

namespace Tally

/-- A transfer that is to replace all that was committed. -/
def cleared (terms : Terms) (committed : SetTable) : Tally :=
  ⟨terms, committed, some ⟨terms.origin, {}, .empty⟩⟩

variable {c : Tally} {l : Ledger}

theorem terms_applyAll (c : Tally) (updates : List Update) :
    (c.applyAll updates).2.terms = c.terms := by
  induction updates generalizing c with
  | nil => rfl
  | cons update rest ih =>
      refine (ih (c.apply update).2).trans ?_
      rw [apply]
      repeat' split
      all_goals rfl

/-- What was committed before has no influence on the results. -/
theorem applyAll_recommit (c : Tally) (m : SetTable) (updates : List Update) :
    (applyAll { c with committed := m } updates).1 = (c.applyAll updates).1 := by
  induction updates generalizing c m with
  | nil => rfl
  | cons update rest ih =>
      have happly : ∃ m', apply { c with committed := m } update =
          ((c.apply update).1, { (c.apply update).2 with committed := m' }) := by
        obtain ⟨terms, committed, ledger?⟩ := c
        rw [apply, apply]
        cases ledger? with
        | none => exact ⟨m, rfl⟩
        | some l =>
            simp only
            cases l.refusal? terms.cls update with
            | some fault => exact ⟨m, rfl⟩
            | none =>
                cases update.isLast with
                | false => exact ⟨m, rfl⟩
                | true =>
                    cases (l.after update).apexFault? terms.checksOrigin with
                    | some fault => exact ⟨m, rfl⟩
                    | none => exact ⟨_, rfl⟩
      obtain ⟨m', hm'⟩ := happly
      rw [applyAll, hm', applyAll, ih]

/-- If an update in the middle of a batch is accepted, it has edited the ledger. -/
theorem apply_of_ok (hl : c.ledger? = some l) {update : Update} (hlast : update.isLast = false)
    (hok : (c.apply update).1 = .ok ()) :
    (c.apply update).2 = { c with ledger? := some (l.after update) } := by
  rw [apply, hl] at hok ⊢
  simp only at hok ⊢
  cases hrefusal : l.refusal? c.terms.cls update with
  | some fault =>
      rw [hrefusal] at hok
      cases hok
  | none => simp only [hlast, Bool.false_eq_true, ↓reduceIte]

theorem apply_finished_of_ok (hl : c.ledger? = some l) {r : Record}
    (hok : (c.apply (.finished r)).1 = .ok ()) :
    (c.apply (.finished r)).2.committed = (l.after (.finished r)).table := by
  rw [apply, hl] at hok ⊢
  simp only [Update.isLast, ↓reduceIte] at hok ⊢
  cases hrefusal : l.refusal? c.terms.cls (.finished r) with
  | some fault =>
      rw [hrefusal] at hok
      cases hok
  | none =>
      simp only [hrefusal] at hok ⊢
      cases hapex : (l.after (.finished r)).apexFault? c.terms.checksOrigin with
      | some fault =>
          rw [hapex] at hok
          cases hok
      | none => rfl

/-- If they are all accepted, the records are merged in order. -/
theorem committed_of_all_ok (hl : c.ledger? = some l) (hchecks : l.checks = {})
    {records : List Record} {soa : Record}
    (hok : ∀ x ∈ (c.applyAll (records.map .addRecord ++ [.finished soa])).1, x = .ok ()) :
    SetTable.Same (c.applyAll (records.map .addRecord ++ [.finished soa])).2.committed
      (SetTable.storeRecord l.origin
        (records.foldl (SetTable.mergeRecord l.origin) l.table) soa) := by
  induction records generalizing c l with
  | nil =>
      have hlast := apply_finished_of_ok hl (hok _ List.mem_cons_self)
      rw [List.map_nil, List.nil_append, applyAll, applyAll, hlast]
      exact (l.tables_finished hchecks soa).table
  | cons r rest ih =>
      have hfirst := apply_of_ok hl rfl (hok _ List.mem_cons_self)
      have htables := l.tables_addRecord hchecks r
      rw [List.map_cons, List.cons_append, applyAll, hfirst] at hok ⊢
      have hrest := ih rfl (htables.checks.trans hchecks)
        fun x hx => hok x (List.mem_cons_of_mem _ hx)
      rw [htables.origin] at hrest
      intro n key
      rw [hrest n key]
      exact (htables.table.foldl_mergeRecord _ rest).storeRecord _ soa n key

end Tally

namespace Updater

variable {ζ τ : Type} [Access τ] [Host ζ τ]

/-- The updates are all accepted, and they leave the updater unfinished. -/
def Accepts (z : ζ) (u : Updater τ) (updates : List Update) : Prop :=
  (∀ p ∈ (u.applyAll z updates).1, p = .settled (.ok ())) ∧
    (u.applyAll z updates).2.1.isFinished = false

/-- None of the updates has ended the transfer and was accepted. -/
def IsUnderway (z : ζ) (u : Updater τ) (updates : List Update) : Prop :=
  ∀ e ∈ updates.zip (u.applyAll z updates).1, e.1.isLast = true → e.2 ≠ .settled (.ok ())

/-- The results of a full transfer after other updates. -/
def fullTransferResults (z : ζ) (u : Updater τ) (before : List Update) (records : List Record)
    (soa : Record) : List Progress :=
  (u.applyAll z (before ++ Update.fullTransfer records soa)).1.drop before.length

/-- The zone after a full transfer and updates before it. -/
def fullTransferZone (z : ζ) (u : Updater τ) (before : List Update) (records : List Record)
    (soa : Record) : ζ :=
  (u.applyAll z (before ++ Update.fullTransfer records soa)).2.2

/-- Full transfers to two zones cannot be told apart. -/
structure TransfersAlike (z : ζ) (u : Updater τ) (z' : ζ) (u' : Updater τ) : Prop where
  results_eq : ∀ before records soa, (∀ update ∈ before, update.isBoundary = false) →
    u.Accepts z before → u'.Accepts z' before →
      u.fullTransferResults z before records soa = u'.fullTransferResults z' before records soa
  content : ∀ before records soa, (∀ update ∈ before, update.isBoundary = false) →
    u.Accepts z before → u'.Accepts z' before →
      (∀ p ∈ u.fullTransferResults z before records soa, p = .settled (.ok ())) →
        Host.Shows (u.fullTransferZone z before records soa)
            (.transferred (Host.origin z) records soa) ∧
          Host.Shows (u'.fullTransferZone z' before records soa)
            (.transferred (Host.origin z) records soa)
  unseen : ∀ updates, (∀ update ∈ updates, update.isBoundary = false) →
    (u.IsUnderway z updates → Host.SeenAlike z (u.applyAll z updates).2.2) ∧
      (u'.IsUnderway z' updates → Host.SeenAlike z' (u'.applyAll z' updates).2.2)

theorem fullTransferResults_eq (z : ζ) (u : Updater τ) (before : List Update)
    (records : List Record) (soa : Record) :
    u.fullTransferResults z before records soa =
      ((u.applyAll z before).2.1.applyAll (u.applyAll z before).2.2
        (Update.fullTransfer records soa)).1 := by
  rw [fullTransferResults, applyAll_append, ← length_applyAll u z before, List.drop_left]

theorem fullTransferZone_eq (z : ζ) (u : Updater τ) (before : List Update)
    (records : List Record) (soa : Record) :
    u.fullTransferZone z before records soa =
      ((u.applyAll z before).2.1.applyAll (u.applyAll z before).2.2
        (Update.fullTransfer records soa)).2.2 := by
  rw [fullTransferZone, applyAll_append]

namespace Tallies

variable [DirectStore ζ] [Storage ζ τ] {z z' : ζ} {u u' : Updater τ} {c c' : Tally}

/-- An updater that is not finished carries a ledger of its own. -/
theorem exists_ledger (h : Tallies z u c) (hopen : u.isFinished = false) :
    ∃ l, c.ledger? = some l ∧ l.origin = c.terms.origin ∧ l.checks = {} := by
  have hwriter := h.writer
  cases hu : u.writer? with
  | none =>
      rw [isFinished, hu] at hopen
      cases hopen
  | some t =>
      rw [hu] at hwriter
      cases hl : c.ledger? with
      | none =>
          rw [hl] at hwriter
          cases hwriter
      | some l =>
          rw [hl] at hwriter
          obtain ⟨ht⟩ := hwriter
          exact ⟨l, rfl, ht.origin.trans (congrArg Terms.origin h.terms), ht.unchecked⟩

/-- Once all records were deleted, it does not matter what was there. -/
theorem applyAll_fullTransfer (h : Tallies z u c) (hopen : u.isFinished = false)
    (records : List Record) (soa : Record) :
    c.applyAll (Update.fullTransfer records soa) =
      (.ok () :: ((Tally.cleared c.terms c.committed).applyAll
          (records.map .addRecord ++ [.finished soa])).1,
        ((Tally.cleared c.terms c.committed).applyAll
          (records.map .addRecord ++ [.finished soa])).2) := by
  obtain ⟨l, hl, horigin, hchecks⟩ := h.exists_ledger hopen
  have hcleared : c.apply .deleteAllRecords = (.ok (), .cleared c.terms c.committed) := by
    rw [Tally.apply, hl, Tally.cleared, ← horigin, ← hchecks]
    rfl
  rw [Update.fullTransfer, Tally.applyAll, hcleared]

/-- A full transfer that is accepted leaves the content that was transferred. -/
theorem shows_fullTransfer (h : Tallies z u c) (hopen : u.isFinished = false)
    {records : List Record} {soa : Record}
    (hok : ∀ p ∈ (u.applyAll z (Update.fullTransfer records soa)).1, p = .settled (.ok ())) :
    Host.Shows (u.applyAll z (Update.fullTransfer records soa)).2.2
      (.transferred c.terms.origin records soa) := by
  obtain ⟨hresults, hlast⟩ := h.applyAll fun _ => Update.isBoundary_of_mem_fullTransfer
  refine Storage.shows hlast.sound fun n key => ?_
  rw [hlast.stored n key]
  rw [hresults, h.applyAll_fullTransfer hopen] at hok
  rw [h.applyAll_fullTransfer hopen]
  refine Tally.committed_of_all_ok (l := ⟨c.terms.origin, {}, .empty⟩) rfl rfl (fun x hx => ?_)
    n key
  have hsettled := hok (.settled x) (List.mem_map_of_mem (List.mem_cons_of_mem _ hx))
  exact Progress.settled.inj hsettled

/-- As long as the transfer is under way, readers see what was there before. -/
theorem spares_applyAll (h : Tallies z u c) {updates : List Update}
    (hboundary : ∀ update ∈ updates, update.isBoundary = false)
    (hunderway : u.IsUnderway z updates) : Storage.Spares z (u.applyAll z updates).2.2 := by
  induction updates generalizing z u c with
  | nil => exact h.spares_self
  | cons update rest ih =>
      have hagrees := h.agrees_apply (hboundary update List.mem_cons_self)
      have hspares : Storage.Spares z (u.apply z update).2.2 := by
        rcases hagrees.spares with ⟨hlast, hok⟩ | hspares
        · exact absurd hok (hunderway (update, (u.apply z update).1) List.mem_cons_self hlast)
        · exact hspares
      refine hspares.trans (ih hagrees.tallies
        (fun later hlater => hboundary later (List.mem_cons_of_mem update hlater)) fun e he => ?_)
      exact hunderway e (List.mem_cons_of_mem _ he)

/-- Updaters that tally with their zones transfer alike if the zones are on the same terms. -/
theorem transfersAlike (h : Tallies z u c) (h' : Tallies z' u' c') (hterms : c.terms = c'.terms) :
    TransfersAlike z u z' u' := by
  have horigin : Host.origin z = c.terms.origin := congrArg Terms.origin h.terms
  have hresults (before : List Update) (records : List Record) (soa : Record)
      (hboundary : ∀ update ∈ before, update.isBoundary = false) (haccepts : u.Accepts z before)
      (haccepts' : u'.Accepts z' before) :
      u.fullTransferResults z before records soa =
        u'.fullTransferResults z' before records soa := by
    obtain ⟨-, hbefore⟩ := h.applyAll hboundary
    obtain ⟨-, hbefore'⟩ := h'.applyAll hboundary
    have hunbounded : ∀ update ∈ Update.fullTransfer records soa, update.isBoundary = false :=
      fun _ => Update.isBoundary_of_mem_fullTransfer
    have hresults := (hbefore.applyAll hunbounded).1
    have hresults' := (hbefore'.applyAll hunbounded).1
    rw [fullTransferResults_eq, fullTransferResults_eq, hresults, hresults',
      hbefore.applyAll_fullTransfer haccepts.2, hbefore'.applyAll_fullTransfer haccepts'.2,
      Tally.terms_applyAll, Tally.terms_applyAll, hterms]
    exact congrArg (fun results => List.map Progress.settled (.ok () :: results))
      (Tally.applyAll_recommit (.cleared c'.terms (c'.applyAll before).2.committed) _ _)
  have hshows {z₁ : ζ} {u₁ : Updater τ} {c₁ : Tally} (h₁ : Tallies z₁ u₁ c₁)
      (before : List Update) (records : List Record) (soa : Record)
      (hboundary : ∀ update ∈ before, update.isBoundary = false)
      (haccepts : u₁.Accepts z₁ before)
      (hok : ∀ p ∈ u₁.fullTransferResults z₁ before records soa, p = .settled (.ok ())) :
      Host.Shows (u₁.fullTransferZone z₁ before records soa)
        (.transferred c₁.terms.origin records soa) := by
    obtain ⟨-, hbefore⟩ := h₁.applyAll hboundary
    rw [fullTransferResults_eq] at hok
    have hshows := hbefore.shows_fullTransfer haccepts.2 hok
    rw [Tally.terms_applyAll] at hshows
    rw [fullTransferZone_eq]
    exact hshows
  refine ⟨hresults, fun before records soa hboundary haccepts haccepts' hok => ?_,
    fun updates hboundary => ?_⟩
  · rw [horigin]
    refine ⟨hshows h before records soa hboundary haccepts hok, ?_⟩
    rw [hterms]
    refine hshows h' before records soa hboundary haccepts' ?_
    rw [← hresults before records soa hboundary haccepts haccepts']
    exact hok
  · exact ⟨fun hunderway => (h.spares_applyAll hboundary hunderway).seenAlike,
      fun hunderway => (h'.spares_applyAll hboundary hunderway).seenAlike⟩

/-- An updater that has just been started tallies with what it finds. -/
theorem ofWriter (hz : Storage.Sound z) {a : τ} (ha : Storage.Ready z a)
    (hfind : ∀ n key, Backend.find? z a n key = DirectStore.findSet? z n key) {m : SetTable}
    (hm : DirectStore.Has z m) :
    Tallies z (⟨some (.ofWriter a z), false⟩ : Updater τ)
      ⟨Host.terms z, m, some ⟨Host.origin z, {}, m⟩⟩ where
  sound := hz
  terms := rfl
  stored := hm
  writer := .some (Carries.ofWriter ha fun n key => (hfind n key).trans (hm n key))

end Tallies

end Updater

/-! ### Both kinds of zones -/

theorem VersionedZone.Sound.tallies {z : VersionedZone} (h : z.Sound) :
    Updater.Tallies z z.startUpdater
      ⟨Host.terms z, .ofListing z.latest.sets, some ⟨z.origin, {}, .ofListing z.latest.sets⟩⟩ :=
  .ofWriter h h.ready_begin (fun _ _ => rfl) z.has_latest

/-- An updater that is started on a plain zone tallies with what the zone holds. -/
theorem PlainZone.Sound.tallies {z z₁ : PlainZone} (h : z.Sound) {u : Updater PlainAccess}
    (hstart : Updater.start? z = some (u, z₁)) :
    Updater.Tallies z₁ u ⟨Host.terms z, .ofListing (z.setsIn .reading),
      some ⟨z.origin, {}, .ofListing (z.setsIn .reading)⟩⟩ := by
  obtain ⟨⟨t, z₂⟩, ht, heq⟩ := Option.map_eq_some_iff.mp hstart
  cases heq
  rw [writer?_eq] at ht
  split at ht
  · cases ht
  · cases ht
    have hlocked : Sound { z with locked := true } := ⟨h.proper, h.filled⟩
    refine .ofWriter hlocked (hlocked.ready_start false) (fun n key => ?_) z.has_nodes
    exact (z.find?_eq_bind n key).symm

namespace Updater

/-- A full transfer does not depend on what the zone held before: to two sound zones of the same
kind and on the same terms it goes alike, whatever they hold and whatever was transferred before. -/
theorem transfersAlike_of_terms_eq :
    (∀ z z' : VersionedZone, z.Sound → z'.Sound → Host.terms z = Host.terms z' →
      TransfersAlike z z.startUpdater z' z'.startUpdater) ∧
    ∀ z z' : PlainZone, z.Sound → z'.Sound → Host.terms z = Host.terms z' →
      ∀ u z₁ u' z₁', Updater.start? z = some (u, z₁) → Updater.start? z' = some (u', z₁') →
        TransfersAlike z₁ u z₁' u' :=
  ⟨fun _ _ hz hz' hterms => hz.tallies.transfersAlike hz'.tallies hterms,
    fun _ _ hz hz' hterms _ _ _ _ hstart hstart' =>
      (hz.tallies hstart).transfersAlike (hz'.tallies hstart') hterms⟩

namespace FullTransfer

open Sample (config host)
open SoleWriter (session)

/-- A record is added, and that is committed. -/
def calls : List Call := [.edit (.addData host .zero (.txt [])), .commit]

/-- A plain zone, empty but for what a writer has staged. -/
def plainZone (s : Staging) : PlainZone := PlainZone.install s config.emptyPlain

/-- What a writer of a plain zone stages that adds a record. -/
def staging : Staging := (Staging.start false 0).put host (.single .zero (.txt []))

theorem sound_plainZone {s : Staging} (hs : s.Solid .empty) : (plainZone s).Sound :=
  (PlainZone.sound_create ..).install hs

/-- Full transfers to an empty zone and to one that holds a record. -/
theorem transfersAlike_empty_filled :
    (config.usage []).zone.latest.nodes.keys = [] ∧
      (config.usage (session 0 calls)).zone.latest.nodes.keys = [host] ∧
      TransfersAlike (config.usage []).zone (config.usage []).zone.startUpdater
        (config.usage (session 0 calls)).zone (config.usage (session 0 calls)).zone.startUpdater ∧
      (plainZone (.start false 0)).nodes.keys = [] ∧ (plainZone staging).nodes.keys = [host] ∧
      ∀ u z₁ u' z₁', Updater.start? (plainZone (.start false 0)) = some (u, z₁) →
        Updater.start? (plainZone staging) = some (u', z₁') → TransfersAlike z₁ u z₁' u' := by
  have hstart : (Staging.start false 0).Solid .empty :=
    .start (fun _ _ _ h => by cases h) false 0
  exact ⟨rfl, rfl,
    transfersAlike_of_terms_eq.1 _ _ (VersionedZone.sound_usage config [])
      (VersionedZone.sound_usage config (session 0 calls)) rfl,
    rfl, rfl,
    transfersAlike_of_terms_eq.2 _ _ (sound_plainZone hstart)
      (sound_plainZone (hstart.put host rfl)) rfl⟩

end FullTransfer

end Updater

end DnsZone
