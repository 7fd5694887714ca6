import DnsZone.Proofs.Storage
import DnsZone.Proofs.Updater.Course

/-!
# What comes of a transfer, told without the zone

A writer carries a ledger if it goes by the origin of the zone and finds just the record sets of the
ledger. Which updates of a transfer are refused can then be told from the ledger, and so can what a
commit leaves in the zone. A `Tally` keeps nothing but that: the record sets that the zone stores,
and the ledger of the present batch.
-/

namespace DnsZone

/-! ### What a ledger says of an update -/

namespace Ledger

/-- Why the update is refused, if it is. -/
def refusal? (cls : RecordClass) (l : Ledger) (update : Update) : Option ZoneError :=
  match update.fault? cls with
  | some fault => some fault
  | none => (l.editAll update.edits).1.findSome? fun
      | .error fault => some fault
      | .ok _ => none

/-- The ledger after an update that was not refused. -/
def after (l : Ledger) (update : Update) : Ledger := (l.editAll update.edits).2

/-- What keeps the record sets from being committed as a change, if anything. -/
def apexFault? (checks : Bool) (l : Ledger) : Option ZoneError :=
  if !checks then none
  else
    match l.origin.apex? with
    | none => some .noOrigin
    | some apex =>
        if (l.table.set? apex .soa).isNone then some .noSoa
        else if (l.table.set? apex .ns).isNone then some .noNs
        else none

end Ledger

namespace Transaction

variable {ζ τ : Type} [Access τ] [Backend ζ τ] {z : ζ} {t : Transaction τ}

/-- Only an edit that sets the origin changes anything but the state of a writer. -/
theorem exists_edit_eq {e : Edit} (he : ∀ origin, e ≠ .setOrigin origin) :
    ∃ a, (t.edit z e).2 = { t with access := a } := by
  cases hplan : t.plan z e with
  | error fault =>
      rw [edit, hplan]
      exact ⟨t.access, rfl⟩
  | ok r =>
      rw [edit_of_plan hplan]
      rcases plan_cases hplan with ⟨m, -, hat⟩ | ⟨-, hclear⟩ | ⟨origin, hset, -⟩
      · cases hr : r.1 with
        | nothing => exact ⟨t.access, rfl⟩
        | setOrigin origin =>
            rw [hr] at hat
            cases hat
        | _ => exact ⟨_, rfl⟩
      · rw [hclear]
        exact ⟨_, rfl⟩
      · exact absurd hset (he origin)

theorem exists_editAll_eq {edits : List Edit} (h : ∀ e ∈ edits, ∀ origin, e ≠ .setOrigin origin) :
    ∃ a, (t.editAll z edits).2 = { t with access := a } := by
  induction edits generalizing t with
  | nil => exact ⟨t.access, rfl⟩
  | cons e rest ih =>
      obtain ⟨a, ha⟩ := exists_edit_eq (z := z) (t := t) (h e List.mem_cons_self)
      obtain ⟨b, hb⟩ := ih (t := (t.edit z e).2) fun e' he' => h e' (List.mem_cons_of_mem e he')
      refine ⟨b, hb.trans ?_⟩
      rw [ha]

/-- To replace a set by one that is not empty is to store that one. -/
theorem exists_edit_replace_eq {n : Name} {s : RecordSet} (hs : s.isEmpty = false)
    {serial? : Option Serial} (h : (t.edit z (.replace n s)).1 = .ok serial?) :
    ∃ m, (t.edit z (.replace n s)).2 = t.apply (.put m s) := by
  cases hplan : t.plan z (.replace n s) with
  | error fault =>
      rw [edit, hplan] at h
      cases h
  | ok r =>
      obtain ⟨c, hc, rfl⟩ := map_eq_ok_iff.mp hplan
      obtain ⟨-, m, -, hc⟩ := exists_target hc
      rw [hs, if_neg Bool.false_ne_true] at hc
      refine ⟨m, ?_⟩
      rw [edit_of_plan hplan, planPut_eq_ok hc]

end Transaction

namespace Updater

variable {ζ τ : Type} [Access τ] [Host ζ τ] [DirectStore ζ] [Storage ζ τ]

/-- The writer of a transfer goes by the origin of the zone and finds the record sets of the
ledger. -/
structure Carries (z : ζ) (l : Ledger) (t : Transaction τ) : Prop where
  accounts : l.AccountsFor z (Storage.Ready z) t
  origin : l.origin = Host.origin z
  unchecked : l.checks = {}
  originSet : t.originSet = false
  checksOrigin : t.checksOrigin = Host.checksOrigin z

namespace Carries

variable {z : ζ} {l : Ledger} {t : Transaction τ}

/-- A writer that has just been started on a zone carries its record sets. -/
theorem ofWriter {a : τ} (ha : Storage.Ready z a) {m : SetTable}
    (hm : ∀ n key, Backend.find? z a n key = m.set? n key) :
    Carries z ⟨Host.origin z, {}, m⟩ (.ofWriter a z) :=
  ⟨⟨ha, rfl, rfl, hm⟩, rfl, rfl, rfl, rfl⟩

variable (hz : Storage.Sound z) (h : Carries z l t)
include hz h

theorem isEnded_eq : t.isEnded = false := by
  rw [Transaction.isEnded, (Storage.stages hz).writing h.accounts.good]
  rfl

/-- The ledger tells which updates are refused. -/
theorem refusal?_eq (update : Update) :
    refusal? z t update = l.refusal? (Host.cls z) update := by
  rewrite [refusal?, Ledger.refusal?, (h.accounts.editAll (Storage.stages hz) update.edits).1]
  rfl

theorem edited (update : Update) : Carries z (l.after update) (edited z t update) := by
  have haccounts := (h.accounts.editAll (Storage.stages hz) update.edits).2
  have hne : ∀ e ∈ update.edits, ∀ origin, e ≠ .setOrigin origin :=
    fun _ => Update.ne_setOrigin_of_mem_edits
  obtain ⟨a, ha⟩ := Transaction.exists_editAll_eq (z := z) (t := t) hne
  rw [Updater.edited]
  refine ⟨haccounts, ?_, ?_, ?_, ?_⟩
  · rw [Ledger.after, ← haccounts.origin, ha]
    exact h.accounts.origin.trans h.origin
  · rw [Ledger.after, ← haccounts.checks, ha]
    exact h.accounts.checks.trans h.unchecked
  · rw [ha]
    exact h.originSet
  · rw [ha]
    exact h.checksOrigin

/-! ### Ending -/

omit hz in
theorem close_eq (commit : Bool) : t.close commit z =
    ((Backend.finish commit none t.access z).1, { t with access := Access.ended },
      (Backend.finish commit none t.access z).2) := by
  rw [Transaction.close_eq, Transaction.learned?, h.originSet]
  rfl

theorem close_true : ∃ z', t.close true z = (.ok (), { t with access := Access.ended }, z') ∧
    Storage.Stores z l.table z' := by
  obtain ⟨z', hfinish, hsound, hterms, hfind⟩ := Storage.commits hz h.accounts.good none
  have hlearn : (Host.origin z).learn none = Host.origin z := by
    rw [Origin.learn, Option.or_none]
  rw [hlearn] at hterms
  refine ⟨z', ?_, hsound, hterms, fun n key => ?_⟩
  · rw [h.close_eq, hfinish]
  · rw [hfind, h.accounts.find?_eq]

theorem close_false : ∃ z', t.close false z = (.ok (), { t with access := Access.ended }, z') ∧
    Storage.Spares z z' := by
  obtain ⟨z', hfinish, hsound, hterms, halike, hfind⟩ :=
    Storage.discards hz h.accounts.good none
  refine ⟨z', ?_, hsound, hterms, halike, hfind⟩
  rw [h.close_eq, hfinish]

theorem drop : Storage.Spares z (t.drop z) := by
  obtain ⟨z', hclose, hspares⟩ := h.close_false hz
  rw [Transaction.drop, h.isEnded_eq hz, hclose]
  exact hspares

theorem commit_of_ok (hfault : t.apexFault? z = none) :
    ∃ z', t.commit z = (.ok (), { t with access := Access.ended }, z') ∧
      Storage.Stores z l.table z' := by
  obtain ⟨z', hclose, hstores⟩ := h.close_true hz
  refine ⟨z', ?_, hstores⟩
  rw [Transaction.commit, h.isEnded_eq hz, hfault]
  exact hclose

theorem commit_of_fault {fault : ZoneError} (hfault : t.apexFault? z = some fault) :
    ∃ z', t.commit z = (.error fault, { t with access := Access.ended }, z') ∧
      Storage.Spares z z' := by
  obtain ⟨z', hclose, hspares⟩ := h.close_false hz
  refine ⟨z', ?_, hspares⟩
  rw [Transaction.commit, h.isEnded_eq hz, hfault]
  simp only [Bool.false_eq_true, ↓reduceIte, hclose]

/-- The ledger tells whether changes can be committed. -/
theorem apexFault?_eq (hchanged : Backend.changed z t.access = true) :
    t.apexFault? z = l.apexFault? (Host.checksOrigin z) := by
  have hwriting := (Storage.stages hz).writing h.accounts.good
  have hreadOnly : t.isReadOnly = false := by
    rw [Transaction.isReadOnly, hwriting]
    rfl
  have hfind : Backend.find? z t.access = l.table.set? := funext₂ h.accounts.find?_eq
  rewrite [Transaction.apexFault?, Ledger.apexFault?, hreadOnly, hchanged, h.checksOrigin,
    h.accounts.origin, hfind, Bool.false_or, Bool.not_true, Bool.or_false]
  rfl

omit hz h in
/-- The last update of a transfer leaves something to be committed. -/
theorem changed_finished {r : Record} (ha : Storage.Ready z t.access)
    (hrefusal : Updater.refusal? z t (.finished r) = none) :
    Backend.changed z (Updater.edited z t (.finished r)).access = true := by
  rw [Updater.refusal?] at hrefusal
  split at hrefusal
  · cases hrefusal
  · have hresult : ∃ serial?,
        (t.edit z (.replace r.owner (.single r.ttl r.data))).1 = .ok serial? := by
      cases hedit : (t.edit z (.replace r.owner (.single r.ttl r.data))).1 with
      | ok serial? => exact ⟨serial?, rfl⟩
      | error fault =>
          simp only [Update.edits, Transaction.editAll, hedit] at hrefusal
          cases hrefusal
    obtain ⟨serial?, hserial⟩ := hresult
    obtain ⟨m, hm⟩ := Transaction.exists_edit_replace_eq (RecordSet.isEmpty_single _ _) hserial
    change Backend.changed z (t.edit z _).2.access = true
    rw [hm]
    exact Storage.changed_put ha m _

end Carries

end Updater

/-! ### The course of a transfer -/

/-- What a transfer has come to: what the zone stores, and what the writer of the present batch is
to make of it. -/
structure Tally where
  terms : Terms
  committed : SetTable
  /-- None once the updater is finished. -/
  ledger? : Option Ledger

namespace Tally

/-- The result of an update that begins no batch, and what it makes of the transfer. -/
def apply (c : Tally) (update : Update) : Except ZoneError Unit × Tally :=
  match c.ledger? with
  | none => (.error ((update.fault? c.terms.cls).getD .alreadyEnded), c)
  | some l =>
      match l.refusal? c.terms.cls update with
      | some fault => (.error fault, { c with ledger? := none })
      | none =>
          if update.isLast then
            match (l.after update).apexFault? c.terms.checksOrigin with
            | some fault => (.error fault, { c with ledger? := none })
            | none => (.ok (), { c with committed := (l.after update).table, ledger? := none })
          else (.ok (), { c with ledger? := some (l.after update) })

def applyAll (c : Tally) : List Update → List (Except ZoneError Unit) × Tally
  | [] => ([], c)
  | update :: rest =>
      let r := (c.apply update).2.applyAll rest
      ((c.apply update).1 :: r.1, r.2)

end Tally

namespace Updater

variable {ζ τ : Type} [Access τ] [Host ζ τ] [DirectStore ζ] [Storage ζ τ]

/-- The tally is true of an updater and its zone. -/
structure Tallies (z : ζ) (u : Updater τ) (c : Tally) : Prop where
  sound : Storage.Sound z
  terms : Host.terms z = c.terms
  stored : DirectStore.Has z c.committed
  writer : Option.Rel (fun t l => Carries z l t) u.writer? c.ledger?

namespace Tallies

variable {z : ζ} {u : Updater τ} {c : Tally} {update : Update}

theorem spares_self (h : Tallies z u c) : Storage.Spares z z := .refl h.sound

/-- The updater is finished, and nothing was committed. -/
theorem finish (h : Tallies z u c) {z' : ζ} (hspares : Storage.Spares z z') (batching : Bool) :
    Tallies z' (⟨none, batching⟩ : Updater τ) { c with ledger? := none } where
  sound := hspares.sound
  terms := hspares.terms.trans h.terms
  stored := (hspares.stores h.stored).has
  writer := .none

/-- What comes of an update that begins no batch is what the tally says. Only if it is the last one
and accepted anybody can tell from the zone that it was applied. -/
structure Agrees (z : ζ) (update : Update) (c : Tally) (o : Progress × Updater τ × ζ) : Prop where
  result : o.1 = .settled (c.apply update).1
  tallies : Tallies o.2.2 o.2.1 (c.apply update).2
  spares : update.isLast = true ∧ o.1 = .settled (.ok ()) ∨ Storage.Spares z o.2.2

/-- The last update was not refused, and the commit comes to an end. -/
theorem agrees_finished (h : Tallies z u c) {r : Record} {l : Ledger} {t : Transaction τ}
    (hl : c.ledger? = some l) (ht : Carries z l t) (hrefusal : refusal? z t (.finished r) = none)
    {result : Except ZoneError Unit} {t₁ : Transaction τ} {z₁ : ζ}
    (hcommit : (edited z t (.finished r)).commit z = (result, t₁, z₁)) :
    Agrees z (.finished r) c (.settled result, (⟨none, u.batching⟩ : Updater τ), z₁) := by
  have hcls : Host.cls z = c.terms.cls := congrArg Terms.cls h.terms
  have hchecks : Host.checksOrigin z = c.terms.checksOrigin := congrArg Terms.checksOrigin h.terms
  have hedited := ht.edited h.sound (.finished r)
  have hfault := hedited.apexFault?_eq h.sound (Carries.changed_finished
    ht.accounts.good hrefusal)
  rw [ht.refusal?_eq h.sound, hcls] at hrefusal
  rw [hchecks] at hfault
  cases hapex : (l.after (.finished r)).apexFault? c.terms.checksOrigin with
  | none =>
      have happly : c.apply (.finished r) =
          (.ok (), { c with committed := (l.after (.finished r)).table, ledger? := none }) := by
        simp only [Tally.apply, hl, hrefusal, hapex, Update.isLast, ↓reduceIte]
      obtain ⟨z', hok, hstores⟩ := hedited.commit_of_ok h.sound (hfault.trans hapex)
      cases hcommit.symm.trans hok
      refine ⟨by rw [happly], ?_, .inl ⟨rfl, rfl⟩⟩
      rw [happly]
      exact ⟨hstores.sound, hstores.terms.trans h.terms, hstores.has, .none⟩
  | some fault =>
      have happly : c.apply (.finished r) = (.error fault, { c with ledger? := none }) := by
        simp only [Tally.apply, hl, hrefusal, hapex, Update.isLast, ↓reduceIte]
      obtain ⟨z', herror, hspares⟩ := hedited.commit_of_fault h.sound (hfault.trans hapex)
      cases hcommit.symm.trans herror
      refine ⟨by rw [happly], ?_, .inr hspares⟩
      rw [happly]
      exact h.finish hspares _

theorem agrees_apply (h : Tallies z u c) (hboundary : update.isBoundary = false) :
    Agrees z update c (u.apply z update) := by
  have hcls : Host.cls z = c.terms.cls := congrArg Terms.cls h.terms
  have hwriter := h.writer
  cases hu : u.writer? with
  | none =>
      cases hl : c.ledger? with
      | some l =>
          rw [hu, hl] at hwriter
          cases hwriter
      | none =>
          have happly : c.apply update =
              (.error ((update.fault? c.terms.cls).getD .alreadyEnded), c) := by
            simp only [Tally.apply, hl]
          rw [apply_of_finished hu, hboundary]
          refine ⟨?_, ?_, .inr h.spares_self⟩
          · rw [happly, ← hcls]
            rfl
          · rw [happly]
            exact h
  | some t =>
      cases hl : c.ledger? with
      | none =>
          rw [hu, hl] at hwriter
          cases hwriter
      | some l =>
          rw [hu, hl] at hwriter
          obtain ⟨ht⟩ := hwriter
          have hrefusal := ht.refusal?_eq h.sound update
          rw [hcls] at hrefusal
          have hcourse := course_apply (z := z) hu update
          revert hcourse
          generalize u.apply z update = o
          intro hcourse
          cases hcourse with
          | @refused _ fault hrefused =>
              have happly : c.apply update = (.error fault, { c with ledger? := none }) := by
                simp only [Tally.apply, hl, ← hrefusal, hrefused]
              have hspares := ht.drop h.sound
              refine ⟨by rw [happly], ?_, .inr hspares⟩
              rw [happly]
              exact h.finish hspares _
          | edited haccepted _ hlast =>
              have happly : c.apply update =
                  (.ok (), { c with ledger? := some (l.after update) }) := by
                simp only [Tally.apply, hl, ← hrefusal, haccepted, hlast, Bool.false_eq_true,
                  ↓reduceIte]
              refine ⟨by rw [happly], ?_, .inr h.spares_self⟩
              rw [happly]
              exact ⟨h.sound, h.terms, h.stored, .some (ht.edited h.sound update)⟩
          | finished haccepted hcommit => exact h.agrees_finished hl ht haccepted hcommit
          | begun | stopped | resumed | waits => cases hboundary

/-- The results of updates that begin no batches are what the tally says. -/
theorem applyAll (h : Tallies z u c) {updates : List Update}
    (hboundary : ∀ update ∈ updates, update.isBoundary = false) :
    (u.applyAll z updates).1 = (c.applyAll updates).1.map .settled ∧
      Tallies (u.applyAll z updates).2.2 (u.applyAll z updates).2.1 (c.applyAll updates).2 := by
  induction updates generalizing z u c with
  | nil => exact ⟨rfl, h⟩
  | cons update rest ih =>
      have hagrees := h.agrees_apply (hboundary update List.mem_cons_self)
      obtain ⟨hresults, htallies⟩ :=
        ih hagrees.tallies fun later hlater => hboundary later (List.mem_cons_of_mem update hlater)
      exact ⟨congrArg₂ List.cons hagrees.result hresults, htallies⟩

end Tallies

end Updater

end DnsZone
