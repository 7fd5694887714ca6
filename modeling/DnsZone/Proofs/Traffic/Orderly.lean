import DnsZone.Proofs.Updater.Account
import DnsZone.Proofs.Updater.Failure

/-!
# An updater among others

In an orderly crowd, what readers do concerns neither the content of the zone nor the writer that is
open on it. So if an updater is the only one to write to a zone, all that comes of the content of
the zone can be told from what came of its updates.
-/

namespace DnsZone

/-- What users do without starting writers concerns neither the content nor an updater, and an
updater that is given write access starts from the content. -/
class OrderlyCrowd (υ : Type) (ζ τ α : outParam Type) [Access τ] [Host ζ τ] [DirectStore ζ]
    [Storage ζ τ] [Crowd υ ζ τ α] where
  /-- Whether an action starts no writer. -/
  isQuiet : α → Bool
  quiet {u : υ} {a : α} (hz : Storage.Sound (Crowd.zone u))
    (hidle : ∀ w ∈ Crowd.txns u, w.writes = false) (ha : isQuiet a = true) :
    Storage.Persists (Crowd.zone u) (Crowd.zone (Crowd.act u a)) ∧
      ∀ w ∈ Crowd.txns (Crowd.act u a), w.writes = false
  starts {u u' : υ} {w : Transaction τ} (hz : Storage.Sound (Crowd.zone u))
    (henlist : Crowd.enlist? u = some (w, u')) :
    Updater.Starts (Crowd.zone u) w (Crowd.zone u')
  txns_enlist {u u' : υ} {w : Transaction τ} (henlist : Crowd.enlist? u = some (w, u')) :
    Crowd.txns u' = Crowd.txns u
  isReadOnly_enlist {u u' : υ} {w : Transaction τ} (henlist : Crowd.enlist? u = some (w, u')) :
    w.isReadOnly = false

namespace Traffic

open Updater (Entry Account Follows)

variable {υ ζ τ α : Type} [Access τ] [Host ζ τ] [DirectStore ζ] [Storage ζ τ] [Crowd υ ζ τ α]
  {t : Traffic υ τ}

/-! ### Updaters write -/

/-- No updater has a transaction that only reads. -/
def UpdatersWrite (t : Traffic υ τ) : Prop :=
  ∀ u ∈ t.updaters, ∀ w ∈ u.writer?, w.isReadOnly = false

section

variable [OrderlyCrowd υ ζ τ α]

theorem UpdatersWrite.step (h : t.UpdatersWrite) (e : Event α) : (t.step e).UpdatersWrite := by
  have hset {k : Nat} {u' : Updater τ} (hu' : ∀ w ∈ u'.writer?, w.isReadOnly = false) :
      ∀ u ∈ t.updaters.set k u', ∀ w ∈ u.writer?, w.isReadOnly = false := by
    intro u hu
    rcases List.mem_or_eq_of_mem_set hu with hu | rfl
    · exact h u hu
    · exact hu'
  have heffect := t.effect_step (Storage.mode_ended ζ) e
  generalize t.step e = t' at heffect ⊢
  cases heffect with
  | acts a => exact h
  | stays => exact h
  | starts henlist =>
      intro u hu
      rcases List.mem_append.mp hu with hu | hu
      · exact h u hu
      · cases List.mem_singleton.mp hu
        intro w hw
        cases hw
        exact OrderlyCrowd.isReadOnly_enlist henlist
  | conducts hu hw hopen hconduct =>
      exact hset (hconduct.isReadOnly_eq_false (h _ (List.mem_of_getElem? hu) _ hw))
  | idles hu hidle hu' =>
      refine hset fun w hw => ?_
      rw [hu'] at hw
      cases hw
  | resumes hu hwaits henlist =>
      refine hset fun w hw => ?_
      cases hw
      exact OrderlyCrowd.isReadOnly_enlist henlist

theorem UpdatersWrite.run (h : t.UpdatersWrite) (events : List (Event α)) :
    (t.run events).UpdatersWrite := by
  induction events generalizing t with
  | nil => exact h
  | cons e rest ih => exact ih (h.step e)

end

/-! ### What comes of the updates of one updater -/

/-- What comes of the update that arrives at updater `k` with an event, if one does. -/
def entries (k : Nat) (t : Traffic υ τ) : Event α → List Entry
  | .update j update overtaken =>
      match t.updaters[j]? with
      | none => []
      | some u =>
          if j ≠ k || u.isWaiting then []
          else [⟨update, (u.receive overtaken t.zone update).1⟩]
  | _ => []

/-- What comes of all updates that arrive at updater `k`. -/
def log (k : Nat) (t : Traffic υ τ) : List (Event α) → List Entry
  | [] => []
  | e :: rest => t.entries k e ++ (t.step e).log k rest

/-- Whether only updater `k` can start a writer with an event. -/
def Event.isQuiet (υ : Type) [Crowd υ ζ τ α] [OrderlyCrowd υ ζ τ α] (k : Nat) : Event α → Bool
  | .act a => OrderlyCrowd.isQuiet υ a
  | .start => false
  | .resume j => j = k
  | _ => true

/-- Nobody but updater `k` writes, and the account is true of it. -/
structure Alone (k : Nat) (l : Ledger) (a : Account) (t : Traffic υ τ) : Prop where
  users : ∀ w ∈ Crowd.txns t.users, w.writes = false
  others : ∀ j u, j ≠ k → t.updaters[j]? = some u → ∀ w ∈ u.writer?, w.isEnded = true
  follows : ∃ u, t.updaters[k]? = some u ∧ Follows l a t.zone u

namespace Alone

variable {k : Nat} {l : Ledger} {a a' : Account}

/-- Readers see what the only updater has committed. -/
theorem shows (h : t.Alone k l a) : Host.Shows t.zone (l.afterAll a.committed).table := by
  obtain ⟨u, -, hu⟩ := h.follows
  exact Storage.shows hu.sound hu.stored

/-- Updater `k` has come to stand otherwise. -/
theorem set (h : t.Alone k l a) {users : υ} (husers : Crowd.txns users = Crowd.txns t.users)
    {u : Updater τ} (hu : Follows l a' (Crowd.zone users) u) :
    Alone k l a' ⟨users, t.updaters.set k u⟩ where
  users := husers ▸ h.users
  others j u' hj hu' := by
    rw [List.getElem?_set_ne hj.symm] at hu'
    exact h.others j u' hj hu'
  follows := by
    obtain ⟨_, hk, -⟩ := h.follows
    exact ⟨u, List.getElem?_set_self (List.getElem?_eq_some_iff.mp hk).1, hu⟩

/-- Another updater is finished without having written. -/
theorem setOther (h : t.Alone k l a) {j : Nat} (hj : j ≠ k) {u : Updater τ}
    (hu : u.writer? = none) : (t.leave t.zone (t.updaters.set j u)).Alone k l a where
  users := (Crowd.txns_leave t.zone t.users).symm ▸ h.users
  others i u' hi hu' w hw := by
    by_cases hij : j = i
    · have hmem := List.mem_of_getElem? hu'
      rw [leave, ← hij, List.getElem?_set, if_pos rfl] at hu'
      split at hu'
      · cases hu'
        rw [hu] at hw
        cases hw
      · cases hu'
    · rw [leave, List.getElem?_set_ne hij] at hu'
      exact h.others i u' hi hu' w hw
  follows := by
    obtain ⟨v, hk, hv⟩ := h.follows
    refine ⟨v, (List.getElem?_set_ne hj).trans hk, ?_⟩
    change Follows l a (Crowd.zone (Crowd.leave t.zone t.users)) v
    rw [Crowd.zone_leave]
    exact hv

/-- Another updater at which updates can arrive is finished. -/
theorem writer?_eq_none (h : t.Alone k l a) {j : Nat} (hj : j ≠ k) {u : Updater τ}
    (hu : t.updaters[j]? = some u) (hwaits : u.isWaiting = false) : u.writer? = none := by
  cases hw : u.writer? with
  | none => rfl
  | some w =>
      have hended := h.others j u hj hu w hw
      simp [Updater.isWaiting, hw, hended] at hwaits

theorem update (h : t.Alone k l a) (j : Nat) (update : Update) (overtaken : Bool) :
    (t.step (.update j update overtaken)).Alone k l
      ((t.entries k (.update j update overtaken)).foldl Account.note a) := by
  obtain ⟨v, hk, hv⟩ := h.follows
  rw [Traffic.step, entries]
  cases hu : t.updaters[j]? with
  | none => exact h
  | some u =>
      cases hwaits : u.isWaiting with
      | true =>
          simp only [hwaits, Bool.or_true, ↓reduceIte]
          exact h
      | false =>
          simp only [hwaits, Bool.or_false, Bool.false_eq_true, ↓reduceIte]
          by_cases hj : j = k
          · subst hj
            cases hk.symm.trans hu
            simp only [ne_eq, not_true_eq_false, decide_false, Bool.false_eq_true, ↓reduceIte]
            refine h.set (Crowd.txns_leave _ _) ?_
            rw [Crowd.zone_leave]
            exact hv.receive hwaits overtaken update
          · obtain ⟨hw, hzone⟩ := Updater.zone_receive_of_finished
              (h.writer?_eq_none hj hu hwaits) overtaken t.zone update
            simp only [ne_eq, hj, not_false_eq_true, decide_true, ↓reduceIte, hzone]
            exact h.setOther hj hw

variable [OrderlyCrowd υ ζ τ α]

theorem step (h : t.Alone k l a) {e : Event α} (he : e.isQuiet υ k = true) :
    (t.step e).Alone k l ((t.entries k e).foldl Account.note a) := by
  obtain ⟨v, hk, hv⟩ := h.follows
  cases e with
  | act b =>
      obtain ⟨hpersists, hidle⟩ := OrderlyCrowd.quiet hv.sound h.users he
      exact ⟨hidle, h.others, v, hk, hv.persists hpersists⟩
  | start => cases he
  | update j update overtaken => exact h.update j update overtaken
  | resume j =>
      have hj : j = k := of_decide_eq_true he
      subst hj
      rw [Traffic.step]
      split
      · rename_i u w users hu henlist
        cases hk.symm.trans hu
        split
        · rename_i hwaits
          exact h.set (OrderlyCrowd.txns_enlist henlist)
            (hv.resume hwaits (OrderlyCrowd.starts hv.sound henlist))
        · exact h
      · exact h
  | drop j =>
      rw [Traffic.step]
      split
      · exact h
      · rename_i u hu
        by_cases hj : j = k
        · subst hj
          cases hk.symm.trans hu
          refine h.set (Crowd.txns_leave _ _) ?_
          rw [Crowd.zone_leave]
          exact hv.drop
        · have hzone : u.drop t.zone = t.zone := by
            rw [Updater.drop, Updater.abort]
            split
            · rfl
            · exact Transaction.drop_of_isEnded (h.others j u hj hu _ ‹_›) _
          rw [hzone]
          exact h.setOther hj rfl

theorem run (h : t.Alone k l a) {events : List (Event α)}
    (hevents : ∀ e ∈ events, e.isQuiet υ k = true) :
    (t.run events).Alone k l ((t.log k events).foldl Account.note a) := by
  induction events generalizing t a with
  | nil => exact h
  | cons e rest ih =>
      rw [log, List.foldl_append]
      exact ih (h.step (hevents e List.mem_cons_self)) fun e' he' =>
        hevents e' (List.mem_cons_of_mem e he')

end Alone

end Traffic

end DnsZone
