import DnsZone.Proofs.Updater.Conduct

/-!
# Zones to which transfers are applied

Any number of transfers can be under way to a zone while others use it. A `Crowd` is a zone of some
kind with all who use it through transactions, and a `Traffic` adds all updaters that were ever
started. An updater has at most one transaction at a time, and all it does is done through that:
`Traffic.Effect` says so of everything that can happen.
-/

namespace DnsZone

/-- An updater that waits for the writer of its next batch: that of the batch before has ended. -/
def Updater.isWaiting {τ : Type} [Access τ] (u : Updater τ) : Bool :=
  u.writer?.any Transaction.isEnded

/-- Whether the transaction is a writer that has not ended. -/
def Transaction.writes {τ : Type} [Access τ] (t : Transaction τ) : Bool :=
  Access.mode t.access = .writing

theorem Transaction.writes_of_isEnded {τ : Type} [Access τ] {t : Transaction τ}
    (h : t.isEnded = true) : t.writes = false := by
  rw [writes, of_decide_eq_true h]
  rfl

/-- A zone and all who use it through transactions, in actions that are an `α` each. -/
class Crowd (υ : Type) (ζ τ α : outParam Type) where
  zone : υ → ζ
  /-- The transactions that were ever started, but for those of updaters. -/
  txns : υ → List (Transaction τ)
  act : υ → α → υ
  /-- Whether an action makes only edits that are admitted. -/
  Admits : (Transaction τ → Edit → Prop) → υ → α → Prop
  /-- Starts a writer for an updater, unless it has to wait. -/
  enlist? : υ → Option (Transaction τ × υ)
  /-- An updater has left the zone as given. -/
  leave : ζ → υ → υ
  zone_leave (z : ζ) (u : υ) : zone (leave z u) = z
  txns_leave (z : ζ) (u : υ) : txns (leave z u) = txns u
  admits_of_forall {A : Transaction τ → Edit → Prop} (hA : ∀ t e, A t e) (u : υ) (a : α) :
    Admits A u a

/-- A zone, all who use it, and all updaters that were started on it. -/
structure Traffic (υ τ : Type) where
  users : υ
  updaters : List (Updater τ) := []

namespace Traffic

/-- What can happen. -/
inductive Event (α : Type) where
  | act (a : α)
  /-- An updater is started. -/
  | start
  /-- An update arrives at an updater. If `overtaken` holds and it has the updater commit a batch,
  somebody else is given write access before the next one. -/
  | update (k : Nat) (update : Update) (overtaken : Bool)
  /-- An updater that was waiting is given write access and goes on with the next batch. -/
  | resume (k : Nat)
  | drop (k : Nat)

variable {υ ζ τ α : Type} [Access τ] [Host ζ τ] [Crowd υ ζ τ α]

/-- The zone. -/
def zone (t : Traffic υ τ) : ζ := Crowd.zone t.users

/-- An updater has left the zone as `z`, and the updaters stand as given. -/
def leave (t : Traffic υ τ) (z : ζ) (updaters : List (Updater τ)) : Traffic υ τ :=
  ⟨Crowd.leave z t.users, updaters⟩

/-- What cannot happen has no effect: no update arrives at an updater that waits, and only such an
updater can go on. -/
def step (t : Traffic υ τ) : Event α → Traffic υ τ
  | .act a => ⟨Crowd.act t.users a, t.updaters⟩
  | .start =>
      match Crowd.enlist? t.users with
      | none => t
      | some (w, users) => ⟨users, t.updaters ++ [⟨some w, false⟩]⟩
  | .update k update overtaken =>
      match t.updaters[k]? with
      | none => t
      | some u =>
          if u.isWaiting then t
          else
            let o := u.receive overtaken t.zone update
            t.leave o.2.2 (t.updaters.set k o.2.1)
  | .resume k =>
      match t.updaters[k]?, Crowd.enlist? t.users with
      | some u, some (w, users) =>
          if u.isWaiting then ⟨users, t.updaters.set k ⟨some w, true⟩⟩ else t
      | _, _ => t
  | .drop k =>
      match t.updaters[k]? with
      | none => t
      | some u => t.leave (u.drop t.zone) (t.updaters.set k ⟨none, u.batching⟩)

def run (t : Traffic υ τ) (events : List (Event α)) : Traffic υ τ := events.foldl step t

/-- An event in which users make only edits that are admitted. -/
def Admits (A : Transaction τ → Edit → Prop) (t : Traffic υ τ) : Event α → Prop
  | .act a => Crowd.Admits A t.users a
  | _ => True

/-- Events in each of which users make only edits that are admitted when its turn comes. -/
def AdmitsAll (A : Transaction τ → Edit → Prop) (t : Traffic υ τ) : List (Event α) → Prop
  | [] => True
  | e :: rest => t.Admits A e ∧ (t.step e).AdmitsAll A rest

theorem admitsAll_of_forall {A : Transaction τ → Edit → Prop} (hA : ∀ t e, A t e)
    (t : Traffic υ τ) (events : List (Event α)) : t.AdmitsAll A events := by
  induction events generalizing t with
  | nil => trivial
  | cons e rest ih =>
      refine ⟨?_, ih _⟩
      cases e with
      | act a => exact Crowd.admits_of_forall hA t.users a
      | _ => trivial

/-- All transactions, those of updaters included. -/
def txns (t : Traffic υ τ) : List (Transaction τ) :=
  Crowd.txns t.users ++ t.updaters.filterMap Updater.writer?

theorem run_append (t : Traffic υ τ) (events later : List (Event α)) :
    t.run (events ++ later) = (t.run events).run later := List.foldl_append

/-! ### What can come of an event -/

/-- What an event can do: somebody else acts; an updater starts, does something through its open
writer, is finished without one, or goes on; or nothing happens. -/
inductive Effect (t : Traffic υ τ) : Event α → Traffic υ τ → Prop where
  | acts (a : α) : Effect t (.act a) ⟨Crowd.act t.users a, t.updaters⟩
  | stays {e : Event α} : Effect t e t
  | starts {e : Event α} {w : Transaction τ} {users : υ}
      (henlist : Crowd.enlist? t.users = some (w, users)) :
      Effect t e ⟨users, t.updaters ++ [⟨some w, false⟩]⟩
  | conducts {e : Event α} {k : Nat} {u u' : Updater τ} {w : Transaction τ} {z : ζ}
      (hu : t.updaters[k]? = some u) (hw : u.writer? = some w) (hopen : w.isEnded = false)
      (hconduct : Updater.Conduct t.zone w u'.writer? z) :
      Effect t e (t.leave z (t.updaters.set k u'))
  | idles {e : Event α} {k : Nat} {u u' : Updater τ} (hu : t.updaters[k]? = some u)
      (hidle : ∀ w ∈ u.writer?, w.isEnded = true) (hu' : u'.writer? = none) :
      Effect t e (t.leave t.zone (t.updaters.set k u'))
  | resumes {e : Event α} {k : Nat} {u : Updater τ} {w : Transaction τ} {users : υ}
      (hu : t.updaters[k]? = some u) (hwaits : u.isWaiting = true)
      (henlist : Crowd.enlist? t.users = some (w, users)) :
      Effect t e ⟨users, t.updaters.set k ⟨some w, true⟩⟩

theorem effect_step (hended : Access.mode (Access.ended : τ) = .ended) (t : Traffic υ τ)
    (e : Event α) : t.Effect e (t.step e) := by
  cases e with
  | act a => exact .acts a
  | start =>
      rw [step]
      split
      · exact .stays
      · exact .starts ‹_›
  | update k update overtaken =>
      rw [step]
      split
      · exact .stays
      · rename_i u hu
        split
        · exact .stays
        · rename_i hwaits
          cases hw : u.writer? with
          | none =>
              obtain ⟨hw', hzone⟩ := Updater.zone_receive_of_finished hw overtaken t.zone update
              simp only [hzone]
              exact .idles hu (by simp [hw]) hw'
          | some w =>
              have hopen : w.isEnded = false := by simpa [Updater.isWaiting, hw] using hwaits
              exact .conducts hu hw hopen
                ((Updater.course_receive hw overtaken update).conduct hended)
  | resume k =>
      rw [step]
      split
      · rename_i u w users hu henlist
        split
        · exact .resumes hu ‹_› henlist
        · exact .stays
      · exact .stays
  | drop k =>
      rw [step]
      split
      · exact .stays
      · rename_i u hu
        cases hw : u.writer? with
        | none =>
            have hzone : u.drop t.zone = t.zone := by rw [Updater.drop, Updater.abort, hw]
            rw [hzone]
            exact .idles hu (by simp [hw]) rfl
        | some w =>
            cases hopen : w.isEnded with
            | true =>
                have hzone : u.drop t.zone = t.zone := by
                  rw [Updater.drop, Updater.abort, hw]
                  exact Transaction.drop_of_isEnded hopen _
                rw [hzone]
                exact .idles hu (by simp [hw, hopen]) rfl
            | false =>
                have hconduct : Updater.Conduct t.zone w
                    (⟨none, u.batching⟩ : Updater τ).writer? (u.drop t.zone) :=
                  Updater.conduct_drop hw
                exact .conducts hu hw hopen hconduct

end Traffic

/-! ### All but one of the transactions -/

section Lists

variable {α τ : Type}

theorem perm_cons_eraseIdx {l : List α} {i : Nat} {a : α} (h : l[i]? = some a) :
    l.Perm (a :: l.eraseIdx i) := by
  obtain ⟨hi, rfl⟩ := List.getElem?_eq_some_iff.mp h
  exact (List.getElem_cons_eraseIdx_perm hi).symm

theorem perm_cons_set {l : List α} {i : Nat} {a : α} (h : l[i]? = some a) (b : α) :
    (a :: l.set i b).Perm (b :: l) := by
  have hi : i < l.length := (List.getElem?_eq_some_iff.mp h).1
  calc (a :: l.set i b).Perm (a :: b :: l.eraseIdx i) := (List.set_perm_cons_eraseIdx hi b).cons a
    _ |>.Perm (b :: a :: l.eraseIdx i) := .swap ..
    _ |>.Perm (b :: l) := (perm_cons_eraseIdx h).symm.cons b

theorem Updater.filterMap_writer?_cons (u : Updater τ) (us : List (Updater τ)) :
    (u :: us).filterMap Updater.writer? =
      u.writer?.toList ++ us.filterMap Updater.writer? := by
  cases hu : u.writer? with
  | none => rw [List.filterMap_cons_none hu, Option.toList_none, List.nil_append]
  | some t => rw [List.filterMap_cons_some hu, Option.toList_some, List.singleton_append]

end Lists

namespace Traffic

variable {υ ζ τ α : Type} [Crowd υ ζ τ α]

/-- All transactions but that of one updater. -/
def txnsBut (k : Nat) (t : Traffic υ τ) : List (Transaction τ) :=
  Crowd.txns t.users ++ (t.updaters.eraseIdx k).filterMap Updater.writer?

variable {t : Traffic υ τ} {k : Nat} {u : Updater τ}

theorem perm_txns (hu : t.updaters[k]? = some u) :
    t.txns.Perm (u.writer?.toList ++ t.txnsBut k) := by
  have hperm := (perm_cons_eraseIdx hu).filterMap Updater.writer?
  rw [Updater.filterMap_writer?_cons] at hperm
  exact (hperm.append_left _).trans (List.perm_append_comm_assoc ..)

theorem perm_txns_set (hu : t.updaters[k]? = some u) {users : υ}
    (husers : Crowd.txns users = Crowd.txns t.users) (u' : Updater τ) :
    (Traffic.mk users (t.updaters.set k u')).txns.Perm (u'.writer?.toList ++ t.txnsBut k) := by
  have hk : k < t.updaters.length := (List.getElem?_eq_some_iff.mp hu).1
  have hperm := (List.set_perm_cons_eraseIdx hk u').filterMap Updater.writer?
  rw [Updater.filterMap_writer?_cons] at hperm
  rw [txns, husers]
  exact (hperm.append_left _).trans (List.perm_append_comm_assoc ..)

/-- The transactions before and after an updater has come to stand otherwise. -/
theorem perm_append_txns_set (hu : t.updaters[k]? = some u) {users : υ}
    (husers : Crowd.txns users = Crowd.txns t.users) (u' : Updater τ) :
    (u.writer?.toList ++ (Traffic.mk users (t.updaters.set k u')).txns).Perm
      (u'.writer?.toList ++ t.txns) :=
  (((perm_txns_set hu husers u').append_left _).trans (List.perm_append_comm_assoc ..)).trans
    ((perm_txns hu).symm.append_left _)

theorem mem_txns_of_updater {w : Transaction τ} (hu : t.updaters[k]? = some u)
    (hw : u.writer? = some w) : w ∈ t.txns :=
  List.mem_append_right _ (List.mem_filterMap.mpr ⟨u, List.mem_of_getElem? hu, hw⟩)

end Traffic

end DnsZone
