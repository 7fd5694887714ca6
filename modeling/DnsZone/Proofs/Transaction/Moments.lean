import DnsZone.Proofs.Transaction.Edited

/-!
# What happens while a transaction lives

A transaction lives from its start until it is dropped. Meanwhile calls are made on it, and others
do to the zone what they like. It ends in its zone once, by the first commit or rollback or else by
the drop, and that is all the effect it has.
-/

namespace DnsZone

/-! ### Moments -/

/-- What happens while a transaction lives. -/
inductive Moment (ζ : Type) where
  /-- A call is made on the transaction. -/
  | call (c : Call)
  /-- Others do something to the zone. -/
  | others (act : ζ → ζ)

/-- The zone after a moment in which the transaction has no effect. -/
def Moment.pass {ζ : Type} (z : ζ) : Moment ζ → ζ
  | .call _ => z
  | .others act => act z

/-- The zone after some moments in which the transaction has no effect. -/
def elapse {ζ : Type} (z : ζ) (moments : List (Moment ζ)) : ζ := moments.foldl Moment.pass z

/-- Whether the call reads, edits or ends. -/
def Call.isGuarded : Call → Bool
  | .query .status => false
  | .query _ => true
  | .edit _ => true
  | .commit => true
  | .rollback => true
  | _ => false

/-- The calls that end a transaction that has not ended yet. -/
def Call.isEnding : Call → Bool
  | .commit => true
  | .rollback => true
  | _ => false

/-- A change makes no difference to what a transaction may do, and one that has ended may do
nothing. -/
class LawfulAccess (τ : Type) [Access τ] : Prop where
  mode_apply (t : Transaction τ) (c : Change) :
    Access.mode (t.apply c).access = Access.mode t.access
  mode_ended : Access.mode (Access.ended : τ) = .ended

namespace Transaction

section

variable {ζ τ : Type} [Access τ] [Backend ζ τ]

/-- The transaction and its zone after a moment. -/
def meet (s : Transaction τ × ζ) : Moment ζ → Transaction τ × ζ
  | .call c => (s.1.call s.2 c).2
  | .others act => (s.1, act s.2)

def after (t : Transaction τ) (z : ζ) (moments : List (Moment ζ)) : Transaction τ × ζ :=
  moments.foldl meet (t, z)

/-- The zone after the transaction was dropped in the end. -/
def live (t : Transaction τ) (z : ζ) (moments : List (Moment ζ)) : ζ :=
  (t.after z moments).1.drop (t.after z moments).2

variable {z : ζ} {t : Transaction τ}

/-! ### After the end -/

/-- A transaction that may not be changed refuses all edits alike. -/
theorem call_edit_of_refused {fault : ZoneError} (h : t.requireWritable = .error fault)
    (e : Edit) : t.call z (.edit e) = (.error fault, t, z) := by
  rw [call, edit, plan_of_refused h]
  rfl

/-- The transaction refuses whatever is asked of it, and has no effect. -/
structure IsOver (z : ζ) (t : Transaction τ) : Prop where
  ended : t.isEnded = true
  refuses : ∀ c : Call, c.isGuarded = true → t.call z c = (.error .alreadyEnded, t, z)
  idle : ∀ c : Call, (t.call z c).2.2 = z
  drop : t.drop z = z

theorem isOver (h : t.isEnded = true) : t.IsOver z := by
  refine ⟨h, fun c hc => ?_, fun c => (call_of_ended h c).1, drop_of_isEnded h z⟩
  have hopen : t.requireOpen = .error .alreadyEnded := if_pos h
  have hwritable : t.requireWritable = .error .alreadyEnded := if_pos h
  cases c with
  | query q =>
      have hask : t.ask z q = .error .alreadyEnded := by
        cases q with
        | status => cases hc
        | recordSet n key => rw [ask, get, hopen]; rfl
        | node n => rw [ask, getNode, hopen]; rfl
        | nameExists n => rw [ask, nameExists, hopen]; rfl
        | changed => rw [ask, changed, hopen]; rfl
        | sets => rw [ask, sets, hopen]; rfl
        | names => rw [ask, names, sets, hopen]; rfl
      rw [call, hask]
  | edit e => exact call_edit_of_refused hwritable e
  | commit =>
      rw [call, commit, if_pos h]
      rfl
  | rollback =>
      rw [call, rollback, if_pos h]
      rfl
  | load => cases hc
  | checkPut => cases hc
  | checkDeleteSet => cases hc
  | checkDeleteName => cases hc

theorem after_of_ended (h : t.isEnded = true) (moments : List (Moment ζ)) :
    (t.after z moments).2 = elapse z moments ∧ (t.after z moments).1.isEnded = true := by
  induction moments generalizing t z with
  | nil => exact ⟨rfl, h⟩
  | cons m rest ih =>
      cases m with
      | others act => exact ih h
      | call c =>
          obtain ⟨hzone, hended⟩ := call_of_ended (z := z) h c
          obtain ⟨hrest, hlast⟩ := ih (z := (t.call z c).2.2) hended
          exact ⟨hrest.trans (congrArg (elapse · rest) hzone), hlast⟩

theorem live_of_ended (h : t.isEnded = true) (moments : List (Moment ζ)) :
    t.live z moments = elapse z moments := by
  obtain ⟨hzone, hended⟩ := after_of_ended (z := z) h moments
  rw [live, drop_of_isEnded hended, hzone]

variable [LawfulAccess τ]

theorem isEnded_call_of_ends {c : Call} (h : t.ends c = true) :
    (t.call z c).2.1.isEnded = true := by
  rw [call_of_ends h]
  exact decide_eq_true LawfulAccess.mode_ended

/-- A commit or rollback ends the transaction, whatever it returns. -/
theorem isEnded_of_isEnding {c : Call} (hc : c.isEnding = true) :
    (t.call z c).2.1.isEnded = true := by
  cases hopen : t.isEnded with
  | true => exact (call_of_ended hopen c).2
  | false =>
      refine isEnded_call_of_ends ?_
      cases c <;> simp_all [Call.isEnding, ends]

theorem isEnded_after {c : Call} (hc : c.isEnding = true) {moments : List (Moment ζ)}
    (h : .call c ∈ moments) : (t.after z moments).1.isEnded = true := by
  induction moments generalizing t z with
  | nil => cases h
  | cons m rest ih =>
      rcases List.mem_cons.mp h with rfl | hrest
      · exact (after_of_ended (isEnded_of_isEnding hc) rest).2
      · cases m with
        | call c' => exact ih hrest
        | others act => exact ih hrest

/-! ### The one end -/

/-- A call that does not end a transaction leaves it what it was and has no effect on its zone. -/
theorem call_of_open {c : Call} (h : t.ends c = false) :
    (t.call z c).2.2 = z ∧ Access.mode (t.call z c).2.1.access = Access.mode t.access ∧
      (Access.mode t.access ≠ .writing → (t.call z c).2.1.access = t.access) := by
  obtain ⟨hzone, hedited⟩ := call_of_not_ends (z := z) h
  exact ⟨hzone, hedited.mode_eq LawfulAccess.mode_apply,
    fun hmode => (hedited.of_not_writing hmode).1⟩

theorem isEnded_call {c : Call} (h : t.ends c = false) :
    (t.call z c).2.1.isEnded = t.isEnded := by
  rw [isEnded, (call_of_open h).2.1]
  rfl

/-- An open transaction ends in its zone once, at some moment or when it is dropped, and has no
other effect. It ends as what it was started as. -/
theorem live_of_open (hopen : t.isEnded = false) (moments : List (Moment ζ)) :
    ∃ first rest commit learned? access, moments = first ++ rest ∧
      t.live z moments = elapse (Backend.finish commit learned? access (elapse z first)).2 rest ∧
      Access.mode access = Access.mode t.access ∧
      (Access.mode t.access ≠ .writing → access = t.access) := by
  induction moments generalizing t z with
  | nil =>
      refine ⟨[], [], false, t.learned?, t.access, rfl, ?_, rfl, fun _ => rfl⟩
      change t.drop z = (t.close false z).2.2
      rw [drop, hopen]
      rfl
  | cons m rest ih =>
      cases m with
      | others act =>
          obtain ⟨first, last, commit, learned?, access, hmoments, hlive, hmode, hsame⟩ :=
            ih (z := act z) hopen
          exact ⟨.others act :: first, last, commit, learned?, access, congrArg _ hmoments, hlive,
            hmode, hsame⟩
      | call c =>
          change ∃ first last commit learned? access, _ ∧
            (t.call z c).2.1.live (t.call z c).2.2 rest = _ ∧ _
          cases hends : t.ends c with
          | true =>
              refine ⟨[.call c], rest, t.commits z c, t.learned?, t.access, rfl, ?_, rfl,
                fun _ => rfl⟩
              rw [live_of_ended (isEnded_call_of_ends hends), call_of_ends hends]
              rfl
          | false =>
              obtain ⟨hzone, hkeeps, haccess⟩ := call_of_open (z := z) hends
              have hopen' := (isEnded_call (z := z) hends).trans hopen
              obtain ⟨first, last, commit, learned?, access, hmoments, hlive, hmode, hsame⟩ :=
                ih (z := (t.call z c).2.2) hopen'
              refine ⟨.call c :: first, last, commit, learned?, access, congrArg _ hmoments, ?_,
                hmode.trans hkeeps, fun hwriting => ?_⟩
              · rw [hlive, hzone]
                rfl
              · rw [← haccess hwriting]
                exact hsame (by rwa [hkeeps])

/-- A transaction that is still open has had no effect yet, and is what it was started as. -/
theorem after_of_open {moments : List (Moment ζ)} (h : (t.after z moments).1.isEnded = false) :
    (t.after z moments).2 = elapse z moments ∧
      Access.mode (t.after z moments).1.access = Access.mode t.access := by
  induction moments generalizing t z with
  | nil => exact ⟨rfl, rfl⟩
  | cons m rest ih =>
      cases m with
      | others act => exact ih h
      | call c =>
          obtain ⟨hzone, hmode⟩ := ih (t := (t.call z c).2.1) (z := (t.call z c).2.2) h
          cases hends : t.ends c with
          | false =>
              obtain ⟨hcall, hkeeps, -⟩ := call_of_open (z := z) hends
              exact ⟨hzone.trans (congrArg (elapse · rest) hcall), hmode.trans hkeeps⟩
          | true =>
              have hover := isEnded_call_of_ends (z := z) hends
              have hlast := (after_of_ended (z := (t.call z c).2.2) hover rest).2
              exact absurd hlast (Bool.eq_false_iff.mp h)

end

end Transaction

end DnsZone
