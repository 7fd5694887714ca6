import DnsZone.Proofs.Transaction.Plan
import DnsZone.Transaction.Call

/-!
# What a call can do to a transaction

A call either ends the transaction in its zone or leaves the zone alone. In the latter case the
transaction after it is `Edited`: it comes from the one before by changes that fit what it saw, one
after another, and by setting checks. What such changes keep, every call keeps.
-/

namespace DnsZone.Transaction

variable {ζ τ : Type} [Access τ] [Backend ζ τ]

/-- The transaction `t'` comes from `t` by fitting changes. -/
inductive Edited (z : ζ) (t : Transaction τ) : Transaction τ → Prop where
  | refl : Edited z t t
  | apply {t' : Transaction τ} {c : Change} (h : Edited z t t')
      (hopen : Access.mode t'.access = .writing) (hfits : Fits z t' c) : Edited z t (t'.apply c)
  | check {t' : Transaction τ} (h : Edited z t t') (checks : Checks) :
      Edited z t { t' with checks := checks }

variable {z : ζ} {t t' t'' : Transaction τ}

theorem Edited.trans (h : Edited z t t') (h' : Edited z t' t'') : Edited z t t'' := by
  induction h' with
  | refl => exact h
  | apply _ hopen hfits ih => exact .apply ih hopen hfits
  | check _ checks ih => exact .check ih checks

/-- Only a writer can be changed. -/
theorem Edited.of_not_writing (h : Edited z t t') (hmode : Access.mode t.access ≠ .writing) :
    t'.access = t.access ∧ t'.origin = t.origin := by
  induction h with
  | refl => exact ⟨rfl, rfl⟩
  | apply _ hopen _ ih =>
      rw [ih.1] at hopen
      exact absurd hopen hmode
  | check _ _ ih => exact ih

/-- Editing keeps what a transaction may do, if every change does. -/
theorem Edited.mode_eq (happly : ∀ (t : Transaction τ) (c : Change),
    Access.mode (t.apply c).access = Access.mode t.access) (h : Edited z t t') :
    Access.mode t'.access = Access.mode t.access := by
  induction h with
  | refl => rfl
  | apply _ _ _ ih => exact (happly _ _).trans ih
  | check _ _ ih => exact ih

omit [Backend ζ τ] in
@[simp] theorem checksOrigin_apply (t : Transaction τ) (c : Change) :
    (t.apply c).checksOrigin = t.checksOrigin := by
  cases c <;> rfl

theorem edited_edit (z : ζ) (t : Transaction τ) (e : Edit) : Edited z t (t.edit z e).2 := by
  rw [edit]
  cases hplan : t.plan z e with
  | error fault => exact .refl
  | ok r =>
      obtain ⟨hopen, hfits⟩ := plan_eq_ok hplan
      exact .apply .refl hopen hfits

/-- Makes edits in order, whether those before were refused or not. -/
def editAll (z : ζ) (t : Transaction τ) :
    List Edit → List (Except ZoneError (Option Serial)) × Transaction τ
  | [] => ([], t)
  | e :: rest =>
      let r := (t.edit z e).2.editAll z rest
      ((t.edit z e).1 :: r.1, r.2)

theorem edited_editAll (z : ζ) (t : Transaction τ) (edits : List Edit) :
    Edited z t (t.editAll z edits).2 := by
  induction edits generalizing t with
  | nil => exact .refl
  | cons e rest ih => exact (edited_edit z t e).trans (ih _)

theorem edited_load (z : ζ) (cls : RecordClass) (t : Transaction τ) (records : List Record) :
    Edited z t (t.load z cls records).2 :=
  load_induction (fun t' _ h => h.trans (edited_edit z t' _))
    (fun t' _ _ h => h.trans (edited_edit z t' _)) .refl cls records

omit [Access τ] [Backend ζ τ] in
/-- The name that the zone is to take over as its origin if it has none. -/
def learned? (t : Transaction τ) : Option Name := if t.originSet then t.origin.name? else none

theorem close_eq (commit : Bool) (t : Transaction τ) (z : ζ) :
    t.close commit z = ((Backend.finish commit t.learned? t.access z).1,
      { t with access := Access.ended }, (Backend.finish commit t.learned? t.access z).2) := rfl

/-- Whether a call ends the transaction. -/
def ends (t : Transaction τ) : Call → Bool
  | .commit => !t.isEnded
  | .rollback => !t.isEnded
  | _ => false

/-- Whether a call commits what the transaction has changed. -/
def commits (z : ζ) (t : Transaction τ) : Call → Bool
  | .commit => !t.isEnded && (t.apexFault? z).isNone
  | _ => false

/-- Only what lacks nothing is committed. -/
theorem apexFault?_of_commits {c : Call} (h : t.commits z c = true) : t.apexFault? z = none := by
  cases c with
  | commit =>
      rw [commits, Bool.and_eq_true, Option.isNone_iff_eq_none] at h
      exact h.2
  | _ => cases h

omit [Backend ζ τ] in
theorem isEnded_of_ends {c : Call} (h : t.ends c = true) : t.isEnded = false := by
  cases c with
  | commit => simpa [ends] using h
  | rollback => simpa [ends] using h
  | _ => cases h

/-- A call that does not end the transaction leaves the zone alone. -/
theorem call_of_not_ends {c : Call} (h : t.ends c = false) :
    (t.call z c).2.2 = z ∧ Edited z t (t.call z c).2.1 := by
  cases c with
  | query q => exact ⟨rfl, .refl⟩
  | edit e => exact ⟨rfl, edited_edit z t e⟩
  | load cls records => exact ⟨rfl, edited_load z cls t records⟩
  | commit =>
      have hended : t.isEnded = true := by simpa [ends] using h
      rw [call, commit, if_pos hended]
      exact ⟨rfl, .refl⟩
  | rollback =>
      have hended : t.isEnded = true := by simpa [ends] using h
      rw [call, rollback, if_pos hended]
      exact ⟨rfl, .refl⟩
  | checkPut check => exact ⟨rfl, .check .refl _⟩
  | checkDeleteSet check => exact ⟨rfl, .check .refl _⟩
  | checkDeleteName check => exact ⟨rfl, .check .refl _⟩

/-- A call that ends the transaction closes it, committing or not. -/
theorem call_of_ends {c : Call} (h : t.ends c = true) :
    (t.call z c).2 = (t.close (t.commits z c) z).2 := by
  have hopen := isEnded_of_ends h
  cases c with
  | commit =>
      rw [call, commit, commits, hopen]
      cases t.apexFault? z with
      | none => rfl
      | some fault =>
          simp only [Bool.false_eq_true, ↓reduceIte, Option.isNone_some, Bool.and_false]
          generalize t.close false z = x
          obtain ⟨result, t', z'⟩ := x
          cases result <;> rfl
  | rollback =>
      rw [call, rollback, hopen]
      rfl
  | _ => cases h

/-- A commit ends the transaction, whatever comes of it. -/
theorem isEnded_commit (hended : Access.mode (Access.ended : τ) = .ended) (z : ζ)
    (t : Transaction τ) : (t.commit z).2.1.isEnded = true := by
  have hclosed (commit : Bool) : (t.close commit z).2.1.isEnded = true := decide_eq_true hended
  rw [commit]
  split
  · assumption
  · split
    · exact hclosed true
    · have hclose := hclosed false
      revert hclose
      generalize t.close false z = x
      obtain ⟨result, t', z'⟩ := x
      intro hclose
      cases result <;> exact hclose

theorem drop_of_isEnded (h : t.isEnded = true) (z : ζ) : t.drop z = z := if_pos h

/-- A transaction that has ended has no effect, and stays as it is. -/
theorem call_of_ended (h : t.isEnded = true) (c : Call) :
    (t.call z c).2.2 = z ∧ (t.call z c).2.1.isEnded = true := by
  have hends : t.ends c = false := by
    cases c <;> simp [ends, h]
  obtain ⟨hzone, hedited⟩ := call_of_not_ends (z := z) hends
  have hmode : Access.mode t.access ≠ .writing := by
    rw [of_decide_eq_true h]
    exact nofun
  refine ⟨hzone, ?_⟩
  rw [isEnded, (hedited.of_not_writing hmode).1]
  exact h

end DnsZone.Transaction
