import DnsZone.Proofs.PlainZone.Moves
import DnsZone.Proofs.Sample
import DnsZone.Proofs.Transaction.Flagged
import DnsZone.Proofs.VersionedZone.Moves

/-!
# The life of a transaction

Of all that is called on a transaction until it is dropped, only one end gets through to the zone,
be it a commit, a rollback or the final drop: a `Watched` zone puts down every end, and the list has
one entry. So a reader is counted off once and a writer gives access back once, however many others
wait for it. Once ended, a transaction refuses all calls and has no effect; a reader refuses all
edits.
-/

namespace DnsZone

/-! ### Watching a zone -/

/-- How a transaction was ended in its zone. -/
structure Ending (τ : Type) where
  commit : Bool
  learned? : Option Name
  access : τ

/-- A zone in which every end of a transaction is put down. -/
structure Watched (ζ τ : Type) where
  zone : ζ
  endings : List (Ending τ)

instance {ζ τ : Type} [Access τ] [Backend ζ τ] : Backend (Watched ζ τ) τ where
  find? w := Backend.find? w.zone
  node? w := Backend.node? w.zone
  contains w := Backend.contains w.zone
  sets w := Backend.sets w.zone
  changed w := Backend.changed w.zone
  finish commit learned? access w :=
    ((Backend.finish commit learned? access w.zone).1,
      ⟨(Backend.finish commit learned? access w.zone).2,
        w.endings ++ [⟨commit, learned?, access⟩]⟩)

/-- What others do to a watched zone. -/
def Moment.watched {ζ : Type} (τ : Type) : Moment ζ → Moment (Watched ζ τ)
  | .call c => .call c
  | .others act => .others fun w => { w with zone := act w.zone }

theorem elapse_watched {ζ τ : Type} (w : Watched ζ τ) (moments : List (Moment ζ)) :
    elapse w (moments.map (Moment.watched τ)) = ⟨elapse w.zone moments, w.endings⟩ := by
  induction moments generalizing w with
  | nil => rfl
  | cons m rest ih => cases m <;> exact ih _

namespace Transaction

section

variable {ζ τ : Type} [Access τ] [Backend ζ τ] {t : Transaction τ}

theorem edit_watched (w : Watched ζ τ) (t : Transaction τ) (e : Edit) :
    t.edit w e = t.edit w.zone e := by
  have hplan : t.plan w e = t.plan w.zone e := by
    cases e <;> rfl
  rw [edit, edit, hplan]

theorem load_watched (w : Watched ζ τ) (cls : RecordClass) (t : Transaction τ)
    (records : List Record) : t.load w cls records = t.load w.zone cls records := by
  induction records generalizing t with
  | nil => rfl
  | cons r rest ih => simp only [load, edit_watched, ih]

/-- The outcome for a watched zone, without what was put down. -/
def Outcome.unwatched {α : Type} (o : Outcome (Watched ζ τ) τ α) : Outcome ζ τ α :=
  (o.1, o.2.1, o.2.2.zone)

theorem rollback_watched (w : Watched ζ τ) (t : Transaction τ) :
    (t.rollback w).unwatched = t.rollback w.zone := by
  rw [rollback, rollback]
  cases t.isEnded <;> rfl

theorem commit_watched (w : Watched ζ τ) (t : Transaction τ) :
    (t.commit w).unwatched = t.commit w.zone := by
  have hfault : t.apexFault? w = t.apexFault? w.zone := rfl
  rw [commit, commit, hfault]
  cases t.isEnded with
  | true => rfl
  | false =>
      cases t.apexFault? w.zone with
      | none => rfl
      | some fault =>
          simp only [close_eq]
          have hfinish : (Backend.finish false t.learned? t.access w).1 =
              (Backend.finish false t.learned? t.access w.zone).1 := rfl
          rw [hfinish]
          cases (Backend.finish false t.learned? t.access w.zone).1 <;> rfl

/-- Watching a zone changes nothing about it. -/
theorem call_watched (w : Watched ζ τ) (t : Transaction τ) (c : Call) :
    (t.call w c).unwatched = t.call w.zone c := by
  cases c with
  | query q => cases q <;> rfl
  | edit e =>
      rw [call, call, edit_watched]
      rfl
  | load cls records =>
      rw [call, call, load_watched]
      rfl
  | commit =>
      rw [call, call, ← commit_watched]
      rfl
  | rollback =>
      rw [call, call, ← rollback_watched]
      rfl
  | checkPut check => rfl
  | checkDeleteSet check => rfl
  | checkDeleteName check => rfl

theorem after_watched (w : Watched ζ τ) (t : Transaction τ) (moments : List (Moment ζ)) :
    ((t.after w (moments.map (Moment.watched τ))).1,
      (t.after w (moments.map (Moment.watched τ))).2.zone) = t.after w.zone moments := by
  induction moments generalizing t w with
  | nil => rfl
  | cons m rest ih =>
      cases m with
      | others act => exact ih ⟨act w.zone, w.endings⟩ t
      | call c =>
          have hcall := congrArg Prod.snd (call_watched w t c)
          have hrest := ih (t.call w c).2.2 (t.call w c).2.1
          change (_, _) = (t.call w.zone c).2.1.after (t.call w.zone c).2.2 rest
          rw [← hcall]
          exact hrest

theorem live_watched (w : Watched ζ τ) (t : Transaction τ) (moments : List (Moment ζ)) :
    (t.live w (moments.map (Moment.watched τ))).zone = t.live w.zone moments := by
  rw [live, live, ← after_watched]
  unfold drop
  split <;> rfl

/-! ### A whole life -/

/-- What becomes of a transaction that is open when some moments begin, and is dropped after
them. -/
structure LivesOnce (z : ζ) (t : Transaction τ) (moments : List (Moment ζ)) : Prop where
  /-- One end is put down, of a transaction that may do what this one could. -/
  once : ∃ e, t.live ⟨z, []⟩ (moments.map (Moment.watched τ)) = ⟨t.live z moments, [e]⟩ ∧
    Access.mode e.access = Access.mode t.access
  /-- That is so as well if the transaction goes by a flag of its own. -/
  flagged : ∀ w : Watched ζ τ, (Flagged.mk false t).live w (moments.map (Moment.watched τ)) =
    t.live w (moments.map (Moment.watched τ))
  untouched : (t.after z moments).1.isEnded = false → (t.after z moments).2 = elapse z moments
  /-- From the first commit or rollback on, whatever it returned. -/
  finished : ∀ c : Call, c.isEnding = true → .call c ∈ moments →
    (t.after z moments).1.IsOver (t.after z moments).2
  /-- A reader refuses all edits, until it has ended. -/
  immutable : Access.mode t.access = .reading → (t.after z moments).1.isEnded = false →
    ∀ e : Edit, (t.after z moments).1.call (t.after z moments).2 (.edit e) =
      (.error .immutable, t.after z moments)

theorem livesOnce [LawfulAccess τ] (hopen : t.isEnded = false) (z : ζ)
    (moments : List (Moment ζ)) : t.LivesOnce z moments where
  once := by
    obtain ⟨first', rest', commit, learned?, access, hmoments, hlive, hmode, -⟩ :=
      live_of_open (z := (⟨z, []⟩ : Watched ζ τ)) hopen (moments.map (Moment.watched τ))
    obtain ⟨first, rest, rfl, rfl, rfl⟩ := List.map_eq_append_iff.mp hmoments
    have hzone := live_watched ⟨z, []⟩ t (first ++ rest)
    rw [hlive, elapse_watched, elapse_watched] at hzone
    refine ⟨⟨commit, learned?, access⟩, ?_, hmode⟩
    rw [hlive, elapse_watched, elapse_watched, ← hzone]
    rfl
  flagged w := by
    have hsame := Flagged.live_ofTxn (t := t) (z := w) (moments.map (Moment.watched τ))
    rw [Flagged.ofTxn, hopen] at hsame
    exact hsame
  untouched h := (after_of_open h).1
  finished _ hc hmem := isOver (isEnded_after hc hmem)
  immutable hmode h e := by
    have hreading := (after_of_open h).2.trans hmode
    refine call_edit_of_refused ?_ e
    rw [requireWritable, h, isReadOnly, hreading]
    rfl

end

end Transaction

/-! ### Both kinds of zones -/

instance : LawfulAccess VersionedAccess := ⟨VersionedZone.mode_apply, rfl⟩

instance : LawfulAccess PlainAccess := ⟨PlainZone.mode_apply, rfl⟩

namespace VersionedZone

/-- A reader is counted off once, and a writer gives access back once. An end in a zone that is no
more has no effect. -/
structure EndsOnce (z : VersionedZone) (t : Txn) (moments : List (Moment VersionedZone)) : Prop
    extends t.LivesOnce z moments where
  reader : ∀ v, t.access = .reading v → ∃ first rest, moments = first ++ rest ∧
    t.live z moments = elapse (if (elapse z first).alive then (elapse z first).unpin v.id
      else elapse z first) rest
  writer : ∀ d, t.access = .writing d → ∃ first rest z', moments = first ++ rest ∧
    t.live z moments = elapse z' rest ∧ z'.readers = (elapse z first).readers ∧
    z'.admission = if (elapse z first).alive then (elapse z first).admission.release
      else (elapse z first).admission

theorem finish_of_writing (z : VersionedZone) (commit : Bool) (learned? : Option Name)
    (d : Draft) :
    (z.finish commit learned? (.writing d)).2.readers = z.readers ∧
      (z.finish commit learned? (.writing d)).2.admission =
        if z.alive then z.admission.release else z.admission := by
  rw [finish]
  split
  · cases commit with
    | true =>
        change (z.install d learned?).readers = _ ∧ (z.install d learned?).admission = _
        rw [install_eq]
        exact ⟨rfl, rfl⟩
    | false => exact ⟨rfl, rfl⟩
  · exact ⟨rfl, rfl⟩

theorem endsOnce (z : VersionedZone) {t : Txn} (h : t.isEnded = false)
    (moments : List (Moment VersionedZone)) : z.EndsOnce t moments where
  toLivesOnce := Transaction.livesOnce h z moments
  reader v hv := by
    obtain ⟨first, rest, commit, learned?, access, hmoments, hlive, -, hsame⟩ :=
      Transaction.live_of_open (z := z) h moments
    have haccess : access = .reading v := (hsame (by rw [hv]; exact nofun)).trans hv
    refine ⟨first, rest, hmoments, ?_⟩
    rw [hlive, haccess]
    change elapse ((elapse z first).finish commit learned? (.reading v)).2 rest = _
    rw [finish]
    split <;> rfl
  writer d hd := by
    obtain ⟨first, rest, commit, learned?, access, hmoments, hlive, hmode, -⟩ :=
      Transaction.live_of_open (z := z) h moments
    rw [hd] at hmode
    obtain ⟨d', rfl⟩ := exists_draft hmode
    obtain ⟨hreaders, hadmission⟩ := (elapse z first).finish_of_writing commit learned? d'
    exact ⟨first, rest, _, hmoments, hlive, hreaders, hadmission⟩

end VersionedZone

namespace PlainZone

/-- A reader has no effect at all, and a writer gives up the lock once. -/
structure EndsOnce (z : PlainZone) (t : Transaction PlainAccess)
    (moments : List (Moment PlainZone)) : Prop extends t.LivesOnce z moments where
  reader : t.access = .reading → t.live z moments = elapse z moments
  writer : ∀ s, t.access = .writing s → ∃ first rest z', moments = first ++ rest ∧
    t.live z moments = elapse z' rest ∧ z'.locked = false

theorem endsOnce (z : PlainZone) {t : Transaction PlainAccess} (h : t.isEnded = false)
    (moments : List (Moment PlainZone)) : z.EndsOnce t moments where
  toLivesOnce := Transaction.livesOnce h z moments
  reader hr := by
    obtain ⟨first, rest, commit, learned?, access, rfl, hlive, -, hsame⟩ :=
      Transaction.live_of_open (z := z) h moments
    have haccess : access = .reading := (hsame (by rw [hr]; exact nofun)).trans hr
    rw [hlive, haccess]
    exact List.foldl_append.symm
  writer s hs := by
    obtain ⟨first, rest, commit, learned?, access, hmoments, hlive, hmode, -⟩ :=
      Transaction.live_of_open (z := z) h moments
    rw [hs] at hmode
    obtain ⟨s', rfl⟩ := exists_staging hmode
    refine ⟨first, rest, _, hmoments, hlive, ?_⟩
    cases commit <;> rfl

end PlainZone

/-- Whatever is called on a transaction of either kind of zone before it is dropped, and whatever
others do to the zone meanwhile: it ends in the zone once and has no other effect, it refuses all
calls from its first commit or rollback on, and as a reader it refuses all edits. -/
theorem transactions_end_once :
    (∀ (z : VersionedZone) (t : Transaction VersionedAccess)
      (moments : List (Moment VersionedZone)), t.isEnded = false → z.EndsOnce t moments) ∧
    ∀ (z : PlainZone) (t : Transaction PlainAccess) (moments : List (Moment PlainZone)),
      t.isEnded = false → z.EndsOnce t moments :=
  ⟨fun z _ moments h => z.endsOnce h moments, fun z _ moments h => z.endsOnce h moments⟩

namespace LateCommit

open Sample (origin)

/-- A zone to which one writer has access. -/
def versioned : VersionedZone :=
  (VersionedZone.create (some origin) .internet true false .latest).enqueue.2

/-- The next writer asks for access, and has it once the first is rolled back. The first then
tries to commit. -/
def versionedMoments : List (Moment VersionedZone) :=
  [.call (.edit (.addData origin .hour (.txt []))), .others fun z => z.enqueue.2, .call .rollback,
    .others fun z => (z.take? 0).getD z, .call .commit]

def plain : PlainZone := { PlainZone.create (some origin) .internet true false with locked := true }

/-- The lock is taken by the next writer before the first tries to commit. -/
def plainMoments : List (Moment PlainZone) :=
  [.call .rollback, .others fun z => { z with locked := true }, .call .commit]

theorem transactions_end_once_of_lateCommit :
    (versioned.startWriter false).isEnded = false ∧
      versioned.EndsOnce (versioned.startWriter false) versionedMoments ∧
      ((versioned.startWriter false).live versioned versionedMoments).admission =
        { active := true, next := 1 } ∧
      (Transaction.ofWriter (.writing (.start false 0)) plain).isEnded = false ∧
      plain.EndsOnce (Transaction.ofWriter (.writing (.start false 0)) plain) plainMoments ∧
      ((Transaction.ofWriter (.writing (.start false 0)) plain).live plain plainMoments).locked =
        true :=
  ⟨rfl, transactions_end_once.1 versioned (versioned.startWriter false) versionedMoments rfl,
    by decide, rfl, transactions_end_once.2 plain _ plainMoments rfl, by decide⟩

end LateCommit

end DnsZone
