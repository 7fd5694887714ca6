import DnsZone.Proofs.Transaction.Edited
import DnsZone.Proofs.WorkingCopy
import DnsZone.VersionedZone.Queue

/-!
# What becomes of a transaction of a versioned zone

A transaction goes on as what it was: a reader keeps its version, and a writer keeps its base and
the number that its working copy is to have. Only its end changes the zone: a reader is counted off,
and a writer gives access back, after its version was added if it commits. `Move` says so of every
call and of dropping.
-/

namespace DnsZone

open VersionedZone (Txn)

namespace Draft

@[simp] theorem id_freshCopy (d : Draft) : d.freshCopy.id = d.base.id.next := by
  rw [freshCopy]
  split <;> rfl

/-- The working copy is to become the version after the base. -/
def Numbered (d : Draft) : Prop := d.working.id = d.base.id.next

theorem numbered_start (base : Version) (replacement : Bool) : (start base replacement).Numbered :=
  id_freshCopy _

/-- The draft after a change of what the writer sees. -/
def after (d : Draft) : Change → Draft
  | .put n s => d.modify fun w => w.put n s
  | .eraseName n => d.modify fun w => w.eraseName n
  | .eraseSet n key => d.modify fun w => w.eraseSet n key
  | .clear => d.clear
  | _ => d

theorem base_after (d : Draft) (c : Change) : (d.after c).base = d.base := by
  cases c <;> rfl

theorem numbered_after {d : Draft} (h : d.Numbered) (c : Change) : (d.after c).Numbered := by
  cases c with
  | eraseName n => exact (WorkingCopy.id_eraseName _ n).trans h
  | eraseSet n key => exact (WorkingCopy.id_eraseSet _ n key).trans h
  | clear => exact id_freshCopy d.clear
  | _ => exact h

end Draft

/-- A change of a writer is a change of its draft. -/
theorem VersionedZone.access_apply {t : Txn} {d : Draft} (h : t.access = .writing d) (c : Change) :
    (t.apply c).access = .writing (d.after c) := by
  cases c with
  | nothing => exact h
  | setOrigin origin => exact h
  | _ => exact congrArg (VersionedAccess.modify _) h

/-- A writer that goes on keeps its base. -/
theorem Transaction.Edited.draft {z : VersionedZone} {t t' : Txn} (h : t.Edited z t') {d : Draft}
    (hd : t.access = .writing d) (hnumbered : d.Numbered) :
    ∃ d', t'.access = .writing d' ∧ d'.base = d.base ∧ d'.Numbered := by
  induction h with
  | refl => exact ⟨d, hd, rfl, hnumbered⟩
  | apply _ _ _ ih =>
      rename_i t₁ c _ _ _
      obtain ⟨d', hd', hbase, hnumbered'⟩ := ih
      exact ⟨d'.after c, VersionedZone.access_apply hd' c, (d'.base_after c).trans hbase,
        Draft.numbered_after hnumbered' c⟩
  | check _ _ ih => exact ih

namespace VersionedZone

/-! ### Starting -/

/-- A reader is started on the version selected. -/
theorem reader_eq (query? : Option VersionQuery) (z : VersionedZone) :
    Transaction.reader query? z = (z.select query?).map fun v =>
      (Transaction.ofReader (.reading v) z, { z with readers := z.readers.register v.id }) := by
  have hopen : Host.openReader query? z =
      (z.pin query?).map fun r => (VersionedAccess.reading r.1, r.2) := rfl
  rw [Transaction.reader, hopen, pin]
  cases z.select query? <;> rfl

/-- A writer that need not wait takes access and starts from the latest version. -/
theorem writer?_eq (replacement : Bool) (z : VersionedZone) :
    Transaction.writer? replacement z = z.admission.seize?.map fun a =>
      (z.startWriter replacement, { z with admission := a }) := by
  have hopen : Host.openWriter? replacement z =
      z.admission.seize?.map fun a => (z.begin replacement, { z with admission := a }) := rfl
  rw [Transaction.writer?, hopen]
  cases z.admission.seize? <;> rfl

/-! ### Ending -/

theorem toList_append (version? : Option Version) (z : VersionedZone) :
    (z.append version?).chain.toList = z.chain.toList ++ version?.toList := by
  cases version? with
  | none => exact (List.append_nil _).symm
  | some v => rfl

theorem latest_append (version? : Option Version) (z : VersionedZone) :
    (z.append version?).latest = version?.getD z.latest := by
  cases version? <;> rfl

/-- A commit adds the version of the writer, if it has one, before old versions are dropped. -/
theorem install_eq (z : VersionedZone) (d : Draft) (learned? : Option Name) :
    z.install d learned? =
      { z with
        origin? := z.origin?.or learned?
        admission := z.admission.release
        chain := (z.append d.version?).chain.prune z.policy z.readers } := by
  unfold install
  cases d.version? <;> rfl

theorem latest_install (z : VersionedZone) (d : Draft) (learned? : Option Name) :
    (z.install d learned?).latest = d.version?.getD z.latest := by
  rw [install_eq]
  exact latest_append d.version? z

theorem origin_install (z : VersionedZone) (d : Draft) (learned? : Option Name) :
    (z.install d learned?).origin = ⟨z.origin.name?.or learned?, z.origin.relativize⟩ := by
  rw [install_eq]
  rfl

theorem checksOrigin_install (z : VersionedZone) (d : Draft) (learned? : Option Name) :
    (z.install d learned?).checksOrigin = z.checksOrigin := by
  rw [install_eq]

/-- What becomes of a transaction and its zone: either the transaction goes on and the zone stays as
it is, or the transaction ends, as a reader or as a writer. -/
inductive Move (z : VersionedZone) (t : Txn) : Txn → VersionedZone → Prop where
  | stays {t' : Txn} (h : t.Edited z t') : Move z t t' z
  | readerEnds {v : Version} (h : t.access = .reading v) :
      Move z t { t with access := .ended } (z.unpin v.id)
  | writerCommits {d : Draft} (h : t.access = .writing d) (learned? : Option Name) :
      Move z t { t with access := .ended } (z.install d learned?)
  | writerEnds {d : Draft} (h : t.access = .writing d) :
      Move z t { t with access := .ended } z.release

variable {z z' : VersionedZone} {t t' : Txn}

theorem exists_draft {access : VersionedAccess} (h : Access.mode access = .writing) :
    ∃ d, access = .writing d := by
  cases access with
  | writing d => exact ⟨d, rfl⟩
  | _ => cases h

theorem isEnded_of_reading {v : Version} (h : t.access = .reading v) : t.isEnded = false := by
  rw [Transaction.isEnded, h]
  rfl

theorem isEnded_of_writing {d : Draft} (h : t.access = .writing d) : t.isEnded = false := by
  rw [Transaction.isEnded, h]
  rfl

/-- The end of a writer. -/
theorem close_of_writing (halive : z.alive = true) {d : Draft} (haccess : t.access = .writing d)
    (commit : Bool) :
    t.close commit z = (.ok (), { t with access := .ended },
      if commit then z.install d t.learned? else z.release) := by
  have hfinish : Backend.finish commit t.learned? t.access z =
      z.finish commit t.learned? t.access := rfl
  rw [Transaction.close_eq, hfinish, haccess, finish, if_pos halive]
  rfl

theorem move_close (halive : z.alive = true) (hopen : t.isEnded = false) (commit : Bool) :
    Move z t (t.close commit z).2.1 (t.close commit z).2.2 := by
  rw [Transaction.close]
  change Move z t { t with access := .ended } (z.finish commit _ t.access).2
  cases haccess : t.access with
  | reading v =>
      rw [finish, if_pos halive]
      exact .readerEnds haccess
  | writing d =>
      rw [finish, if_pos halive]
      cases commit with
      | true => exact .writerCommits haccess _
      | false => exact .writerEnds haccess
  | ended =>
      rw [Transaction.isEnded, haccess] at hopen
      cases hopen

theorem move_call (halive : z.alive = true) (c : Call) :
    Move z t (t.call z c).2.1 (t.call z c).2.2 := by
  by_cases hends : t.ends c = true
  · rw [Transaction.call_of_ends hends]
    exact move_close halive (Transaction.isEnded_of_ends hends) _
  · obtain ⟨hzone, hedited⟩ := Transaction.call_of_not_ends (z := z) (Bool.eq_false_iff.mpr hends)
    rw [hzone]
    exact .stays hedited

theorem move_drop (halive : z.alive = true) :
    Move z t { t with access := .ended } (t.drop z) := by
  rw [Transaction.drop]
  split
  · rename_i hended
    have haccess : t.access = .ended := by
      cases haccess : t.access with
      | ended => rfl
      | _ =>
          rw [Transaction.isEnded, haccess] at hended
          cases hended
    rw [← haccess]
    exact .stays .refl
  · rename_i hopen
    exact move_close halive (Bool.eq_false_iff.mpr hopen) false

theorem Move.alive_eq (h : Move z t t' z') : z'.alive = z.alive := by
  cases h with
  | stays => rfl
  | readerEnds => rfl
  | writerCommits => rw [install_eq]
  | writerEnds => rfl

theorem mode_apply (t : Txn) (c : Change) :
    Access.mode (t.apply c).access = Access.mode t.access := by
  have hmodify (f : Draft → Draft) (a : VersionedAccess) :
      Access.mode (a.modify f) = Access.mode a := by
    cases a <;> rfl
  cases c with
  | nothing => rfl
  | setOrigin origin => rfl
  | _ => exact hmodify _ _

theorem mode_of_edited (h : t.Edited z t') : Access.mode t'.access = Access.mode t.access :=
  h.mode_eq mode_apply

/-- A move ends a writer, which gives access back, or has nothing to do with who may write. -/
theorem Move.writer (h : Move z t t' z') :
    (Access.mode t'.access = .writing ↔ Access.mode t.access = .writing) ∧
        z'.admission = z.admission ∧ z'.latest = z.latest ∨
      Access.mode t'.access ≠ .writing ∧ Access.mode t.access = .writing ∧
        z'.admission = z.admission.release := by
  cases h with
  | stays h =>
      rw [mode_of_edited h]
      exact .inl ⟨Iff.rfl, rfl, rfl⟩
  | readerEnds h =>
      rw [h]
      exact .inl ⟨iff_of_false nofun nofun, rfl, rfl⟩
  | writerCommits h =>
      rw [h, install_eq]
      exact .inr ⟨nofun, rfl, rfl⟩
  | writerEnds h =>
      rw [h]
      exact .inr ⟨nofun, rfl, rfl⟩

end VersionedZone

end DnsZone
