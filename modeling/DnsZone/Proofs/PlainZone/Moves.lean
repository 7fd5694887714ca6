import DnsZone.PlainZone.Access
import DnsZone.Proofs.Transaction.Edited
import DnsZone.ZoneConfig

/-!
# What becomes of a transaction of a plain zone

Readers leave the zone alone. A writer takes the lock of the zone and gives it back when it ends;
only a commit changes anything else.
-/

namespace DnsZone

/-- A new plain zone. -/
def ZoneConfig.emptyPlain (config : ZoneConfig) : PlainZone :=
  .create config.origin? config.cls config.relativize config.checksOrigin

namespace PlainZone

/-- A reader that is started leaves the zone as it is. -/
theorem reader_eq_ok {query? : Option VersionQuery} {z z' : PlainZone}
    {t : Transaction PlainAccess} (h : Transaction.reader query? z = .ok (t, z')) :
    t = .ofReader .reading z ∧ z' = z := by
  have hopen : Host.openReader query? z = z.openReader query? := rfl
  rw [Transaction.reader, hopen] at h
  cases query? with
  | none =>
      cases h
      exact ⟨rfl, rfl⟩
  | some query =>
      rw [openReader] at h
      cases hanswers : z.answers query <;> rw [hanswers] at h <;> cases h
      exact ⟨rfl, rfl⟩

/-- A writer that need not wait takes the lock and has staged nothing yet. -/
theorem writer?_eq (replacement : Bool) (z : PlainZone) :
    Transaction.writer? replacement z =
      if z.locked then none
      else some (.ofWriter (.writing (.start replacement z.supply)) { z with locked := true },
        { z with locked := true }) := by
  have hopen : Host.openWriter? replacement z = z.openWriter? replacement := rfl
  rw [Transaction.writer?, hopen, openWriter?]
  cases z.locked <;> rfl

theorem mode_apply (t : Transaction PlainAccess) (c : Change) :
    Access.mode (t.apply c).access = Access.mode t.access := by
  have hmodify (f : Staging → Staging) (a : PlainAccess) :
      Access.mode (a.modify f) = Access.mode a := by
    cases a <;> rfl
  cases c with
  | nothing => rfl
  | setOrigin origin => rfl
  | _ => exact hmodify _ _

theorem exists_staging {access : PlainAccess} (h : Access.mode access = .writing) :
    ∃ s, access = .writing s := by
  cases access with
  | writing s => exact ⟨s, rfl⟩
  | _ => cases h

/-- The end of a writer. -/
theorem close_of_writing (z : PlainZone) {t : Transaction PlainAccess} {s : Staging}
    (h : t.access = .writing s) (commit : Bool) :
    t.close commit z = (.ok (), { t with access := .ended },
      if commit then ((z.learn t.learned?).install s).unlock else z.unlock) := by
  have hfinish : Backend.finish commit t.learned? t.access z =
      z.finish commit t.learned? t.access := rfl
  rw [Transaction.close_eq, hfinish, h]
  rfl

end PlainZone

end DnsZone
