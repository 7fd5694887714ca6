import DnsZone.Version.Basic
import DnsZone.ZoneError

/-!
# Retention of old versions

A retention policy decides whether the oldest version of a zone may be dropped. It is asked only
about versions older than the latest one and older than any that is being read, and it is told how
many versions there are.
-/

namespace DnsZone

/-- When the oldest version may be dropped. -/
inductive Retention where
  | latest
  | atMost (count : Nat)
  | all
  /-- Drop the oldest version if the predicate holds of it and the number of versions. -/
  | custom (drops : Version → Nat → Bool)

namespace Retention

instance : Inhabited Retention := ⟨latest⟩

/-- The policy that keeps up to `limit?` versions, or all of them without a limit. -/
def ofLimit? (limit? : Option Nat) : Except ZoneError Retention :=
  match limit? with
  | none => .ok .all
  | some 0 => .error .invalidPolicy
  | some 1 => .ok .latest
  | some n => .ok (.atMost n)

/-- Refuses a policy that would keep no version. -/
def validate : Retention → Except ZoneError Unit
  | .atMost 0 => .error .invalidPolicy
  | _ => .ok ()

/-- Whether the oldest of `count` versions may be dropped. -/
def drops (p : Retention) (oldest : Version) (count : Nat) : Bool :=
  match p with
  | .latest => count > 1
  | .atMost n => count > n
  | .all => false
  | .custom f => f oldest count

def text : Retention → String
  | .latest => "KeepLatest"
  | .atMost n => "MaxVersions(" ++ Numeral.text n ++ ")"
  | .all => "KeepAll"
  | .custom _ => "Custom(..)"

end Retention

end DnsZone
