import DnsZone.Origin
import DnsZone.Retention

/-!
# Stores and their transactions

A transaction works on any kind of zone. Its state in the zone is a `τ`, in which a writer stages
its changes (`Access τ`). `Backend ζ τ` is what a kind of zone `ζ` offers to its transactions:
looking up what they see, and ending them. Names are given in the form in which the zone stores
them. `Host ζ τ` adds how transactions are started, and `DirectStore ζ` the access to the latest
content without a transaction.
-/

namespace DnsZone

/-- What a transaction may do. -/
inductive Mode where
  | reading
  | writing
  | ended
  deriving DecidableEq, Repr

/-- The state that a transaction has in its zone, and what a writer stages in it. Operations of
writers leave the states of readers and of ended transactions alone. -/
class Access (τ : Type) where
  mode : τ → Mode
  /-- The state of a transaction that has ended. -/
  ended : τ
  /-- The number of the version that the transaction sees, if the zone keeps versions. -/
  versionId? : τ → Option VersionId
  /-- Stores a record set in place of the one with the same key. -/
  put : Name → RecordSet → τ → τ
  eraseName : Name → τ → τ
  eraseSet : Name → SetKey → τ → τ
  /-- Drops all content and all changes made so far. -/
  clear : τ → τ

/-- What a zone of type `ζ` offers to a transaction whose state is a `τ`. -/
class Backend (ζ : Type) (τ : outParam Type) [Access τ] where
  find? : ζ → τ → Name → SetKey → Option RecordSet
  node? : ζ → τ → Name → Option Node
  /-- Whether the transaction sees any record set at a name. -/
  contains : ζ → τ → Name → Bool
  /-- All record sets that the transaction sees, in the order of their owner names. -/
  sets : ζ → τ → List (Name × RecordSet)
  /-- Whether committing would change the zone. -/
  changed : ζ → τ → Bool
  /-- Ends the transaction, committing its changes if `commit` holds, and with them `learned?` as
  the origin of a zone that has none. -/
  finish : (commit : Bool) → (learned? : Option Name) → τ → ζ → Except ZoneError Unit × ζ

/-- A zone that transactions can be started on. -/
class Host (ζ : Type) (τ : outParam Type) [Access τ] extends Backend ζ τ where
  origin : ζ → Origin
  cls : ζ → RecordClass
  /-- Whether a commit has to leave a start of authority and name servers at the origin. -/
  checksOrigin : ζ → Bool
  /-- Starts a reader, on the latest content or on what a query asks for. -/
  openReader : Option VersionQuery → ζ → Except ZoneError (τ × ζ)
  /-- Starts a writer, which sees no content if `replacement` holds, unless another writer has
  access or waits for it. -/
  openWriter? : (replacement : Bool) → ζ → Option (τ × ζ)

/-- Access to the latest content of a zone without a transaction. A change yields nothing if it has
to wait for write access. -/
class DirectStore (ζ : Type) where
  findSet? : ζ → Name → SetKey → Option RecordSet
  findNode? : ζ → Name → Option Node
  /-- Stores a record set in place of the one with the same key; an empty set deletes that one. -/
  replaceSet : Name → RecordSet → ζ → Option (Except ZoneError Unit × ζ)
  deleteSet : Name → SetKey → ζ → Option (Except ZoneError Unit × ζ)
  deleteNode : Name → ζ → Option (Except ZoneError Unit × ζ)

end DnsZone
