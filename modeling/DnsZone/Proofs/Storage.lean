import DnsZone.Proofs.Ledger.Listing
import DnsZone.Proofs.Ledger.Writer
import DnsZone.Proofs.Transaction.Origin
import DnsZone.Proofs.Transaction.Sight

/-!
# Zones that store what is committed

What a kind of zone promises those who use it: writers stage their changes by record set, a commit
leaves the record sets that the writer has found, a writer that ends without a commit leaves those
that were there before, and readers see what is there. Both kinds of zones keep these promises, so
what follows from them need be shown only once.
-/

namespace DnsZone

/-- What does not depend on the content of a zone. -/
structure Terms where
  origin : Origin
  cls : RecordClass
  checksOrigin : Bool

namespace Host

variable {ζ τ : Type} [Access τ] [Host ζ τ]

def terms (z : ζ) : Terms := ⟨origin z, cls z, checksOrigin z⟩

/-- Whatever it asks for, a reader that is started on one of the zones sees just what it would see
on the other one. -/
def SeenAlike (z z' : ζ) : Prop :=
  ∀ query?, SameResult (fun r r' => Transaction.SeesAlike r.2 r.1 r'.2 r'.1)
    (Transaction.reader query? z) (Transaction.reader query? z')

/-- A reader that is started finds the record sets of the table and sees nothing else. -/
def Shows (z : ζ) (m : SetTable) : Prop :=
  ∃ t y, Transaction.reader none z = .ok (t, y) ∧ m.SeenBy y t.access

theorem SeenAlike.trans {z z' z'' : ζ} (h : SeenAlike z z') (h' : SeenAlike z' z'') :
    SeenAlike z z'' := fun query? =>
  (h query?).trans (h' query?) fun _ _ _ hsees hsees' => hsees.trans hsees'

end Host

/-- A zone whose latest content has the record sets of the table. -/
def DirectStore.Has {ζ : Type} [DirectStore ζ] (z : ζ) (m : SetTable) : Prop :=
  ∀ n key, findSet? z n key = m.set? n key

/-- A kind of zone that stores what is committed. -/
class Storage (ζ : Type) (τ : outParam Type) [Access τ] [Host ζ τ] [DirectStore ζ] where
  /-- What holds of a zone at all times. -/
  Sound : ζ → Prop
  /-- What holds of the state of a writer that is open on a zone. -/
  Ready : ζ → τ → Prop
  mode_ended : Access.mode (Access.ended : τ) = .ended
  mode_apply (t : Transaction τ) (c : Change) :
    Access.mode (t.apply c).access = Access.mode t.access
  mode_open {z z' : ζ} {a : τ} {replacement : Bool}
    (hopen : Host.openWriter? replacement z = some (a, z')) : Access.mode a = .writing
  stages {z : ζ} (h : Sound z) : Transaction.StagesSets z (Ready z)
  /-- A stored set counts as a change. -/
  changed_put {z : ζ} {a : τ} (h : Ready z a) (n : Name) (s : RecordSet) :
    Backend.changed z (Access.put n s a) = true
  opens {z z' : ζ} {a : τ} (h : Sound z) (hopen : Host.openWriter? false z = some (a, z')) :
    Sound z' ∧ Ready z' a ∧ Host.terms z' = Host.terms z ∧
      (∀ n key, Backend.find? z' a n key = DirectStore.findSet? z n key) ∧
      ∀ n key, DirectStore.findSet? z' n key = DirectStore.findSet? z n key
  commits {z : ζ} {a : τ} (h : Sound z) (ha : Ready z a) (learned? : Option Name) :
    ∃ z', Backend.finish true learned? a z = (.ok (), z') ∧ Sound z' ∧
      Host.terms z' = { Host.terms z with origin := (Host.origin z).learn learned? } ∧
      ∀ n key, DirectStore.findSet? z' n key = Backend.find? z a n key
  discards {z : ζ} {a : τ} (h : Sound z) (ha : Ready z a) (learned? : Option Name) :
    ∃ z', Backend.finish false learned? a z = (.ok (), z') ∧ Sound z' ∧
      Host.terms z' = Host.terms z ∧ Host.SeenAlike z z' ∧
      ∀ n key, DirectStore.findSet? z' n key = DirectStore.findSet? z n key
  shows {z : ζ} {m : SetTable} (h : Sound z) (hm : DirectStore.Has z m) : Host.Shows z m
  seenAlike_self (z : ζ) : Host.SeenAlike z z

namespace Storage

variable {ζ τ : Type} [Access τ] [Host ζ τ] [DirectStore ζ] [Storage ζ τ]

/-- The zone has come to store the record sets of the table; otherwise it is as it was. -/
structure Stores (z : ζ) (m : SetTable) (z' : ζ) : Prop where
  sound : Sound z'
  terms : Host.terms z' = Host.terms z
  has : DirectStore.Has z' m

/-- Nobody can tell from its content that anything has happened to the zone. -/
structure Spares (z z' : ζ) : Prop where
  sound : Sound z'
  terms : Host.terms z' = Host.terms z
  seenAlike : Host.SeenAlike z z'
  find?_eq : ∀ n key, DirectStore.findSet? z' n key = DirectStore.findSet? z n key

/-- Neither the content of the zone nor a writer that is open on it is concerned. -/
structure Persists (z z' : ζ) : Prop where
  sound : Sound z'
  terms : Host.terms z' = Host.terms z
  find?_eq : ∀ n key, DirectStore.findSet? z' n key = DirectStore.findSet? z n key
  ready : ∀ a, Ready z a → Ready z' a ∧ ∀ n key, Backend.find? z' a n key = Backend.find? z a n key

variable {z z' z'' : ζ} {m : SetTable}

theorem Persists.refl (h : Sound z) : Persists z z :=
  ⟨h, rfl, fun _ _ => rfl, fun _ ha => ⟨ha, fun _ _ => rfl⟩⟩

theorem Persists.has (h : Persists z z') (hm : DirectStore.Has z m) : DirectStore.Has z' m :=
  fun n key => (h.find?_eq n key).trans (hm n key)

theorem Spares.refl (h : Sound z) : Spares z z := ⟨h, rfl, seenAlike_self z, fun _ _ => rfl⟩

theorem Spares.trans (h : Spares z z') (h' : Spares z' z'') : Spares z z'' where
  sound := h'.sound
  terms := h'.terms.trans h.terms
  seenAlike := h.seenAlike.trans h'.seenAlike
  find?_eq n key := (h'.find?_eq n key).trans (h.find?_eq n key)

theorem Spares.stores (h : Spares z z') (hm : DirectStore.Has z m) : Stores z m z' :=
  ⟨h.sound, h.terms, fun n key => (h.find?_eq n key).trans (hm n key)⟩

end Storage

end DnsZone
