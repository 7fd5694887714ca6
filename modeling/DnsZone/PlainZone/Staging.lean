import DnsZone.PlainZone.Basic

/-!
# Changes staged by a writer of a plain zone

A writer of a plain zone does not touch the content before it commits. Its changes are kept in an
overlay, which says for each record set that was stored or deleted what became of it, and in a set
of names that were wiped, whose content below the overlay is hidden. A writer may also replace the
content altogether, which hides all of it.

The overlay is ordered by owner name first, so the changes at one name stand next to each other.
Both what the writer sees at a name and what a commit writes there come from applying these changes
to what is not hidden. A writer looks up the changes at one name; a commit goes through all of them
once and keeps the node of one name at a time pending, which it stores when it comes to another name
and at the end.
-/

namespace DnsZone

/-- What a writer has done to a record set. -/
inductive Staged where
  | put (s : Shared RecordSet)
  | tombstone

/-- A record set of a zone: its owner and what it is known by there. -/
structure OwnedKey where
  owner : Name
  key : SetKey

def OwnedKey.compare : OwnedKey → OwnedKey → Ordering :=
  compareLex (Order.onKey OwnedKey.owner Name.compare) (Order.onKey OwnedKey.key SetKey.compare)

instance : Std.TransCmp OwnedKey.compare :=
  inferInstanceAs (Std.TransCmp (compareLex (Order.onKey OwnedKey.owner Name.compare)
    (Order.onKey OwnedKey.key SetKey.compare)))

/-- Staged changes by the record sets that they concern. -/
abbrev Overlay := OrderedMap OwnedKey OwnedKey.compare Staged

/-- The staged changes at one name, by key. -/
abbrev NameChanges := List (SetKey × Staged)

namespace Overlay

/-- The staged changes at a name: those that follow on the least key there could be at the name, as
long as they concern the name. -/
def changesAt (o : Overlay) (n : Name) : NameChanges :=
  ((o.toList.dropWhile fun e => OwnedKey.compare e.1 ⟨n, .least⟩ == .lt).takeWhile
    fun e => e.1.owner == n).map fun e => (e.1.key, e.2)

def eraseAt (o : Overlay) (n : Name) : Overlay :=
  (o.changesAt n).foldl (fun o e => o.erase ⟨n, e.1⟩) o

end Overlay

namespace Node

def applyStaged (node : Node) (e : SetKey × Staged) : Node :=
  match e.2 with
  | .put s => node.replace s
  | .tombstone => node.erase e.1

/-- The node of generation `tag` that results from staged changes to a node, or to none. -/
def merge (tag : VersionId) (below? : Option Node) (changes : NameChanges) : Node :=
  changes.foldl applyStaged ((below?.map fun node => node.copyFor tag).getD (.empty tag))

end Node

/-- How content is rewritten name by name: the node of a name is started, staged changes are applied
to it, and it is stored. -/
structure Rewriter (σ ν : Type) where
  start : σ → Name → ν
  apply : ν → SetKey × Staged → ν
  store : σ → Name → ν → σ

/-- A pass through staged changes. -/
structure Pass (σ ν : Type) where
  content : σ
  /-- The name whose changes are being applied, and its node as far as they go. -/
  pending? : Option (Name × ν)

namespace Pass

variable {σ ν : Type} (r : Rewriter σ ν)

/-- Stores the pending node. -/
def flush (p : Pass σ ν) : Pass σ ν :=
  match p.pending? with
  | some (n, node) => ⟨r.store p.content n node, none⟩
  | none => p

/-- Turns to a name. Unless its node is pending, the one that is pending is stored first. -/
def turnTo (p : Pass σ ν) (n : Name) : Pass σ ν :=
  if p.pending?.any fun pending => pending.1 == n then p
  else
    let content := (p.flush r).content
    ⟨content, some (n, r.start content n)⟩

/-- Applies a staged change to the node of its name. -/
def take (p : Pass σ ν) (e : OwnedKey × Staged) : Pass σ ν :=
  let p := p.turnTo r e.1.owner
  { p with pending? := p.pending?.map fun (n, node) => (n, r.apply node (e.1.key, e.2)) }

end Pass

/-- The content after a pass through staged changes. -/
def Rewriter.run {σ ν : Type} (r : Rewriter σ ν) (content : σ) (l : List (OwnedKey × Staged)) : σ :=
  ((l.foldl (Pass.take r) ⟨content, none⟩).flush r).content

/-- The changes staged by a writer. -/
structure Staging where
  /-- Whether the content of the zone is replaced. -/
  replacement : Bool
  overlay : Overlay
  /-- The names whose content below the overlay is dropped. -/
  wiped : NameSet
  supply : Nat

namespace Staging

def start (replacement : Bool) (supply : Nat) : Staging := ⟨replacement, .empty, .empty, supply⟩

/-- Whether the content of the zone at a name is hidden. -/
def hides (s : Staging) (n : Name) : Bool := s.replacement || s.wiped.contains n

/-- Whether committing would change a zone with the given content. -/
def hasChanges (s : Staging) (nodes : NameMap (Shared Node)) : Bool :=
  !s.overlay.isEmpty || !s.wiped.isEmpty || (s.replacement && !nodes.isEmpty)

def put (n : Name) (set : RecordSet) (s : Staging) : Staging :=
  { s with
    overlay := s.overlay.insert ⟨n, set.key⟩ (.put ⟨s.supply, set⟩)
    supply := s.supply + 1 }

def eraseSet (n : Name) (key : SetKey) (s : Staging) : Staging :=
  { s with overlay := s.overlay.insert ⟨n, key⟩ .tombstone }

def eraseName (n : Name) (s : Staging) : Staging :=
  { s with overlay := s.overlay.eraseAt n, wiped := s.wiped.insert n () }

def clear (s : Staging) : Staging :=
  { s with replacement := true, overlay := .empty, wiped := .empty }

def find? (s : Staging) (nodes : NameMap (Shared Node)) (n : Name) (key : SetKey) :
    Option RecordSet :=
  match s.overlay.find? ⟨n, key⟩ with
  | some (.put set) => some set.value
  | some .tombstone => none
  | none => if s.hides n then none else (nodes.find? n).bind fun node => node.value.find? key

/-- The node that the writer sees; a node with staged changes is tagged `tag`. -/
def node? (s : Staging) (nodes : NameMap (Shared Node)) (tag : VersionId) (n : Name) :
    Option Node :=
  let below? := if s.hides n then none else (nodes.find? n).map (·.value)
  match s.overlay.changesAt n with
  | [] => below?
  | changes =>
      let node := Node.merge tag below? changes
      if node.isEmpty then none else some node

/-- The names at which the writer may see record sets: those that are not hidden, then those with
staged changes. -/
def names (s : Staging) (nodes : NameMap (Shared Node)) : NameSet :=
  let below := if s.replacement then [] else nodes.keys.filter fun n => !s.wiped.contains n
  (below ++ s.overlay.keys.map (·.owner)).foldl (fun names n => names.insert n ()) .empty

def sets (s : Staging) (nodes : NameMap (Shared Node)) (tag : VersionId) :
    List (Name × RecordSet) :=
  ownedSets <| (s.names nodes).keys.filterMap fun n =>
    (s.node? nodes tag n).map fun node => (n, node)

/-- Stores a node at a name, or takes the name out if the node is empty. -/
def storeNode (nodes : NameMap (Shared Node)) (n : Name) (node : Shared Node) :
    NameMap (Shared Node) :=
  if node.value.isEmpty then nodes.erase n else nodes.insert n node

/-- The content below the overlay: what is not hidden. -/
def visible (s : Staging) (nodes : NameMap (Shared Node)) : NameMap (Shared Node) :=
  s.wiped.keys.foldl OrderedMap.erase (if s.replacement then .empty else nodes)

/-- Rewrites the nodes of a zone as generation `tag`. What is rewritten are the nodes together with
the supply of stamps, from which each node that is stored draws its own. -/
def rewriter (tag : VersionId) : Rewriter (NameMap (Shared Node) × Nat) Node where
  start content n := ((content.1.find? n).map fun node => node.value.copyFor tag).getD (.empty tag)
  apply := Node.applyStaged
  store content n node := (storeNode content.1 n ⟨content.2, node⟩, content.2 + 1)

/-- The content of the zone after a commit as generation `tag`, and the supply of stamps. -/
def commit (s : Staging) (nodes : NameMap (Shared Node)) (tag : VersionId) :
    NameMap (Shared Node) × Nat :=
  (rewriter tag).run (s.visible nodes, s.supply) s.overlay.toList

end Staging

end DnsZone
