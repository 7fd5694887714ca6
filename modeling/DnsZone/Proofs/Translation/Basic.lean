import DnsZone.Proofs.OrderedMap.Correspondence
import DnsZone.Proofs.Transaction.Origin

/-!
# Names and data that stand for others

Two zones may be used in the same way and yet be told other names: one of them stores its names in
another form, or names are spelled in another way. A `Translation` says which names and which record
data of the one zone stand for which of the other. What a zone does with names and data respects the
translation, so that record sets, nodes and errors correspond if what they are made of does.
-/

namespace DnsZone

/-- What stands for what in another zone. -/
structure Translation where
  /-- Names that transactions are given. -/
  given : Name → Name → Prop
  /-- Names as the zones store them. -/
  stored : Name → Name → Prop
  /-- Names that are given to become the origin. -/
  named : Name → Name → Prop
  origin : Origin → Origin → Prop
  data : RecordData → RecordData → Prop

namespace Translation

variable (T : Translation)

/-- Errors that differ in the names that they report at most. -/
inductive Fault : ZoneError → ZoneError → Prop where
  | same (e : ZoneError) : Fault e e
  | outOfZone {n n' : Name} (h : T.given n n') : Fault (.outOfZone n) (.outOfZone n')
  | relativeOrigin {n n' : Name} (h : T.named n n') : Fault (.relativeOrigin n) (.relativeOrigin n')

/-- Two corresponding errors, or values that are related. -/
inductive Outcome {α β : Type} (S : α → β → Prop) :
    Except ZoneError α → Except ZoneError β → Prop where
  | error {e e' : ZoneError} (h : T.Fault e e') : Outcome S (.error e) (.error e')
  | ok {a : α} {b : β} (h : S a b) : Outcome S (.ok a) (.ok b)

/-- Record sets of the same key and time to live with corresponding records. -/
structure Sets (s s' : RecordSet) : Prop where
  key : s.key = s'.key
  ttl : s.ttl = s'.ttl
  data : List.Forall₂ T.data s.data s'.data

/-- Objects with the same identity and corresponding values. -/
structure Objects {α : Type} (V : α → α → Prop) (s s' : Shared α) : Prop where
  stamp : s.stamp = s'.stamp
  value : V s.value s'.value

/-- Nodes of the same version with corresponding record sets. -/
structure Nodes (n n' : Node) : Prop where
  tag : n.tag = n'.tag
  sets : List.Forall₂ (Objects T.Sets) n.sets n'.sets

/-- Maps from names that correspond, with nodes that do. -/
abbrev NodeMaps : NameMap (Shared Node) → NameMap (Shared Node) → Prop :=
  OrderedMap.Rel T.stored (Objects T.Nodes)

abbrev NameSets : NameSet → NameSet → Prop := OrderedMap.Rel T.stored Eq

/-- What zones learn of their origins: nothing, or the names of origins that correspond. -/
inductive Learned : Option Name → Option Name → Prop where
  | nothing : Learned none none
  | name {o o' : Origin} (h : T.origin o o') : Learned o.name? o'.name?

/-- What a zone does with names and data comes to the same for those that they stand for. -/
structure Lawful : Prop where
  keepsOrder : OrderedMap.KeepsOrder Name.compare Name.compare T.stored
  absolute_eq {n n' : Name} (h : T.given n n') : n.absolute = n'.absolute
  stores {o o' : Origin} (h : T.origin o o') {n n' : Name} (hn : T.given n n') :
    T.Outcome T.stored (o.stored n) (o'.stored n')
  apex? {o o' : Origin} (h : T.origin o o') : Option.Rel T.stored o.apex? o'.apex?
  isNone_name? {o o' : Origin} (h : T.origin o o') : o.name?.isNone = o'.name?.isNone
  /-- An origin that is not known yet can be learned from any owner. -/
  named_of_given {o o' : Origin} (h : T.origin o o') (hnone : o.name? = none) {n n' : Name}
    (hn : T.given n n') : T.named n n'
  absolute_eq_of_named {n n' : Name} (h : T.named n n') : n.absolute = n'.absolute
  origin_of_named {o o' : Origin} (h : T.origin o o') {n n' : Name} (hn : T.named n n') :
    T.origin { o with name? := some n } { o' with name? := some n' }
  learn {o o' : Origin} (h : T.origin o o') {learned? learned'? : Option Name}
    (hl : T.Learned learned? learned'?) : T.origin (o.learn learned?) (o'.learn learned'?)
  beq_eq {d d' e e' : RecordData} (h : T.data d d') (h' : T.data e e') : (d == e) = (d' == e')
  key_eq {d d' : RecordData} (h : T.data d d') : d.key = d'.key
  soa? {d d' : RecordData} (h : T.data d d') :
    Option.Rel (fun s s' => T.data (.soa s) (.soa s')) d.soa? d'.soa?
  serial_eq {s s' : Soa} (h : T.data (.soa s) (.soa s')) : s.serial = s'.serial
  withSerial {s s' : Soa} (h : T.data (.soa s) (.soa s')) (serial : Serial) :
    T.data (.soa (s.withSerial serial)) (.soa (s'.withSerial serial))

variable {T}

namespace Outcome

variable {α β γ δ : Type} {S : α → β → Prop} {S' : γ → δ → Prop} {x : Except ZoneError α}
  {y : Except ZoneError β}

theorem refl {x : Except ZoneError α} : T.Outcome Eq x x := by
  cases x with
  | error e => exact .error (.same e)
  | ok a => exact .ok rfl

theorem of_eq {x y : Except ZoneError α} (h : x = y) : T.Outcome Eq x y := h ▸ refl

theorem map (h : T.Outcome S x y) {f : α → γ} {g : β → δ} (hfg : ∀ a b, S a b → S' (f a) (g b)) :
    T.Outcome S' (x.map f) (y.map g) := by
  cases h with
  | error h => exact .error h
  | ok h => exact .ok (hfg _ _ h)

theorem bind (h : T.Outcome S x y) {f : α → Except ZoneError γ} {g : β → Except ZoneError δ}
    (hfg : ∀ a b, S a b → T.Outcome S' (f a) (g b)) : T.Outcome S' (x >>= f) (y >>= g) := by
  cases h with
  | error h => exact .error h
  | ok h => exact hfg _ _ h

end Outcome

theorem Objects.of_value {α : Type} {V : α → α → Prop} {a b : α} (stamp : Nat) (h : V a b) :
    Objects V ⟨stamp, a⟩ ⟨stamp, b⟩ := ⟨rfl, h⟩

/-! ### Record sets -/

namespace Sets

variable {s s' other other' : RecordSet} {d d' : RecordData}

theorem isEmpty_eq (h : T.Sets s s') : s.isEmpty = s'.isEmpty := isEmpty_eq_of_forall₂ h.data

theorem size_eq (h : T.Sets s s') : s.size = s'.size := h.data.length_eq

theorem hasKey_eq (h : T.Sets s s') (key : SetKey) : s.hasKey key = s'.hasKey key := by
  rw [RecordSet.hasKey, RecordSet.hasKey, h.key]

theorem contains_eq (hT : T.Lawful) {l l' : List RecordData} (h : List.Forall₂ T.data l l')
    (hd : T.data d d') : l.contains d = l'.contains d' := by
  induction h with
  | nil => rfl
  | cons he _ ih => rw [List.contains_cons, List.contains_cons, ih, hT.beq_eq hd he]

theorem all_contains_eq (hT : T.Lawful) {l l' o o' : List RecordData}
    (h : List.Forall₂ T.data l l') (ho : List.Forall₂ T.data o o') :
    o.all l.contains = o'.all l'.contains := by
  induction ho with
  | nil => rfl
  | cons hd _ ih => rw [List.all_cons, List.all_cons, ih, contains_eq hT h hd]

theorem containsAll_eq (hT : T.Lawful) (h : T.Sets s s') (ho : T.Sets other other') :
    s.containsAll other = s'.containsAll other' := all_contains_eq hT h.data ho.data

theorem push (hT : T.Lawful) (h : T.Sets s s') (hd : T.data d d') :
    T.Sets (s.push d) (s'.push d') := by
  rw [RecordSet.push, RecordSet.push, contains_eq hT h.data hd]
  split
  · exact h
  · exact ⟨h.key, h.ttl, List.rel_append h.data (.cons hd .nil)⟩

theorem union (hT : T.Lawful) (h : T.Sets s s') (ho : T.Sets other other') :
    T.Sets (s.union other) (s'.union other') := by
  rw [RecordSet.union, RecordSet.union, h.isEmpty_eq, ho.ttl]
  refine List.rel_foldl (fun _ _ hs _ _ hd => hs.push hT hd) ?_ ho.data
  split
  · exact ⟨h.key, rfl, h.data⟩
  · refine ⟨h.key, ?_, h.data⟩
    rw [RecordSet.limitTtl, RecordSet.limitTtl, h.ttl]

theorem difference (hT : T.Lawful) (h : T.Sets s s') (ho : T.Sets other other') :
    T.Sets (s.difference other) (s'.difference other') := by
  refine ⟨h.key, h.ttl, List.rel_filter ?_ h.data⟩
  intro d d' hd
  simp only [contains_eq hT ho.data hd]

theorem single (hT : T.Lawful) (ttl : Ttl) (hd : T.data d d') :
    T.Sets (.single ttl d) (.single ttl d') := ⟨hT.key_eq hd, rfl, .cons hd .nil⟩

/-- The starts of authority at the front of both sets. -/
theorem soa? (hT : T.Lawful) (h : T.Sets s s') :
    Option.Rel (fun a a' => T.data (.soa a) (.soa a')) (s.first?.bind RecordData.soa?)
      (s'.first?.bind RecordData.soa?) :=
  rel_optionBind (rel_head? h.data) fun _ _ hd => hT.soa? hd

theorem soaSerial?_eq (hT : T.Lawful) (h : T.Sets s s') : s.soaSerial? = s'.soaSerial? :=
  map_eq_of_rel (h.soa? hT) fun _ _ ha => hT.serial_eq ha

end Sets

/-! ### Nodes -/

namespace Nodes

variable {n n' : Node} {s s' : Shared RecordSet}

theorem empty (tag : VersionId) : T.Nodes (.empty tag) (.empty tag) := ⟨rfl, .nil⟩

theorem isEmpty_eq (h : T.Nodes n n') : n.isEmpty = n'.isEmpty := isEmpty_eq_of_forall₂ h.sets

theorem copyFor (h : T.Nodes n n') (tag : VersionId) : T.Nodes (n.copyFor tag) (n'.copyFor tag) :=
  ⟨rfl, h.sets⟩

theorem recordSets (h : T.Nodes n n') : List.Forall₂ T.Sets n.recordSets n'.recordSets :=
  List.rel_map (fun _ _ hs => hs.value) h.sets

theorem find? (h : T.Nodes n n') (key : SetKey) :
    Option.Rel T.Sets (n.find? key) (n'.find? key) := by
  have hshared : Option.Rel (Objects T.Sets) (n.shared? key) (n'.shared? key) :=
    rel_find? h.sets fun _ _ hs => hs.value.hasKey_eq key
  exact rel_optionMap hshared fun _ _ hs => hs.value

theorem forall₂_replaceIn (hs : Objects T.Sets s s') {l l' : List (Shared RecordSet)}
    (h : List.Forall₂ (Objects T.Sets) l l') :
    List.Forall₂ (Objects T.Sets) (Node.replaceIn s l) (Node.replaceIn s' l') := by
  induction h with
  | nil => exact .cons hs .nil
  | cons ht hrest ih =>
      unfold Node.replaceIn
      rw [ht.value.hasKey_eq, hs.value.key]
      split
      · exact .cons hs hrest
      · exact .cons ht ih

theorem replace (h : T.Nodes n n') (hs : Objects T.Sets s s') :
    T.Nodes (n.replace s) (n'.replace s') := ⟨h.tag, forall₂_replaceIn hs h.sets⟩

theorem erase (h : T.Nodes n n') (key : SetKey) : T.Nodes (n.erase key) (n'.erase key) := by
  refine ⟨h.tag, List.rel_filter ?_ h.sets⟩
  intro s s' hs
  simp only [hs.value.hasKey_eq]

end Nodes

/-- Owner names with corresponding nodes. -/
structure OwnedNodes (T : Translation) (e e' : Name × Node) : Prop where
  owner : T.stored e.1 e'.1
  node : T.Nodes e.2 e'.2

/-- Owner names with corresponding record sets. -/
structure OwnedSets (T : Translation) (e e' : Name × RecordSet) : Prop where
  owner : T.stored e.1 e'.1
  set : T.Sets e.2 e'.2

/-- Nodes that correspond list their record sets alike. -/
theorem forall₂_ownedSets {l l' : List (Name × Node)} (h : List.Forall₂ T.OwnedNodes l l') :
    List.Forall₂ T.OwnedSets (ownedSets l) (ownedSets l') :=
  List.rel_flatMap h fun _ _ he => List.rel_map (fun _ _ hs => ⟨he.owner, hs⟩) he.node.recordSets

/-- Names that stand for others are equal exactly if those are. -/
theorem beq_eq_of_stored (hT : T.Lawful) {n n' m m' : Name} (hn : T.stored n n')
    (hm : T.stored m m') : (n == m) = (n' == m') := by
  rw [Bool.eq_iff_iff, ← Name.compare_eq_iff, ← Name.compare_eq_iff, hT.keepsOrder _ _ _ _ hn hm]

/-- The names of listings that correspond. -/
theorem forall₂_distinctNames (hT : T.Lawful) {l l' : List (Name × RecordSet)}
    (h : List.Forall₂ T.OwnedSets l l') {last? last'? : Option Name}
    (hlast : Option.Rel T.stored last? last'?) :
    List.Forall₂ T.stored (Transaction.distinctNames last? l)
      (Transaction.distinctNames last'? l') := by
  induction h generalizing last? last'? with
  | nil => exact .nil
  | @cons e e' l l' he _ ih =>
      have hsame : (last? == some e.1) = (last'? == some e'.1) := by
        cases hlast with
        | some hn => exact beq_eq_of_stored hT hn he.owner
        | none => rfl
      unfold Transaction.distinctNames
      rw [hsame]
      split
      · exact ih hlast
      · exact .cons he.owner (ih (.some he.owner))

end Translation

end DnsZone
