import DnsZone.Proofs.Publication
import DnsZone.Proofs.Storage

/-!
# Plain zones store what is committed

What a writer of a plain zone finds is told by what it has staged under a key, or else by what the
zone has there and is not hidden. Storing and erasing act on just that, whether or not anything is
there to erase, and a commit leaves what the writer has found.
-/

namespace DnsZone

namespace Staging

variable (s : Staging) (nodes : NameMap (Shared Node))

/-! ### What is found after a change -/

theorem find?_put (n m : Name) (set : RecordSet) (key : SetKey) :
    (s.put n set).find? nodes m key =
      if (m == n) = true ∧ key = set.key then some set else s.find? nodes m key := by
  have hoverlay : (s.put n set).overlay.find? ⟨m, key⟩ =
      if (m == n) = true ∧ key = set.key then some (.put ⟨s.supply, set⟩)
      else s.overlay.find? ⟨m, key⟩ := s.overlay.find?_insert ..
  rw [find?, hoverlay]
  by_cases h : (m == n) = true ∧ key = set.key
  · rw [if_pos h, if_pos h]
  · rw [if_neg h, if_neg h]
    rfl

theorem find?_eraseSet (n m : Name) (key key' : SetKey) :
    (s.eraseSet n key).find? nodes m key' =
      if (m == n) = true ∧ key' = key then none else s.find? nodes m key' := by
  have hoverlay : (s.eraseSet n key).overlay.find? ⟨m, key'⟩ =
      if (m == n) = true ∧ key' = key then some .tombstone
      else s.overlay.find? ⟨m, key'⟩ := s.overlay.find?_insert ..
  rw [find?, hoverlay]
  by_cases h : (m == n) = true ∧ key' = key
  · rw [if_pos h, if_pos h]
  · rw [if_neg h, if_neg h]
    rfl

theorem find?_eraseName (n m : Name) (key : SetKey) :
    (s.eraseName n).find? nodes m key = if m == n then none else s.find? nodes m key := by
  have hoverlay : (s.eraseName n).overlay.find? ⟨m, key⟩ =
      if m == n then none else s.overlay.find? ⟨m, key⟩ := s.overlay.find?_eraseAt n m key
  rw [find?, hoverlay, hides_eraseName]
  cases m == n <;> rfl

theorem find?_clear (n : Name) (key : SetKey) : s.clear.find? nodes n key = none := rfl

/-- Every record set that the writer finds holds records, and it is staged under its own key if it
is staged. -/
structure Solid : Prop where
  proper : s.overlay.Proper
  filled : ∀ n key set, s.find? nodes n key = some set → set.isEmpty = false

namespace Solid

variable {s nodes}

theorem start (h : ∀ n key set, ((nodes.find? n).bind fun node => node.value.find? key) = some set →
    set.isEmpty = false) (replacement : Bool) (supply : Nat) :
    (start replacement supply).Solid nodes where
  proper := Overlay.proper_empty
  filled n key set hset := by
    cases replacement with
    | true => cases hset
    | false => exact h n key set hset

theorem put (h : s.Solid nodes) (n : Name) {set : RecordSet} (hset : set.isEmpty = false) :
    (s.put n set).Solid nodes where
  proper := Overlay.proper_insert h.proper fun s' hs' => by cases hs'; rfl
  filled m key set' hset' := by
    rw [find?_put] at hset'
    split at hset'
    · cases hset'
      exact hset
    · exact h.filled m key set' hset'

theorem eraseSet (h : s.Solid nodes) (n : Name) (key : SetKey) :
    (s.eraseSet n key).Solid nodes where
  proper := Overlay.proper_insert h.proper fun s' hs' => by cases hs'
  filled m key' set hset := by
    rw [find?_eraseSet] at hset
    split at hset
    · cases hset
    · exact h.filled m key' set hset

theorem eraseName (h : s.Solid nodes) (n : Name) : (s.eraseName n).Solid nodes where
  proper := Overlay.proper_eraseAt h.proper n
  filled m key set hset := by
    rw [find?_eraseName] at hset
    split at hset
    · cases hset
    · exact h.filled m key set hset

theorem clear : s.clear.Solid nodes where
  proper := Overlay.proper_empty
  filled n key set hset := by cases hset

end Solid

end Staging

namespace PlainZone

/-- No node or record set of the zone is empty. -/
structure Sound (z : PlainZone) : Prop where
  proper : NameMap.Proper z.nodes
  filled : ∀ n key s, z.find? n key = some s → s.isEmpty = false

theorem sound_create (origin? : Option Name) (cls : RecordClass) (relativize checksOrigin : Bool) :
    (create origin? cls relativize checksOrigin).Sound where
  proper _ _ h := by cases h
  filled _ _ _ h := by cases h

/-- The state of a writer that is open on the zone. -/
def Ready (z : PlainZone) (a : PlainAccess) : Prop := ∃ s, a = .writing s ∧ s.Solid z.nodes

variable {z : PlainZone} {a : PlainAccess}

theorem find?_eq_bind (z : PlainZone) (n : Name) (key : SetKey) :
    z.find? n key = (z.nodes.find? n).bind fun node => node.value.find? key :=
  Option.bind_map ..

theorem Ready.proper (h : z.Ready a) : a.Proper := by
  obtain ⟨s, rfl, hs⟩ := h
  intro s' hs'
  cases hs'
  exact hs.proper

theorem Sound.ready_start (h : z.Sound) (replacement : Bool) :
    z.Ready (.writing (.start replacement z.supply)) := by
  refine ⟨_, rfl, .start (fun n key set hset => ?_) replacement z.supply⟩
  rw [← find?_eq_bind] at hset
  exact h.filled n key set hset

/-- Changes that store only sets that hold records keep a writer ready. -/
theorem Ready.apply {t : Transaction PlainAccess} (h : z.Ready t.access)
    {c : Change} (hc : c.Sound t.origin) : z.Ready (t.apply c).access := by
  obtain ⟨s, haccess, hs⟩ := h
  have hmodify (f : Staging → Staging) (hf : (f s).Solid z.nodes) :
      z.Ready (t.access.modify f) := ⟨f s, by rw [haccess]; rfl, hf⟩
  cases c with
  | nothing => exact ⟨s, haccess, hs⟩
  | setOrigin origin => exact ⟨s, haccess, hs⟩
  | put n set => exact hmodify _ (hs.put n hc.1)
  | eraseName n => exact hmodify _ (hs.eraseName n)
  | eraseSet n key => exact hmodify _ (hs.eraseSet n key)
  | clear => exact hmodify _ .clear

/-- No node that a transaction sees is empty. -/
theorem isEmpty_of_nodeIn? (h : NameMap.Proper z.nodes) {n : Name} {node : Node}
    (hnode : z.nodeIn? a n = some node) : node.isEmpty = false := by
  rw [nodeIn?] at hnode
  cases hs : a.staging? with
  | none =>
      rw [hs] at hnode
      obtain ⟨shared, hshared, rfl⟩ := Option.map_eq_some_iff.mp hnode
      exact (h n shared hshared).2
  | some s =>
      rw [hs] at hnode
      exact (Staging.keyed_of_node? h hnode).2

theorem Sound.seenBy (h : z.Sound) {m : SetTable} (hm : DirectStore.Has z m) :
    m.SeenBy z PlainAccess.reading := by
  have hreading : PlainAccess.Proper .reading := fun s hs => by cases hs
  refine SetTable.seenBy_of_shows (shows h.proper .reading hreading) (fun n node => ?_)
    fun n key => ?_
  · exact isEmpty_of_nodeIn? h.proper
  · rw [← z.findIn?_eq_set? hreading]
    exact hm n key

/-- What a writer stages acts on the record sets that it finds. -/
theorem Sound.stagesSets (h : z.Sound) : Transaction.StagesSets z z.Ready where
  writing := by
    rintro _ ⟨s, rfl, -⟩
    rfl
  key_eq {a} ha n key s hs := by
    change z.findIn? a n key = some s at hs
    rw [z.findIn?_eq_set? ha.proper, Content.set?, contentIn, Option.bind_map] at hs
    obtain ⟨node, _, hs⟩ := Option.bind_eq_some_iff.mp hs
    exact (Node.mem_of_find?_eq_some hs).2
  filled := by
    rintro _ ⟨s, rfl, hsolid⟩ n key set hset
    exact hsolid.filled n key set hset
  contains_iff {a} ha n :=
    (shows h.proper a ha.proper).contains_iff (fun _ _ => isEmpty_of_nodeIn? h.proper) n
  put := by
    rintro _ ⟨s, rfl, hsolid⟩ n set hset
    exact ⟨⟨_, rfl, hsolid.put n hset⟩, fun m key => s.find?_put z.nodes n m set key⟩
  eraseName := by
    rintro _ ⟨s, rfl, hsolid⟩ n -
    exact ⟨⟨_, rfl, hsolid.eraseName n⟩, s.find?_eraseName z.nodes n⟩
  eraseSet := by
    rintro _ ⟨s, rfl, hsolid⟩ n key -
    exact ⟨⟨_, rfl, hsolid.eraseSet n key⟩, fun m key' => s.find?_eraseSet z.nodes n m key key'⟩
  clear := by
    rintro _ ⟨s, rfl, -⟩
    exact ⟨⟨_, rfl, .clear⟩, s.find?_clear z.nodes⟩

/-- The record sets that a plain zone stores. -/
theorem has_nodes (z : PlainZone) :
    DirectStore.Has z (.ofListing (z.setsIn .reading)) := by
  intro n key
  have hreading : PlainAccess.Proper .reading := fun s hs => by cases hs
  rw [z.setsIn_eq_ownedSets, SetTable.set?_ofListing_ownedSets (z.nodeListing_nodesIn _)]
  exact (z.seesNodes hreading).find? n key

/-! ### Commits -/

/-- An installed commit leaves the record sets that the writer has found. -/
theorem find?_install {s : Staging} (h : s.overlay.Proper) (n : Name) (key : SetKey) :
    (z.install s).find? n key = s.find? z.nodes n key := by
  have hwriting : PlainAccess.Proper (.writing s) := fun s' hs' => by cases hs'; exact h
  have hreading : PlainAccess.Proper .reading := fun s' hs' => by cases hs'
  have hread := (z.install s).seesNodes hreading
  have hwrite := z.seesNodes hwriting
  change Backend.find? (z.install s) PlainAccess.reading n key =
    Backend.find? z (PlainAccess.writing s) n key
  rw [hread.find?, hwrite.find?, hread.node?, hwrite.node?, nodes_install]

theorem Sound.install (h : z.Sound) {s : Staging} (hs : s.Solid z.nodes) :
    (z.install s).Sound := by
  refine ⟨?_, fun n key set hset => ?_⟩
  · rw [PlainZone.install]
    split
    · exact Staging.proper_commit h.proper _
    · exact h.proper
  · rw [find?_install hs.proper] at hset
    exact hs.filled n key set hset

theorem terms_install (z : PlainZone) (s : Staging) : Host.terms (z.install s) = Host.terms z := by
  rw [PlainZone.install]
  split <;> rfl

/-- Readers see the nodes of the zone, if they ask for those or for the present generation. -/
theorem seenAlike_of_nodes_eq {z' : PlainZone} (hnodes : z'.nodes = z.nodes)
    (hgeneration : z'.generation = z.generation) (horigin : z'.origin = z.origin) :
    Host.SeenAlike z z' := by
  have hsees : Transaction.SeesAlike z (.ofReader .reading z) z' (.ofReader .reading z') := by
    have hreader (z₁ : PlainZone) : SeesNodes z₁ PlainAccess.reading (z₁.nodesIn .reading) :=
      z₁.seesNodes fun s hs => by cases hs
    have hlist : z'.nodesIn .reading = z.nodesIn .reading :=
      congrArg (fun nodes : NameMap (Shared Node) => nodes.toList.map _) hnodes
    refine .of_nodes (hreader z) ?_ rfl rfl
    rw [← hlist]
    exact hreader z'
  intro query?
  cases query? with
  | none => exact .ok hsees
  | some query =>
      have hanswers : z'.answers query = z.answers query := by
        have hfind (n : Name) : z'.find? n = z.find? n := by
          funext key
          rw [find?_eq_bind, find?_eq_bind, hnodes]
        cases query with
        | id id => rw [answers, answers, hgeneration]
        | serial serial => simp only [answers, soaSerial?, horigin, hfind]
      have hreader (z₁ : PlainZone) : Transaction.reader (some query) z₁ =
          if z₁.answers query then .ok (.ofReader .reading z₁, z₁)
          else .error (.notFound query) := by
        have hopen : Host.openReader (some query) z₁ = z₁.openReader (some query) := rfl
        rw [Transaction.reader, hopen, openReader]
        cases z₁.answers query <;> rfl
      rw [hreader, hreader, hanswers]
      cases z.answers query with
      | true => exact .ok hsees
      | false => exact .error _

instance : Storage PlainZone PlainAccess where
  Sound := Sound
  Ready := Ready
  mode_ended := rfl
  mode_apply := mode_apply
  mode_open {z z' a replacement} hopen := by
    change z.openWriter? replacement = some (a, z') at hopen
    rw [openWriter?] at hopen
    split at hopen
    · cases hopen
    · cases hopen
      rfl
  stages := Sound.stagesSets
  changed_put {z a} h n set := by
    obtain ⟨s, rfl, -⟩ := h
    have hnonempty : (s.put n set).overlay.isEmpty = false :=
      OrderedMap.isEmpty_insert s.overlay ⟨n, set.key⟩ (.put ⟨s.supply, set⟩)
    change (s.put n set).hasChanges z.nodes = true
    rw [Staging.hasChanges, hnonempty]
    rfl
  opens {z z' a} h hopen := by
    change z.openWriter? false = some (a, z') at hopen
    rw [openWriter?] at hopen
    split at hopen
    · cases hopen
    · cases hopen
      refine ⟨⟨h.proper, h.filled⟩, h.ready_start false, rfl, fun n key => ?_, fun _ _ => rfl⟩
      exact (z.find?_eq_bind n key).symm
  commits {z a} h ha learned? := by
    obtain ⟨s, rfl, hs⟩ := ha
    have hlearn : (z.learn learned?).Sound := ⟨h.proper, h.filled⟩
    obtain ⟨hproper, hfilled⟩ := hlearn.install hs
    refine ⟨_, rfl, ⟨hproper, hfilled⟩, terms_install (z.learn learned?) s, ?_⟩
    exact find?_install hs.proper
  discards {z a} h ha learned? := by
    obtain ⟨s, rfl, -⟩ := ha
    exact ⟨_, rfl, ⟨h.proper, h.filled⟩, rfl, seenAlike_of_nodes_eq rfl rfl rfl, fun _ _ => rfl⟩
  shows h hm := ⟨_, _, rfl, h.seenBy hm⟩
  seenAlike_self _ := seenAlike_of_nodes_eq rfl rfl rfl

end PlainZone

end DnsZone
