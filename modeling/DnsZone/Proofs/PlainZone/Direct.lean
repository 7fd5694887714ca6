import DnsZone.Proofs.PlainZone.Traffic
import DnsZone.Proofs.Sample

/-!
# Direct changes of a plain zone

Changing a plain zone directly is meant to be a write transaction of one operation. The transaction
asks first whether there is anything to delete, though, and a direct change does not. Where it finds
something to do, the two are one and the same. Where it finds nothing, the transaction leaves the
zone alone, but the direct change is committed as a new generation with the record sets of the old
one, and it is refused if the apex lacks what a zone that checks it has to have there.
-/

namespace DnsZone

namespace OrderedMap

universe u v

variable {κ : Type u} {cmp : κ → κ → Ordering} {α : Type v}

/-- A new value for a key that is there replaces the old one in its place. -/
theorem insertEntry_of_lookup [Std.TransCmp cmp] {k : κ} {v w : α} {l : List (κ × α)}
    (hsorted : l.Pairwise fun a b => cmp a.1 b.1 = .lt) (h : lookup cmp k l = some w) :
    insertEntry cmp k v l = l.map fun e => if cmp k e.1 = .eq then (e.1, v) else e := by
  induction l with
  | nil => cases h
  | cons e l ih =>
      obtain ⟨he, hl⟩ := List.pairwise_cons.mp hsorted
      rw [lookup_cons] at h
      cases hk : cmp k e.1 with
      | lt =>
          -- the key would have to come later, where all keys are greater
          rw [if_neg (by simp [hk])] at h
          obtain ⟨d, hd, _⟩ := Option.map_eq_some_iff.mp h
          have hkd : cmp k d.1 = .eq := by simpa using List.find?_some hd
          have hlt := Std.TransCmp.lt_trans hk (he d (List.mem_of_find?_eq_some hd))
          rw [hkd] at hlt
          cases hlt
      | eq =>
          have htail : (l.map fun e => if cmp k e.1 = .eq then (e.1, v) else e) = l := by
            refine (List.map_congr_left fun d hd => if_neg ?_).trans (List.map_id' l)
            rw [Std.TransCmp.congr_left hk, he d hd]
            simp
          simp only [insertEntry, hk, List.map_cons, ↓reduceIte, htail]
      | gt =>
          rw [if_neg (by simp [hk])] at h
          simp only [insertEntry, hk, List.map_cons, reduceCtorEq, ↓reduceIte, ih hl h]

end OrderedMap

/-- A record set that is not there can be erased without any effect. -/
theorem Node.recordSets_erase_of_find?_eq_none {n : Node} {key : SetKey} (h : n.find? key = none) :
    (n.erase key).recordSets = n.recordSets := by
  rw [find?, Option.map_eq_none_iff, shared?, List.find?_eq_none] at h
  have hsets : (n.sets.filter fun s => !s.value.hasKey key) = n.sets :=
    List.filter_eq_self.mpr fun s hs => by rw [Bool.eq_false_iff.mpr (h s hs)]; rfl
  rw [recordSets, erase, hsets, recordSets]

namespace Staging

variable {nodes : NameMap (Shared Node)} {n : Name} {node : Shared Node}

/-- A node with the record sets that are at its name anyway can be stored there without any effect
on the listing. -/
theorem ownedSets_storeNode
    (h : ((nodes.find? n).map fun old => old.value.recordSets).getD [] = node.value.recordSets) :
    ownedSets ((storeNode nodes n node).toList.map fun e => (e.1, e.2.value)) =
      ownedSets (nodes.toList.map fun e => (e.1, e.2.value)) := by
  have hat (e : Name × Shared Node) (he : e ∈ nodes.toList) (hn : Name.compare n e.1 = .eq) :
      e.2.value.recordSets = node.value.recordSets := by
    rw [OrderedMap.find?_eq_some_of_mem he hn] at h
    exact h
  rw [storeNode]
  split
  · rename_i hempty
    have hnil : node.value.recordSets = [] := by
      rw [Node.recordSets, List.isEmpty_iff.mp hempty, List.map_nil]
    rw [OrderedMap.toList_erase]
    -- an entry that is taken out has nothing to list
    revert hat
    induction nodes.toList with
    | nil => exact fun _ => rfl
    | cons e l ih =>
        intro hat
        have ih := ih fun d hd => hat d (List.mem_cons_of_mem _ hd)
        by_cases hn : Name.compare n e.1 = .eq
        · have he : e.2.value.recordSets = [] := (hat e List.mem_cons_self hn).trans hnil
          rw [List.filter_cons_of_neg (by simp [hn]), ih, List.map_cons, ownedSets, ownedSets,
            List.flatMap_cons, he, List.map_nil, List.nil_append]
        · rw [List.filter_cons_of_pos (by simpa using hn), List.map_cons, List.map_cons, ownedSets,
            ownedSets, List.flatMap_cons, List.flatMap_cons, ← ownedSets, ih, ownedSets]
  · rename_i hfilled
    cases hold : nodes.find? n with
    | none =>
        rw [hold] at h
        exact absurd (List.isEmpty_iff.mpr (List.map_eq_nil_iff.mp h.symm)) hfilled
    | some old =>
        rw [OrderedMap.toList_insert, OrderedMap.insertEntry_of_lookup nodes.sorted hold,
          ownedSets, ownedSets, List.map_map, List.flatMap_map, List.flatMap_map]
        refine List.flatMap_congr fun e he => ?_
        simp only [Function.comp_apply]
        split
        · rename_i hn
          rw [hat e he hn]
        · rfl

/-- Nor has it any effect on what is found. -/
theorem set?_storeNode
    (h : ((nodes.find? n).map fun old => old.value.recordSets).getD [] = node.value.recordSets)
    (m : Name) (key : SetKey) :
    (((storeNode nodes n node).find? m).bind fun node => node.value.find? key) =
      (nodes.find? m).bind fun node => node.value.find? key := by
  have hfind (node : Node) : node.find? key = node.recordSets.find? fun s => s.hasKey key := by
    rw [Node.find?, Node.shared?, Node.recordSets, List.find?_map]
    rfl
  have hold : ((nodes.find? n).bind fun old => old.value.find? key) = node.value.find? key := by
    rw [hfind, ← h]
    cases nodes.find? n with
    | none => rfl
    | some old => exact hfind old.value
  rw [find?_storeNode]
  by_cases hm : (m == n) = true
  · rw [if_pos hm, OrderedMap.find?_congr nodes (Name.compare_eq_iff.mpr hm), hold]
    by_cases hempty : node.value.isEmpty = true
    · rw [if_pos hempty, Node.isEmpty_iff_find?_eq_none.mp hempty]
      rfl
    · rw [if_neg hempty]
      rfl
  · rw [if_neg hm]

end Staging

/-- What comes of a writer in which everything went well is what comes of its commit. -/
theorem Transaction.writeWith_of_ok {ζ τ α : Type} [Access τ] [Backend ζ τ]
    {body : Transaction τ → ζ → Except ZoneError α × Transaction τ × ζ} {t t' : Transaction τ}
    {z z' : ζ} {a : α} (h : body t z = (.ok a, t', z')) :
    t.writeWith id body z = ((t'.commit z').1.map fun _ => a, (t'.commit z').2.2) := by
  rw [writeWith, h]
  simp only
  rcases t'.commit z' with ⟨_ | _, _, _⟩ <;> rfl

namespace PlainZone

/-- What a commit of the present content would be refused for, in a zone that checks its apex. -/
def apexLack? (z : PlainZone) : Option ZoneError :=
  if z.checksOrigin then
    match z.origin.apex? with
    | none => some .noOrigin
    | some apex =>
        if (z.find? apex .soa).isNone then some .noSoa
        else if (z.find? apex .ns).isNone then some .noNs
        else none
  else none

/-- The zone `z'` is a new generation of `z` with the same record sets. Only the node at `n`, if
there is one, is a new object. -/
structure Renumbered (n : Name) (z z' : PlainZone) : Prop where
  generation : z'.generation = z.generation.next
  find?_eq (m : Name) (key : SetKey) : z'.find? m key = z.find? m key
  sets_eq : z'.setsIn .reading = z.setsIn .reading
  node_eq (m : Name) (h : (m == n) = false) : z'.nodes.find? m = z.nodes.find? m
  tag_eq (node : Node) (h : z'.node? n = some node) : node.tag = z'.generation
  /-- Nothing else differs. -/
  rest : z' =
    { z with nodes := z'.nodes, generation := z'.generation, supply := z'.supply }

/-- A new generation is `Renumbered` if it comes from storing a node with the record sets that are
at its name anyway. -/
theorem Renumbered.of_storeNode {z z' : PlainZone} {n : Name} {node : Shared Node}
    (hsets : ((z.nodes.find? n).map fun old => old.value.recordSets).getD [] =
      node.value.recordSets)
    (htag : node.value.tag = z.generation.next)
    (hnodes : z'.nodes = Staging.storeNode z.nodes n node)
    (hrest : z' =
      { z with nodes := z'.nodes, generation := z.generation.next, supply := z'.supply }) :
    Renumbered n z z' where
  generation := by rw [hrest]
  find?_eq m key := by rw [find?_eq_bind, find?_eq_bind, hnodes, Staging.set?_storeNode hsets]
  sets_eq := by
    change ownedSets (z'.nodes.toList.map _) = ownedSets (z.nodes.toList.map _)
    rw [hnodes, Staging.ownedSets_storeNode hsets]
  node_eq m hm := by rw [hnodes, Staging.find?_storeNode, if_neg (by simp [hm])]
  tag_eq found hfound := by
    rw [node?, hnodes, Staging.find?_storeNode, if_pos BEq.rfl] at hfound
    split at hfound
    · cases hfound
    · cases hfound
      rw [htag, hrest]
  rest := by
    conv => lhs; rw [hrest]
    rw [hrest]

namespace DirectChange

/-- The name at which the change is made. -/
def name : DirectChange → Name
  | .replaceSet n _ => n
  | .deleteSet n _ => n
  | .deleteNode n => n

/-- The edit that makes the change in a transaction. -/
def edit : DirectChange → Edit
  | .replaceSet n s => .replace n s
  | .deleteSet n key => .deleteSet n key false
  | .deleteNode n => .deleteName n false

/-- Whether the change has anything to do in a zone: something to store, or to delete. -/
def concerns (z : PlainZone) : DirectChange → Bool
  | .replaceSet n s => !s.isEmpty || (z.find? n s.key).isSome
  | .deleteSet n key => (z.find? n key).isSome
  | .deleteNode n => (z.node? n).isSome

/-- Makes the change in a transaction of its own, which is committed unless the edit is refused. -/
def transact? (c : DirectChange) (z : PlainZone) :
    Option (Except ZoneError Unit × PlainZone) :=
  (Transaction.writer? false z).map fun (t, z) =>
    t.writeWith id (fun t z => ((t.edit z c.edit).1.map fun _ => (), (t.edit z c.edit).2, z)) z

/-! ### What the writer stages -/

/-- What the change stages in a writer that has staged nothing yet. -/
def staging (c : DirectChange) (z : PlainZone) : Staging :=
  match c with
  | .replaceSet n s =>
      if s.isEmpty then (Staging.start false z.supply).eraseSet n s.key
      else (Staging.start false z.supply).put n s
  | .deleteSet n key => (Staging.start false z.supply).eraseSet n key
  | .deleteNode n => (Staging.start false z.supply).eraseName n

/-- The writer of a zone that has staged `s`. -/
def writer (z : PlainZone) (s : Staging) : Transaction PlainAccess :=
  .ofWriter (.writing s) { z with locked := true }

variable {z : PlainZone} {c : DirectChange}

theorem stage_start (c : DirectChange) (z : PlainZone) :
    c.stage (.writing (.start false z.supply)) = .writing (c.staging z) := by
  cases c with
  | replaceSet n s =>
      rw [stage, staging]
      split <;> rfl
  | _ => rfl

theorem writer?_eq_writer (hlocked : z.locked = false) :
    Transaction.writer? false z =
      some (writer z (.start false z.supply), { z with locked := true }) := by
  rw [writer?_eq, hlocked]
  rfl

theorem find?_start (z : PlainZone) (n : Name) (key : SetKey) :
    (Staging.start false z.supply).find? z.nodes n key = z.find? n key :=
  (find?_eq_bind z n key).symm

/-- Deleting a record set in the transaction stages something only if the set is there. -/
theorem planEraseSet_writer (z : PlainZone) (n : Name) (key : SetKey) :
    (writer z (.start false z.supply)).planEraseSet { z with locked := true } n key false =
      .ok (if (z.find? n key).isSome then .eraseSet n key else .nothing) := by
  have hfind : Backend.find? { z with locked := true }
      (writer z (.start false z.supply)).access n key = z.find? n key := find?_start z n key
  rw [Transaction.planEraseSet, hfind]
  cases z.find? n key <;> rfl

/-- The edit stages just what the change stages, but only if the change has anything to do. -/
theorem edit_writer (hname : z.origin.stored c.name = .ok c.name) :
    (writer z (.start false z.supply)).edit { z with locked := true } c.edit =
      (.ok none, writer z (if c.concerns z then c.staging z else .start false z.supply)) := by
  have hstored : (writer z (.start false z.supply)).origin.stored c.name = .ok c.name := hname
  have hwritable : (writer z (.start false z.supply)).requireWritable = .ok () := rfl
  rw [Transaction.edit]
  cases c with
  | replaceSet n s =>
      have hput : (writer z (.start false z.supply)).planPut n s = .ok (.put n s) := rfl
      simp only [name] at hstored
      simp only [edit, Transaction.plan, Transaction.planReplace, hwritable, hstored,
        planEraseSet_writer, hput, concerns, staging, bind, Except.bind]
      by_cases hs : s.isEmpty = true
      · by_cases hfound : (z.find? n s.key).isSome = true
        · simp only [hs, hfound, ↓reduceIte, Bool.or_true]
          rfl
        · simp only [hs, hfound, ↓reduceIte, Bool.not_true, Bool.or_self, Bool.false_eq_true]
          rfl
      · simp only [hs, Bool.false_eq_true, ↓reduceIte, Bool.not_false, Bool.true_or]
        rfl
  | deleteSet n key =>
      simp only [name] at hstored
      simp only [edit, Transaction.plan, Transaction.planDeleteSet, hwritable, hstored,
        planEraseSet_writer, concerns, bind, Except.bind]
      by_cases hfound : (z.find? n key).isSome = true
      · simp only [hfound, ↓reduceIte]
        rfl
      · simp only [hfound, ↓reduceIte, Bool.false_eq_true]
        rfl
  | deleteNode n =>
      have hcontains : Backend.contains { z with locked := true }
          (writer z (.start false z.supply)).access n = (z.node? n).isSome := rfl
      simp only [name] at hstored
      simp only [edit, Transaction.plan, Transaction.planDeleteName, hwritable, hstored, hcontains,
        concerns, bind, Except.bind]
      by_cases hfound : (z.node? n).isSome = true
      · simp only [hfound, ↓reduceIte, Bool.not_true, Bool.false_eq_true]
        rfl
      · simp only [hfound, ↓reduceIte, Bool.not_false, Bool.false_eq_true]
        rfl

/-! ### What is committed -/

/-- What comes of the writer that has staged `s` if it commits. -/
def conclude (z : PlainZone) (s : Staging) : Except ZoneError Unit × PlainZone :=
  (((writer z s).commit { z with locked := true }).1,
    ((writer z s).commit { z with locked := true }).2.2)

/-- A direct change commits what it stages. -/
theorem make?_eq_conclude (hlocked : z.locked = false) (c : DirectChange) :
    c.make? z = some (conclude z (c.staging z)) := by
  rw [make?_eq, writeDirect, writer?_eq_writer hlocked, Option.map_some, conclude, writer, writer,
    ← stage_start]
  rfl

/-- The transaction commits what it stages, which may be nothing. -/
theorem transact?_eq_conclude (hname : z.origin.stored c.name = .ok c.name)
    (hlocked : z.locked = false) :
    c.transact? z = some
      (conclude z (if c.concerns z then c.staging z else .start false z.supply)) := by
  have hunit (r : Except ZoneError Unit) : (r.map fun _ => ()) = r := by cases r <;> rfl
  rw [transact?, writer?_eq_writer hlocked, Option.map_some]
  simp only
  rw [Transaction.writeWith_of_ok (by rw [edit_writer hname]; rfl), hunit, conclude]

/-- The apex is checked as the zone has it if the writer sees the record sets of the zone. -/
theorem apexFault?_writer {s : Staging} (hfind : ∀ m key, s.find? z.nodes m key = z.find? m key) :
    (writer z s).apexFault? { z with locked := true } =
      if s.hasChanges z.nodes then z.apexLack? else none := by
  have hbackend (m : Name) (key : SetKey) :
      Backend.find? { z with locked := true } (writer z s).access m key = z.find? m key :=
    hfind m key
  have hchanged : Backend.changed { z with locked := true } (writer z s).access =
      s.hasChanges z.nodes := rfl
  have hchecks : (writer z s).checksOrigin = z.checksOrigin := rfl
  have horigin : (writer z s).origin = z.origin := rfl
  have hreadOnly : (writer z s).isReadOnly = false := rfl
  simp only [Transaction.apexFault?, hreadOnly, hchanged, hchecks, horigin, hbackend, apexLack?]
  by_cases h : s.hasChanges z.nodes = true
  · by_cases h' : z.checksOrigin = true
    · cases z.origin.apex? with
      | none => simp [h, h']
      | some apex => simp [h, h']
    · simp [h']
  · simp [h]

/-- The writer leaves the zone unlocked, with what it has staged installed if it commits. -/
theorem close_writer (hlocked : z.locked = false) (s : Staging) (commit : Bool) :
    (writer z s).close commit { z with locked := true } =
      (.ok (), { writer z s with access := .ended }, if commit then z.install s else z) := by
  have hclose := close_of_writing { z with locked := true }
    (show (writer z s).access = .writing s from rfl) commit
  have hunlock : ({ z with locked := true } : PlainZone).unlock = z := by
    obtain ⟨_, _, _, _, _, _, locked, _⟩ := z
    cases hlocked
    rfl
  have hinstall : (({ z with locked := true } : PlainZone).install s).unlock = z.install s := by
    rw [install, install]
    split
    · rw [unlock, ← hlocked]
    · exact hunlock
  have hlearn : ({ z with locked := true } : PlainZone).learn (writer z s).learned? =
      { z with locked := true } := by
    have hlearned : (writer z s).learned? = none := rfl
    rw [hlearned, learn, Option.or_none]
  rw [hclose, hlearn, hinstall, hunlock]

/-- A writer that sees the record sets of the zone is refused for what the apex lacks, if it has
changes; otherwise they are installed. -/
theorem conclude_eq (hlocked : z.locked = false) {s : Staging}
    (hfind : ∀ m key, s.find? z.nodes m key = z.find? m key) :
    conclude z s =
      match if s.hasChanges z.nodes then z.apexLack? else none with
      | none => (.ok (), z.install s)
      | some fault => (.error fault, z) := by
  have hended : (writer z s).isEnded = false := rfl
  rw [conclude, Transaction.commit, hended, apexFault?_writer hfind]
  cases (if s.hasChanges z.nodes then z.apexLack? else none) with
  | none => simp only [Bool.false_eq_true, ↓reduceIte, close_writer hlocked]
  | some fault => simp only [Bool.false_eq_true, ↓reduceIte, close_writer hlocked]

/-! ### Changes that have nothing to do -/

/-- A change that has nothing to do stages that something is deleted that is not there. -/
theorem staging_of_not_concerns (h : c.concerns z = false) :
    (∃ key, c.staging z = (Staging.start false z.supply).eraseSet c.name key ∧
      z.find? c.name key = none) ∨
    c.staging z = (Staging.start false z.supply).eraseName c.name ∧ z.node? c.name = none := by
  cases c with
  | replaceSet n s =>
      obtain ⟨hempty, hnone⟩ := Bool.or_eq_false_iff.mp h
      exact .inl ⟨s.key, if_pos (by simpa using hempty),
        Option.not_isSome_iff_eq_none.mp (Bool.eq_false_iff.mp hnone)⟩
  | deleteSet n key =>
      exact .inl ⟨key, rfl, Option.not_isSome_iff_eq_none.mp (Bool.eq_false_iff.mp h)⟩
  | deleteNode n => exact .inr ⟨rfl, Option.not_isSome_iff_eq_none.mp (Bool.eq_false_iff.mp h)⟩

/-- The writer still sees the record sets of the zone. -/
theorem find?_staging (h : c.concerns z = false) (m : Name) (key : SetKey) :
    (c.staging z).find? z.nodes m key = z.find? m key := by
  have hcongr (n : Name) (hm : (m == n) = true) (key : SetKey) : z.find? m key = z.find? n key := by
    rw [find?, find?, node?, node?, OrderedMap.find?_congr z.nodes (Name.compare_eq_iff.mpr hm)]
  rcases staging_of_not_concerns h with ⟨key', hstaging, hnone⟩ | ⟨hstaging, hnone⟩
  · rw [hstaging, Staging.find?_eraseSet, find?_start]
    split
    · rename_i hm
      rw [hcongr c.name hm.1, hm.2, hnone]
    · rfl
  · rw [hstaging, Staging.find?_eraseName, find?_start]
    split
    · rename_i hm
      rw [hcongr c.name hm, find?, hnone]
      rfl
    · rfl

/-- What is staged counts as a change. -/
theorem hasChanges_staging (h : c.concerns z = false) :
    (c.staging z).hasChanges z.nodes = true := by
  rcases staging_of_not_concerns h with ⟨key, hstaging, _⟩ | ⟨hstaging, _⟩
  · rw [hstaging]
    rfl
  · rw [hstaging]
    rfl

/-- What is installed has the record sets of the zone. -/
theorem renumbered_install (h : c.concerns z = false) :
    z.Renumbered c.name (z.install (c.staging z)) := by
  have hinstall : z.install (c.staging z) = { z with
      nodes := ((c.staging z).commit z.nodes z.generation.next).1
      generation := z.generation.next
      supply := ((c.staging z).commit z.nodes z.generation.next).2 } := by
    rw [install, if_pos (hasChanges_staging h)]
  rcases staging_of_not_concerns h with ⟨key, hstaging, hnone⟩ | ⟨hstaging, hnone⟩
  · -- the node that is there is written again without the set that it does not have
    have hsets : ((z.nodes.find? c.name).map fun old => old.value.recordSets).getD [] =
        (Node.merge z.generation.next (z.node? c.name) [(key, .tombstone)]).recordSets := by
      rw [find?, node?] at hnone
      rw [node?]
      cases hold : z.nodes.find? c.name with
      | none => rfl
      | some old =>
          rw [hold] at hnone
          exact (Node.recordSets_erase_of_find?_eq_none hnone).symm
    have hnodes : (z.install (c.staging z)).nodes = Staging.storeNode z.nodes c.name
        ⟨z.supply, Node.merge z.generation.next (z.node? c.name) [(key, .tombstone)]⟩ := by
      rw [hinstall, hstaging, Staging.commit_eq_commitGroups]
      rfl
    exact .of_storeNode hsets (Node.tag_merge ..) hnodes (by rw [hinstall])
  · have hsets : ((z.nodes.find? c.name).map fun old => old.value.recordSets).getD [] =
        (Node.empty z.generation.next).recordSets := by
      rw [Option.map_eq_none_iff.mp hnone]
      rfl
    have hnodes : (z.install (c.staging z)).nodes =
        Staging.storeNode z.nodes c.name ⟨z.supply, .empty z.generation.next⟩ := by
      rw [hinstall, hstaging]
      rfl
    exact .of_storeNode hsets rfl hnodes (by rw [hinstall])

/-- A change is the transaction of its edit if it has anything to do, or has to wait as the
transaction has to. If it has nothing to do, the transaction succeeds and leaves the zone alone, and
the change begins a new generation, unless the apex lacks what it is checked for. -/
theorem change_and_its_transaction (z : PlainZone) (c : DirectChange)
    (hname : z.origin.stored c.name = .ok c.name) :
    (c.concerns z = true ∨ z.locked = true → c.make? z = c.transact? z) ∧
      (c.concerns z = false → z.locked = false →
        c.transact? z = some (.ok (), z) ∧
          match z.apexLack? with
          | some fault => c.make? z = some (.error fault, z)
          | none => ∃ z', c.make? z = some (.ok (), z') ∧ z.Renumbered c.name z') := by
  constructor
  · intro h
    cases hlocked : z.locked with
    | true =>
        rw [make?_eq, writeDirect, transact?, writer?_eq, hlocked]
        rfl
    | false =>
        have hconcerns : c.concerns z = true := h.resolve_right (by simp [hlocked])
        rw [make?_eq_conclude hlocked, transact?_eq_conclude hname hlocked, if_pos hconcerns]
  · intro h hlocked
    have hidle : conclude z (.start false z.supply) = (.ok (), z) := by
      rw [conclude_eq hlocked (find?_start z)]
      rfl
    have hmake := conclude_eq hlocked (find?_staging h)
    rw [if_pos (hasChanges_staging h)] at hmake
    refine ⟨?_, ?_⟩
    · rw [transact?_eq_conclude hname hlocked, if_neg (by simp [h]), hidle]
    · rw [make?_eq_conclude hlocked, hmake]
      cases z.apexLack? with
      | some fault => rfl
      | none => exact ⟨_, rfl, renumbered_install h⟩

end DirectChange

namespace IdleDeletion

open Sample (config host)

/-- A new zone, which may check its apex. -/
def fresh (checksOrigin : Bool) : PlainZone :=
  { config with checksOrigin := checksOrigin }.emptyPlain

def addition : DirectChange := .replaceSet host (.single .hour (.txt []))

def deletion : DirectChange := .deleteSet host { rtype := .a }

theorem change_and_its_transaction_of_fresh :
    (fresh false).origin.stored addition.name = .ok addition.name ∧
      addition.make? (fresh false) = addition.transact? (fresh false) ∧
      (fresh false).origin.stored deletion.name = .ok deletion.name ∧
      deletion.transact? (fresh false) = some (.ok (), fresh false) ∧
      ∃ z', deletion.make? (fresh false) = some (.ok (), z') ∧
        (fresh false).Renumbered deletion.name z' := by
  have hadd : (fresh false).origin.stored addition.name = .ok addition.name := rfl
  have hdelete : (fresh false).origin.stored deletion.name = .ok deletion.name := rfl
  obtain ⟨hsame, _⟩ := DirectChange.change_and_its_transaction (fresh false) addition hadd
  obtain ⟨_, hidle⟩ := DirectChange.change_and_its_transaction (fresh false) deletion hdelete
  obtain ⟨htransact, hmake⟩ := hidle rfl rfl
  exact ⟨hadd, hsame (.inl rfl), hdelete, htransact, hmake⟩

/-- The deletion of what is not there makes a new generation, and is refused where the apex is
checked. In a transaction it does neither. -/
theorem idle_deletion_differs :
    (fresh false).origin.stored deletion.name = .ok deletion.name ∧
      (deletion.make? (fresh false)).map (·.2.generation) = some ⟨2⟩ ∧
      (deletion.transact? (fresh false)).map (·.2.generation) = some ⟨1⟩ ∧
      (deletion.make? (fresh true)).map (·.1) = some (.error .noSoa) ∧
      (deletion.transact? (fresh true)).map (·.1) = some (.ok ()) :=
  ⟨rfl, rfl, rfl, rfl, rfl⟩

end IdleDeletion

end PlainZone

end DnsZone
