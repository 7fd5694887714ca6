import DnsZone.Proofs.VersionedZone.Sharing

/-!
# Copying on write

A working copy changes nothing of the version that it is based on. A name counts as changed from the
first change that has an effect there, which is when its node is copied; until then the slot holds
the very object of the base. A copy takes over the record sets of the original, again the very
objects, until each is stored anew or deleted.
-/

namespace DnsZone

/-! ### Changes of a working copy -/

/-- A change that a writer makes to its working copy. -/
inductive CopyEdit where
  | put (n : Name) (s : RecordSet)
  | eraseName (n : Name)
  | eraseSet (n : Name) (key : SetKey)

namespace CopyEdit

def name : CopyEdit → Name
  | .put n _ => n
  | .eraseName n => n
  | .eraseSet n _ => n

/-- Whether the change stores the record set known by `key` at a name. -/
def stores (n : Name) (key : SetKey) : CopyEdit → Bool
  | .put m s => n == m && s.key == key
  | _ => false

/-- Whether the change stores or deletes the record set known by `key` at a name. -/
def concerns (n : Name) (key : SetKey) : CopyEdit → Bool
  | .put m s => n == m && s.key == key
  | .eraseName m => n == m
  | .eraseSet m key' => n == m && key' == key

/-- The object that the change makes of a record set, with a stamp drawn from `supply`. -/
def object? (supply : Nat) : CopyEdit → Option (Shared RecordSet)
  | .put _ s => some ⟨supply + 1, s⟩
  | _ => none

theorem stores_of_object? {edit : CopyEdit} {n : Name} {key : SetKey} {supply : Nat}
    (h : edit.concerns n key = true) (hobject : (edit.object? supply).isSome = true) :
    edit.stores n key = true := by
  cases edit with
  | put => exact h
  | eraseName => cases hobject
  | eraseSet => cases hobject

end CopyEdit

namespace WorkingCopy

def perform (w : WorkingCopy) : CopyEdit → WorkingCopy
  | .put n s => w.put n s
  | .eraseName n => w.eraseName n
  | .eraseSet n key => w.eraseSet n key

def performAll (w : WorkingCopy) (edits : List CopyEdit) : WorkingCopy := edits.foldl perform w

/-- A working copy of `base`, or one that is to replace its content. -/
def start (replacement : Bool) (id : VersionId) (base : Version) : WorkingCopy :=
  if replacement then replacing id base else extending id base

/-- The object at a name that a working copy starts out with. -/
def inherited? (replacement : Bool) (base : Version) (n : Name) : Option (Shared Node) :=
  if replacement then none else base.node? n

/-- The object that holds the record set known by `key` at a name. -/
def shared? (w : WorkingCopy) (n : Name) (key : SetKey) : Option (Shared RecordSet) :=
  (w.node? n).bind fun node => node.shared? key

theorem performAll_append (w : WorkingCopy) (first rest : List CopyEdit) :
    w.performAll (first ++ rest) = (w.performAll first).performAll rest := List.foldl_append

theorem find?_eq_map_shared? (w : WorkingCopy) (n : Name) (key : SetKey) :
    w.find? n key = (w.shared? n key).map (·.value) := by
  rw [find?, shared?, Option.map_bind]
  rfl

theorem shared?_congr (w : WorkingCopy) {n n' : Name} (h : (n == n') = true) (key : SetKey) :
    w.shared? n key = w.shared? n' key := by
  rw [shared?, shared?, node?, node?, w.slot?_congr h]

/-! ### What one change does -/

/-- A change either has no effect, or its name counts as changed from then on and there is a node of
the working copy itself there, or none. -/
theorem perform_cases (w : WorkingCopy) (edit : CopyEdit) :
    w.perform edit = w ∨
      (w.perform edit).changed = w.changed.insert edit.name () ∧
      (∀ m, (m == edit.name) = false → (w.perform edit).slot? m = w.slot? m) ∧
      ∀ m slot, (m == edit.name) = true → (w.perform edit).slot? m = some slot →
        ∃ node, slot = .owned node ∧ node.value.isEmpty = false := by
  cases edit with
  | put n s =>
      refine .inr ⟨rfl, fun m hm => ?_, fun m slot hm hslot => ?_⟩
      · exact (w.slot?_put n s m).trans (if_neg (Bool.eq_false_iff.mp hm))
      · have hm : (m == n) = true := hm
        rw [perform, slot?_put, if_pos hm] at hslot
        cases hslot
        exact ⟨_, rfl, Node.isEmpty_replace _ _⟩
  | eraseName n =>
      by_cases hthere : w.slots.contains n = true
      · refine .inr ⟨?_, fun m hm => ?_, fun m slot hm hslot => ?_⟩
        · rw [perform, eraseName, if_pos hthere]
          rfl
        · exact (w.slot?_eraseName n m).trans (if_neg (Bool.eq_false_iff.mp hm))
        · have hm : (m == n) = true := hm
          rw [perform, slot?_eraseName, if_pos hm] at hslot
          cases hslot
      · exact .inl (if_neg hthere)
  | eraseSet n key =>
      by_cases hfound : (w.find? n key).isSome = true
      · refine .inr ⟨?_, fun m hm => ?_, fun m slot hm hslot => ?_⟩
        · rw [perform, eraseSet, if_pos hfound]
          simp only
          split <;> rfl
        · exact (slot?_eraseSet hfound m).trans (if_neg (Bool.eq_false_iff.mp hm))
        · have hm : (m == n) = true := hm
          rw [perform, slot?_eraseSet hfound, if_pos hm] at hslot
          split at hslot
          · cases hslot
          · rename_i hfilled
            cases hslot
            exact ⟨_, rfl, Bool.eq_false_iff.mpr hfilled⟩
      · exact .inl (if_neg hfound)

/-- Leaving an empty node out loses no record set. -/
theorem shared?_of_filled (node : Shared Node) (key : SetKey) :
    ((if node.value.isEmpty then none else some (Slot.owned node)).map Slot.node).bind
      (fun node => node.shared? key) = node.value.shared? key := by
  split
  · rename_i hempty
    rw [Node.shared?, List.isEmpty_iff.mp hempty]
    rfl
  · rfl

theorem shared?_ownNode (w : WorkingCopy) (n : Name) (key : SetKey) :
    (w.ownNode n).value.shared? key = w.shared? n key := by
  rw [ownNode, shared?, node?]
  cases w.slot? n with
  | none => rfl
  | some slot => cases slot <;> rfl

/-- What becomes of the record set known by `key` at a name. One that the change does not concern
stays the object that it was, also when its node is copied. -/
theorem shared?_perform (w : WorkingCopy) (edit : CopyEdit) (n : Name) (key : SetKey) :
    (w.perform edit).shared? n key =
      if edit.concerns n key then edit.object? w.supply else w.shared? n key := by
  cases edit with
  | put m s =>
      rw [shared?, node?, perform, slot?_put]
      by_cases hm : (n == m) = true
      · rw [if_pos hm, w.shared?_congr hm, ← shared?_ownNode]
        by_cases hkey : s.key = key
        · simpa [CopyEdit.concerns, hm, hkey, CopyEdit.object?, Slot.node, Slot.object] using
            Node.shared?_replace (w.ownNode m).value ⟨w.supply + 1, s⟩ key
        · simpa [CopyEdit.concerns, hkey, Slot.node, Slot.object] using
            Node.shared?_replace (w.ownNode m).value ⟨w.supply + 1, s⟩ key
      · rw [if_neg hm, if_neg (by simp [CopyEdit.concerns, hm])]
        rfl
  | eraseName m =>
      rw [shared?, node?, perform, slot?_eraseName]
      by_cases hm : (n == m) = true
      · rw [if_pos hm, if_pos (by exact hm)]
        rfl
      · rw [if_neg hm, if_neg (by exact hm)]
        rfl
  | eraseSet m key' =>
      by_cases hfound : (w.find? m key').isSome = true
      · rw [shared?, node?, perform, slot?_eraseSet hfound]
        by_cases hm : (n == m) = true
        · have hown := shared?_of_filled
            ⟨(w.ownNode m).stamp, (w.ownNode m).value.erase key'⟩ key
          rw [if_pos hm, hown, Node.shared?_erase, w.shared?_congr hm, ← shared?_ownNode]
          simp [CopyEdit.concerns, hm, CopyEdit.object?]
        · rw [if_neg hm, if_neg (by simp [CopyEdit.concerns, hm])]
          rfl
      · have hnone : w.shared? m key' = none := by
          rw [find?_eq_map_shared?] at hfound
          simpa using hfound
        have hsame : w.perform (.eraseSet m key') = w := if_neg hfound
        rw [hsame]
        split
        · rename_i hconcerns
          obtain ⟨hm, hkey⟩ := Bool.and_eq_true_iff.mp hconcerns
          rw [w.shared?_congr hm, ← eq_of_beq hkey, hnone]
          rfl
        · rfl

/-! ### Any number of changes -/

/-- What holds at the start and is kept by every change holds after any number of them. -/
theorem performAll_induction {P : WorkingCopy → Prop} {w : WorkingCopy} (h : P w)
    (hstep : ∀ w edit, P w → P (w.perform edit)) (edits : List CopyEdit) :
    P (w.performAll edits) :=
  List.foldlRecOn edits perform h fun w hw edit _ => hstep w edit hw

theorem id_performAll (w : WorkingCopy) (edits : List CopyEdit) :
    (w.performAll edits).id = w.id := by
  refine performAll_induction (P := fun w' => w'.id = w.id) rfl (fun w' edit h => ?_) edits
  cases edit with
  | put n s => exact h
  | eraseName n => exact (w'.id_eraseName n).trans h
  | eraseSet n key => exact (w'.id_eraseSet n key).trans h

theorem Extends.performAll {base : Version} {w : WorkingCopy} (h : w.Extends base)
    (edits : List CopyEdit) : (w.performAll edits).Extends base := by
  refine performAll_induction h (fun w edit h => ?_) edits
  cases edit with
  | put n s => exact h.put n s
  | eraseName n => exact h.eraseName n
  | eraseSet n key => exact h.eraseSet n key

theorem hasChanges_of_changed {w : WorkingCopy} {n : Name} {changed : NameSet}
    (h : w.changed = changed.insert n ()) : w.hasChanges = true := by
  rw [hasChanges, h, OrderedMap.isEmpty_insert]
  exact Bool.or_true _

/-- Changes that are not counted as such had no effect. -/
theorem performAll_of_not_hasChanges {w : WorkingCopy} {edits : List CopyEdit}
    (h : (w.performAll edits).hasChanges = false) : w.performAll edits = w := by
  refine performAll_induction (P := fun w' => w'.hasChanges = false → w' = w) (fun _ => rfl)
    (fun w' edit ih hnone => ?_) edits h
  rcases w'.perform_cases edit with hsame | ⟨hchanged, -⟩
  · rw [hsame] at hnone ⊢
    exact ih hnone
  · rw [hasChanges_of_changed hchanged] at hnone
    cases hnone

theorem shared?_performAll_of_not_concerns {n : Name} {key : SetKey} {edits : List CopyEdit}
    (w : WorkingCopy) (h : ∀ edit ∈ edits, edit.concerns n key = false) :
    (w.performAll edits).shared? n key = w.shared? n key := by
  induction edits generalizing w with
  | nil => rfl
  | cons edit rest ih =>
      obtain ⟨hedit, hrest⟩ := List.forall_mem_cons.mp h
      have hstep := w.shared?_perform edit n key
      rw [hedit] at hstep
      exact (ih (w.perform edit) hrest).trans hstep

theorem shared?_of_performAll {n : Name} {key : SetKey} {s : Shared RecordSet}
    {edits : List CopyEdit} {w : WorkingCopy} (h : ∀ edit ∈ edits, edit.stores n key = false)
    (hs : (w.performAll edits).shared? n key = some s) : w.shared? n key = some s := by
  induction edits generalizing w with
  | nil => exact hs
  | cons edit rest ih =>
      obtain ⟨hedit, hrest⟩ := List.forall_mem_cons.mp h
      have hafter := ih hrest hs
      rw [shared?_perform] at hafter
      split at hafter
      · rename_i hconcerns
        have hstores := CopyEdit.stores_of_object? hconcerns (by rw [hafter]; rfl)
        rw [hedit] at hstores
        cases hstores
      · exact hafter

/-! ### What stands in the slots -/

theorem slot?_start (replacement : Bool) (id : VersionId) (base : Version) (n : Name) :
    (start replacement id base).slot? n = (inherited? replacement base n).map .shared := by
  cases replacement with
  | true => rfl
  | false => exact slot?_fork id base base.supply n

theorem id_start (replacement : Bool) (id : VersionId) (base : Version) :
    (start replacement id base).id = id := by
  cases replacement <;> rfl

theorem extends_start (replacement : Bool) (id : VersionId) (base : Version) :
    (start replacement id base).Extends base := by
  cases replacement with
  | true => exact extends_forkReplacing id base base.supply
  | false => exact extends_fork id base base.supply

theorem contains_insert (changed : NameSet) (n m : Name) :
    (changed.insert n ()).contains m = (m == n || changed.contains m) := by
  rw [OrderedMap.contains, OrderedMap.find?_insert]
  simp only [Name.compare_eq_iff]
  by_cases h : (m == n) = true
  · rw [if_pos h, h]
    rfl
  · rw [if_neg h, Bool.eq_false_iff.mpr h]
    rfl

/-- Names that were not changed have the objects that were there at the start, and the others nodes
of the working copy or none. No node is empty. -/
structure Follows (old? : Name → Option (Shared Node)) (w : WorkingCopy) : Prop where
  untouched : ∀ n, w.changed.contains n = false → w.slot? n = (old? n).map .shared
  touched : ∀ n slot, w.changed.contains n = true → w.slot? n = some slot →
    ∃ node, slot = .owned node
  filled : ∀ n slot, w.slot? n = some slot → slot.node.isEmpty = false

theorem Follows.perform {old? : Name → Option (Shared Node)} {w : WorkingCopy}
    (h : w.Follows old?) (edit : CopyEdit) : (w.perform edit).Follows old? := by
  rcases w.perform_cases edit with hsame | ⟨hchanged, hother, hhere⟩
  · rw [hsame]
    exact h
  · have hcontains (m : Name) :
        (w.perform edit).changed.contains m = (m == edit.name || w.changed.contains m) := by
      rw [hchanged, contains_insert]
    constructor
    · intro n hn
      rw [hcontains, Bool.or_eq_false_iff] at hn
      rw [hother n hn.1]
      exact h.untouched n hn.2
    · intro n slot hn hslot
      by_cases hname : (n == edit.name) = true
      · obtain ⟨node, hnode, -⟩ := hhere n slot hname hslot
        exact ⟨node, hnode⟩
      · rw [Bool.not_eq_true] at hname
        rw [hcontains, hname, Bool.false_or] at hn
        rw [hother n hname] at hslot
        exact h.touched n slot hn hslot
    · intro n slot hslot
      by_cases hname : (n == edit.name) = true
      · obtain ⟨node, rfl, hfilled⟩ := hhere n slot hname hslot
        exact hfilled
      · rw [Bool.not_eq_true] at hname
        rw [hother n hname] at hslot
        exact h.filled n slot hslot

theorem follows_start (replacement : Bool) (id : VersionId) {base : Version}
    (hfilled : ∀ e ∈ base.nodes.toList, e.2.value.isEmpty = false) :
    (start replacement id base).Follows (inherited? replacement base) where
  untouched n _ := slot?_start replacement id base n
  touched n slot hn _ := by cases replacement <;> cases hn
  filled n slot hslot := by
    rw [slot?_start] at hslot
    obtain ⟨node, hnode, rfl⟩ := Option.map_eq_some_iff.mp hslot
    rw [inherited?] at hnode
    split at hnode
    · cases hnode
    · obtain ⟨e, he, -, rfl⟩ := OrderedMap.mem_of_find?_eq_some hnode
      exact hfilled e he

/-- The object of a record set at a name that was not changed. -/
theorem Follows.shared?_eq {old? : Name → Option (Shared Node)} {w : WorkingCopy}
    (h : w.Follows old?) {n : Name} (hn : w.changed.contains n = false) (key : SetKey) :
    w.shared? n key = (old? n).bind fun node => node.value.shared? key := by
  rw [shared?, node?, h.untouched n hn, Option.map_map, Option.bind_map]
  rfl

theorem sets_freeze (w : WorkingCopy) : w.freeze.sets = w.sets := by
  rw [Version.sets, freeze, OrderedMap.toList_mapValues, List.map_map]
  rfl

/-- What a working copy of `base`, numbered `id`, has of its own and what it shares with `base`
after some changes. -/
structure CopiesOnWrite (replacement : Bool) (id : VersionId) (base : Version)
    (edits : List CopyEdit) (w : WorkingCopy) : Prop where
  /-- A name that was not changed has the very object of the base, or none in a replacement. -/
  untouched : ∀ n, w.changed.contains n = false →
    w.slot? n = (inherited? replacement base n).map .shared
  touched : ∀ n slot, w.changed.contains n = true → w.slot? n = some slot →
    ∃ node, slot = .owned node ∧ node.value.tag = id
  /-- No node that is still to be copied carries the number of the working copy. -/
  older : ∀ n node, w.slot? n = some (.shared node) → node.value.tag ≠ id
  filled : ∀ n slot, w.slot? n = some slot → slot.node.isEmpty = false
  /-- A record set that no change concerned since the name was not changed yet is the object that
  the base has under its key. -/
  keeps : ∀ first rest n key, edits = first ++ rest →
    ((start replacement id base).performAll first).changed.contains n = false →
    (∀ edit ∈ rest, edit.concerns n key = false) →
    w.shared? n key = (inherited? replacement base n).bind fun node => node.value.shared? key
  /-- A record set that was not stored since then is an object of the base, if it is there. -/
  inherits : ∀ first rest n key s, edits = first ++ rest →
    ((start replacement id base).performAll first).changed.contains n = false →
    (∀ edit ∈ rest, edit.stores n key = false) → w.shared? n key = some s →
    ((inherited? replacement base n).bind fun node => node.value.shared? key) = some s
  unchanged : w.hasChanges = false → w.content = base.content ∧ w.sets = base.sets
  frozen_id : w.freeze.id = id
  frozen_content : w.freeze.content = w.content
  frozen_sets : w.freeze.sets = w.sets
  frozen_untouched : ∀ n, w.changed.contains n = false →
    w.freeze.node? n = inherited? replacement base n
  /-- A node at a changed name is none of the objects of the base. -/
  frozen_touched : ∀ n node, w.changed.contains n = true → w.freeze.node? n = some node →
    ∀ m old, base.node? m = some old → old.same node = false

theorem unchanged_start {replacement : Bool} {id : VersionId} {base : Version}
    (h : (start replacement id base).hasChanges = false) :
    (start replacement id base).content = base.content ∧
      (start replacement id base).sets = base.sets := by
  cases replacement with
  | false =>
      refine ⟨content_fork id base base.supply, ?_⟩
      change ownedSets ((base.nodes.mapValues Slot.shared).toList.map _) = _
      rw [OrderedMap.toList_mapValues, List.map_map]
      rfl
  | true =>
      -- A replacement has no changes only if there is nothing to replace.
      have hempty : base.nodes.isEmpty = true := by
        simpa [hasChanges, start, replacing, forkReplacing, Version.isEmpty,
          OrderedMap.isEmpty] using h
      constructor
      · funext n
        have hnone := OrderedMap.isEmpty_iff_find?_eq_none.mp hempty n
        change none = (base.nodes.find? n).map _
        rw [hnone]
        rfl
      · rw [Version.sets, List.isEmpty_iff.mp hempty]
        rfl

section

variable {replacement : Bool} {id : VersionId} {base : Version}

theorem id_performAll_start (edits : List CopyEdit) :
    ((start replacement id base).performAll edits).id = id :=
  (id_performAll _ edits).trans (id_start replacement id base)

theorem extends_performAll_start (edits : List CopyEdit) :
    ((start replacement id base).performAll edits).Extends base :=
  (extends_start replacement id base).performAll edits

theorem follows_performAll_start (hfilled : ∀ e ∈ base.nodes.toList, e.2.value.isEmpty = false)
    (edits : List CopyEdit) :
    ((start replacement id base).performAll edits).Follows (inherited? replacement base) :=
  performAll_induction (follows_start replacement id hfilled) (fun _ edit h => h.perform edit) edits

/-- A node of the working copy itself carries its number. -/
theorem tag_of_owned {edits : List CopyEdit} {n : Name} {node : Shared Node}
    (h : ((start replacement id base).performAll edits).slot? n = some (.owned node)) :
    node.value.tag = id :=
  ((extends_performAll_start edits).owned n node h).1.trans (id_performAll_start edits)

theorem unchanged_performAll_start {edits : List CopyEdit}
    (h : ((start replacement id base).performAll edits).hasChanges = false) :
    ((start replacement id base).performAll edits).content = base.content ∧
      ((start replacement id base).performAll edits).sets = base.sets := by
  have hsame := performAll_of_not_hasChanges h
  rw [hsame] at h ⊢
  exact unchanged_start h

end

theorem Follows.node?_freeze {old? : Name → Option (Shared Node)} {w : WorkingCopy}
    (h : w.Follows old?) {n : Name} (hn : w.changed.contains n = false) :
    w.freeze.node? n = old? n := by
  rw [WorkingCopy.node?_freeze, h.untouched n hn, Option.map_map]
  exact Option.map_id_apply

/-- A node of the working copy itself was made after all objects of the base. -/
theorem Extends.same_eq_false {base : Version} {w : WorkingCopy} (h : w.Extends base) {n m : Name}
    {node old : Shared Node} (hnode : w.slot? n = some (.owned node))
    (hold : base.node? m = some old) : old.same node = false := by
  have hlt : old.stamp < node.stamp :=
    (Version.stamp_lt_of_node? hold).trans_le (h.owned n node hnode).2
  rw [Shared.same, beq_eq_false_iff_ne]
  exact hlt.ne

/-- Whatever a writer changes in its working copy of a version without empty nodes, numbered above
all nodes of that version: it copies the nodes that it changes, and shares all else. -/
theorem copies_on_write (replacement : Bool) (id : VersionId) (base : Version)
    (edits : List CopyEdit) (hfilled : ∀ e ∈ base.nodes.toList, e.2.value.isEmpty = false)
    (hid : ∀ e ∈ base.nodes.toList, e.2.value.tag.val < id.val) :
    CopiesOnWrite replacement id base edits ((start replacement id base).performAll edits) where
  untouched := (follows_performAll_start hfilled edits).untouched
  touched n slot hn hslot := by
    obtain ⟨node, rfl⟩ := (follows_performAll_start hfilled edits).touched n slot hn hslot
    exact ⟨node, rfl, tag_of_owned hslot⟩
  older n node hslot htag := by
    have hshared := (extends_performAll_start edits).shared n node hslot
    obtain ⟨e, he, -, rfl⟩ := OrderedMap.mem_of_find?_eq_some hshared
    exact absurd (hid e he) (htag ▸ Nat.lt_irrefl _)
  filled := (follows_performAll_start hfilled edits).filled
  keeps := by
    rintro first rest n key rfl hn hrest
    rw [performAll_append, shared?_performAll_of_not_concerns _ hrest]
    exact (follows_performAll_start hfilled first).shared?_eq hn key
  inherits := by
    rintro first rest n key s rfl hn hrest hs
    rw [performAll_append] at hs
    rw [← (follows_performAll_start hfilled first).shared?_eq hn key]
    exact shared?_of_performAll hrest hs
  unchanged := unchanged_performAll_start
  frozen_id := id_performAll_start edits
  frozen_content := content_freeze _
  frozen_sets := sets_freeze _
  frozen_untouched _ hn := (follows_performAll_start hfilled edits).node?_freeze hn
  frozen_touched n node hn hnode m old hold := by
    rw [node?_freeze] at hnode
    obtain ⟨slot, hslot, rfl⟩ := Option.map_eq_some_iff.mp hnode
    obtain ⟨node, rfl⟩ := (follows_performAll_start hfilled edits).touched n slot hn hslot
    exact (extends_performAll_start edits).same_eq_false hslot hold

namespace TwoNames

/-- The name `g`. -/
def left : Name := .ofOctets [0x67] false (by decide)

/-- The name `h`. -/
def right : Name := .ofOctets [0x68] false (by decide)

/-- A version with record sets at two names. -/
def base : Version :=
  ((extending ⟨2⟩ (.empty ⟨1⟩ 0)).performAll
    [.put left (.single .hour (.a ⟨192, 0, 2, 1⟩)), .put left (.single .hour (.txt [])),
      .put right (.single .hour (.txt []))]).freeze

/-- One of two record sets at `g` is replaced, and what is not at `h` is deleted there. -/
def edits : List CopyEdit :=
  [.put left (.single .zero (.a ⟨192, 0, 2, 2⟩)), .eraseSet right .soa]

theorem copies_on_write_of_two_names :
    (∀ e ∈ base.nodes.toList, e.2.value.isEmpty = false) ∧
      (∀ e ∈ base.nodes.toList, e.2.value.tag.val < 3) ∧
      ((start false ⟨3⟩ base).performAll edits).changed.contains left = true ∧
      ((start false ⟨3⟩ base).performAll edits).changed.contains right = false ∧
      CopiesOnWrite false ⟨3⟩ base edits ((start false ⟨3⟩ base).performAll edits) := by
  have hfilled : ∀ e ∈ base.nodes.toList, e.2.value.isEmpty = false := by decide
  have hid : ∀ e ∈ base.nodes.toList, e.2.value.tag.val < 3 := by decide
  exact ⟨hfilled, hid, by decide, by decide, copies_on_write false ⟨3⟩ base edits hfilled hid⟩

end TwoNames

end WorkingCopy

end DnsZone
