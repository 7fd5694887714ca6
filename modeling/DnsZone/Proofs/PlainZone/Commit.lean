import DnsZone.PlainZone.Access
import DnsZone.Proofs.Staging.Commit

/-!
# Commits go through the overlay name by name

A commit takes the staged changes one by one with a single node pending. That this misses nothing
rests on the order of the overlay: what is staged at one name stands together, in whatever case its
letters are, both for the pass of a commit and for the look-up of the changes at a name. So every
change is applied once and every name with changes written once, and what is there afterwards is
what the writer saw.
-/

namespace DnsZone

/-- A journal of stores goes through all staged changes, name by name. -/
structure Overlay.GoneThroughBy (o : Overlay) (journal : List (Name × NameChanges)) : Prop where
  /-- Every staged change was applied once, in the order of the overlay. -/
  applied : (journal.flatMap fun g => g.2) = o.toList.map fun e => (e.1.key, e.2)
  /-- No name was written twice. -/
  ascending : journal.Pairwise fun a b => Name.compare a.1 b.1 = .lt
  /-- A node was stored when all changes at its name had been applied. -/
  whole : ∀ g ∈ journal, g.2 = o.changesAt g.1
  written_iff : ∀ n, (∃ g ∈ journal, (n == g.1) = true) ↔ ∃ e ∈ o.toList, (e.1.owner == n) = true

namespace Overlay

theorem changesAt_eq_nil_iff_forall {o : Overlay} {n : Name} :
    o.changesAt n = [] ↔ ∀ e ∈ o.toList, (e.1.owner == n) = false := by
  rw [changesAt_eq_filter, List.map_eq_nil_iff, List.filter_eq_nil_iff]
  simp only [Bool.not_eq_true]

theorem goneThroughBy_groups (o : Overlay) : o.GoneThroughBy o.groups where
  applied := flatMap_groupEntries o.toList
  ascending := o.sorted_groups
  whole _ hg := eq_changesAt_of_mem_groups hg
  written_iff n := by
    rw [exists_group_iff, Ne, changesAt_eq_nil_iff_forall]
    simp

end Overlay

namespace PlainZone

/-- How a commit of staged changes makes `z'` of a plain zone. -/
structure CommitsNameByName (z : PlainZone) (s : Staging) (z' : PlainZone) : Prop where
  /-- What is looked up at a name are the changes that are staged there, all of them. -/
  changesAt_eq : ∀ n, s.overlay.changesAt n =
    (s.overlay.toList.filter fun e => e.1.owner == n).map fun e => (e.1.key, e.2)
  /-- They are in the order of the types and, for one type, of the types covered. -/
  changesAt_sorted : ∀ n,
    (s.overlay.changesAt n).Pairwise fun a b => SetKey.compare a.1 b.1 = .lt
  /-- The nodes are those that a pass through the overlay leaves, and its journal misses nothing. -/
  pass : ∃ supply journal,
    (Staging.rewriter z.generation.next).watched.run ((s.visible z.nodes, s.supply), [])
      s.overlay.toList = ((z'.nodes, supply), journal) ∧ s.overlay.GoneThroughBy journal
  /-- At every name there is the node that the writer saw. -/
  node?_eq : ∀ n, z'.node? n = z.nodeIn? (.writing s) n
  /-- A name at which nothing is staged and nothing hidden has the very object of before. -/
  keeps : ∀ n, (∀ e ∈ s.overlay.toList, (e.1.owner == n) = false) → s.replacement = false →
    s.wiped.contains n = false → z'.nodes.find? n = z.nodes.find? n

/-- What is installed is what a pass through the overlay leaves, also if it is not made because
there is nothing to commit. -/
theorem nodes_install_eq_commit (z : PlainZone) (s : Staging) :
    (z.install s).nodes = (s.commit z.nodes z.generation.next).1 := by
  rw [install]
  cases hchanges : s.hasChanges z.nodes with
  | true => rfl
  | false => rw [Staging.commit_of_not_hasChanges hchanges]; rfl

/-- Whatever is staged and whatever is in the zone: a commit applies every staged change once,
writes every name with staged changes once, and leaves what the writer saw. -/
theorem commits_name_by_name (z : PlainZone) (s : Staging) (learned? : Option Name) :
    z.CommitsNameByName s (z.finish true learned? (.writing s)).2 := by
  have hnodes : (z.finish true learned? (.writing s)).2.nodes =
      (s.commit z.nodes z.generation.next).1 := (z.learn learned?).nodes_install_eq_commit s
  refine ⟨s.overlay.changesAt_eq_filter, s.overlay.sorted_changesAt, ?_, fun n => ?_,
    fun n hn hreplacement hwiped => ?_⟩
  · refine ⟨(s.commit z.nodes z.generation.next).2, _, ?_, s.overlay.goneThroughBy_groups⟩
    rw [Rewriter.run_watched, hnodes]
    rfl
  · rw [node?, hnodes]
    exact s.find?_commit z.nodes z.generation.next n
  · have hshown : s.hides n = false := by
      rw [Staging.hides, hreplacement, hwiped]
      rfl
    rw [hnodes, Staging.find?_commit_of_changesAt_eq_nil (Overlay.changesAt_eq_nil_iff_forall.mpr hn),
      hshown]
    rfl

namespace MixedCase

/-- The name `Q`. -/
def upper : Name := .ofOctets [0x51] false (by decide)

/-- The same name as `q`. -/
def lower : Name := .ofOctets [0x71] false (by decide)

/-- The name `u`. -/
def other : Name := .ofOctets [0x75] false (by decide)

/-- A zone with nodes at `q` and `u`. -/
def zone : PlainZone :=
  { create none .internet true false with
    nodes := (OrderedMap.empty.insert lower ⟨0, .empty .first⟩).insert other ⟨1, .empty .first⟩
    supply := 2 }

/-- Two changes at one name in two spellings. -/
def staging : Staging :=
  ((Staging.start false zone.supply).put upper (.single .hour (.txt []))).eraseSet lower .ns

theorem commits_name_by_name_of_mixedCase :
    (staging.overlay.changesAt lower).length = 2 ∧
      (∀ e ∈ staging.overlay.toList, (e.1.owner == other) = false) ∧
      staging.replacement = false ∧ staging.wiped.contains other = false ∧
      zone.CommitsNameByName staging (zone.finish true none (.writing staging)).2 :=
  ⟨by decide, by decide, rfl, rfl, zone.commits_name_by_name staging none⟩

end MixedCase

end PlainZone

end DnsZone
