import DnsZone.Proofs.Listing
import DnsZone.Transaction.Backend

/-!
# What a kind of zone shows its transactions

A backend answers five kinds of questions: it finds a record set, finds a node, tells whether there
is a node, lists all record sets, and tells whether there are changes. The first four `Shows` one
content if they can all be answered from it. Then two backends that show the same content differ at
most in the order of the record sets within a node.
-/

namespace DnsZone

variable {ζ τ ζ' τ' : Type} [Access τ] [Backend ζ τ] [Access τ'] [Backend ζ' τ']

/-- The transaction sees the content `c`, whichever way it looks. -/
structure Shows (z : ζ) (a : τ) (c : Content) : Prop where
  find? : ∀ n key, Backend.find? z a n key = c.set? n key
  node? : ∀ n, (Backend.node? z a n).map Node.content = c n
  keyed : ∀ n node, Backend.node? z a n = some node → node.Keyed
  contains : ∀ n, Backend.contains z a n = (c n).isSome
  sets : ∃ nodes, NodeListing (Backend.node? z a) nodes ∧ Backend.sets z a = ownedSets nodes

namespace Shows

variable {z : ζ} {a : τ} {z' : ζ'} {a' : τ'} {c : Content}

theorem find?_eq (h : Shows z a c) (h' : Shows z' a' c) :
    (Backend.find? z a : Name → SetKey → Option RecordSet) = Backend.find? z' a' := by
  funext n key
  rw [h.find?, h'.find?]

theorem contains_eq (h : Shows z a c) (h' : Shows z' a' c) :
    (Backend.contains z a : Name → Bool) = Backend.contains z' a' := by
  funext n
  rw [h.contains, h'.contains]

theorem rel_node? (h : Shows z a c) (h' : Shows z' a' c) (n : Name) :
    Option.Rel Node.Alike (Backend.node? z a n) (Backend.node? z' a' n) := by
  have hcontent : (Backend.node? z a n).map Node.content =
      (Backend.node? z' a' n).map Node.content := by
    rw [h.node?, h'.node?]
  cases hn : Backend.node? z a n with
  | none =>
      cases hn' : Backend.node? z' a' n with
      | none => exact .none
      | some node' =>
          rw [hn, hn'] at hcontent
          cases hcontent
  | some node =>
      cases hn' : Backend.node? z' a' n with
      | none =>
          rw [hn, hn'] at hcontent
          cases hcontent
      | some node' =>
          rw [hn, hn'] at hcontent
          exact .some (Node.alike_of_content_eq (h.keyed n node hn) (h'.keyed n node' hn')
            (Option.some.inj hcontent))

theorem agree_sets (h : Shows z a c) (h' : Shows z' a' c) :
    Listing.Agree (Backend.sets z a) (Backend.sets z' a') := by
  obtain ⟨nodes, hlisting, hsets⟩ := h.sets
  obtain ⟨nodes', hlisting', hsets'⟩ := h'.sets
  rw [hsets, hsets']
  refine Listing.agree_ownedSets (hlisting.forall₂_alike hlisting' h.keyed h'.keyed fun n => ?_)
  rw [h.node?, h'.node?]

theorem find?_eq_bind (h : Shows z a c) (n : Name) (key : SetKey) :
    Backend.find? z a n key = (Backend.node? z a n).bind fun node => node.find? key := by
  rw [h.find?, Content.set?, ← h.node?, Option.bind_map]
  rfl

/-- If no node is empty, there is a node just where a record set is found. -/
theorem contains_iff (h : Shows z a c)
    (hsolid : ∀ n node, Backend.node? z a n = some node → node.isEmpty = false) (n : Name) :
    Backend.contains z a n = true ↔ ∃ key, (Backend.find? z a n key).isSome = true := by
  rw [h.contains, ← h.node?, Option.isSome_map]
  simp only [h.find?_eq_bind]
  cases hnode : Backend.node? z a n with
  | none => simp
  | some node =>
      have hne := hsolid n node hnode
      rw [← Bool.not_eq_true, Node.isEmpty_iff_find?_eq_none, not_forall] at hne
      simpa [Option.isSome_iff_ne_none] using hne

end Shows

/-- Transactions in a good state are answered from some content in which no node is empty. -/
structure Displays (z : ζ) (good : τ → Prop) : Prop where
  shows {a : τ} (h : good a) : ∃ c, Shows z a c
  isEmpty_of_node? {a : τ} (h : good a) {n : Name} {node : Node}
    (hnode : Backend.node? z a n = some node) : node.isEmpty = false

end DnsZone
