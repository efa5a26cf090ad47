/-!
# Unfolding trees into leaves

A node opens into smaller nodes and leaves. `leaves` opens every node, from left to right, with the
nodes still to be opened on an explicit list, so a tree of any depth can be unfolded.
-/

namespace Lox

/-- The weight of parts, in which a leaf counts one. -/
def weightOfParts {Node Leaf : Type} (weight : Node → Nat) : List (Node ⊕ Leaf) → Nat
  | [] => 0
  | .inl node :: rest => weight node + weightOfParts weight rest
  | .inr _ :: rest => 1 + weightOfParts weight rest

theorem weightOfParts_append {Node Leaf : Type} (weight : Node → Nat) (a b : List (Node ⊕ Leaf)) :
    weightOfParts weight (a ++ b) = weightOfParts weight a + weightOfParts weight b := by
  induction a with
  | nil => simp [weightOfParts]
  | cons part rest ih => cases part <;> simp [weightOfParts, ih, Nat.add_assoc]

/-- A way to open nodes, with a weight that shows that opening comes to an end. -/
structure Unfolding (Node Leaf : Type) where
  parts : Node → List (Node ⊕ Leaf)
  weight : Node → Nat
  weight_parts : ∀ node, weightOfParts weight (parts node) < weight node

namespace Unfolding

variable {Node Leaf : Type} (unfolding : Unfolding Node Leaf)

def totalCost (parts : List (Node ⊕ Leaf)) : Nat := weightOfParts unfolding.weight parts

theorem totalCost_leaf (leaf : Leaf) (rest : List (Node ⊕ Leaf)) :
    unfolding.totalCost rest < unfolding.totalCost (.inr leaf :: rest) := by
  simp only [totalCost, weightOfParts]
  omega

theorem totalCost_node (node : Node) (rest : List (Node ⊕ Leaf)) :
    unfolding.totalCost (unfolding.parts node ++ rest) <
      unfolding.totalCost (.inl node :: rest) := by
  have h := unfolding.weight_parts node
  simp only [totalCost, weightOfParts_append, weightOfParts]
  omega

/-- The leaves of the parts, behind the given ones, which stand last first. -/
def leavesAfter (earlier : List Leaf) : List (Node ⊕ Leaf) → List Leaf
  | [] => earlier.reverse
  | .inr leaf :: rest => leavesAfter (leaf :: earlier) rest
  | .inl node :: rest => leavesAfter earlier (unfolding.parts node ++ rest)
termination_by parts => unfolding.totalCost parts
decreasing_by
  · exact unfolding.totalCost_leaf leaf rest
  · exact unfolding.totalCost_node node rest

/-- All leaves below the parts, from left to right. -/
def leaves (parts : List (Node ⊕ Leaf)) : List Leaf := unfolding.leavesAfter [] parts

theorem leavesAfter_eq (earlier : List Leaf) : ∀ parts,
    unfolding.leavesAfter earlier parts = earlier.reverse ++ unfolding.leaves parts
  | [] => by simp [leaves, leavesAfter]
  | .inr leaf :: rest => by
      rw [leaves, leavesAfter, leavesAfter, leavesAfter_eq (leaf :: earlier) rest,
        leavesAfter_eq [leaf] rest]
      simp
  | .inl node :: rest => by
      rw [leaves, leavesAfter, leavesAfter, leavesAfter_eq earlier (unfolding.parts node ++ rest)]
      rfl
termination_by parts => unfolding.totalCost parts
decreasing_by
  · exact unfolding.totalCost_leaf leaf rest
  · exact unfolding.totalCost_leaf leaf rest
  · exact unfolding.totalCost_node node rest

@[simp] theorem leaves_nil : unfolding.leaves [] = [] := by simp [leaves, leavesAfter]

@[simp] theorem leaves_leaf (leaf : Leaf) (rest : List (Node ⊕ Leaf)) :
    unfolding.leaves (.inr leaf :: rest) = leaf :: unfolding.leaves rest := by
  rw [leaves, leavesAfter, leavesAfter_eq]
  rfl

theorem leaves_node (node : Node) (rest : List (Node ⊕ Leaf)) :
    unfolding.leaves (.inl node :: rest) = unfolding.leaves (unfolding.parts node ++ rest) := by
  rw [leaves, leavesAfter]
  rfl

theorem leaves_append : ∀ a b : List (Node ⊕ Leaf),
    unfolding.leaves (a ++ b) = unfolding.leaves a ++ unfolding.leaves b
  | [], b => by simp
  | .inr leaf :: rest, b => by simp [leaves_append rest b]
  | .inl node :: rest, b => by
      rw [List.cons_append, leaves_node, leaves_node, ← List.append_assoc,
        leaves_append (unfolding.parts node ++ rest) b]
termination_by a => unfolding.totalCost a
decreasing_by
  · exact unfolding.totalCost_leaf leaf rest
  · exact unfolding.totalCost_node node rest

/-- The leaves of one node are the leaves of its parts. -/
theorem leaves_singleton (node : Node) :
    unfolding.leaves [.inl node] = unfolding.leaves (unfolding.parts node) := by
  rw [leaves_node, List.append_nil]

theorem leaves_cons (part : Node ⊕ Leaf) (rest : List (Node ⊕ Leaf)) :
    unfolding.leaves (part :: rest) = unfolding.leaves [part] ++ unfolding.leaves rest :=
  unfolding.leaves_append [part] rest

end Unfolding

end Lox
