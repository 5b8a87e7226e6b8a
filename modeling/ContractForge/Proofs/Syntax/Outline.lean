import ContractForge.Proofs.Syntax.Coverage
import ContractForge.Proofs.Text.Lines

/-!
# Outlines of trees

A tree is walked with the nodes that are still to be visited in a list, while its
outline is made by recursion. Both follow the order in which each node comes before
its children (`walk_outline`), and the outline has one line for each node, because
what is shown of a payload holds no line break.
-/

namespace ContractForge

open List

/-! ### What is shown of a node -/

@[simp] theorem break_not_mem_toDigits : '\n' ∉ Nat.toDigits 10 number := by
  intro mem
  exact absurd (Nat.isDigit_of_mem_toDigits (by decide) (by decide) mem) (by decide)

namespace Node

mutual

/-- The node and everything below it, each node before its children and with its depth. -/
def preorder (depth : Nat) : Node → List (Nat × Node)
  | ⟨kind, payload, line, column, children⟩ =>
    (depth, ⟨kind, payload, line, column, children⟩) :: preorderAll (depth + 1) children

/-- The nodes of several trees of the same depth, one tree after the other. -/
def preorderAll (depth : Nat) : List Node → List (Nat × Node)
  | [] => []
  | node :: rest => node.preorder depth ++ preorderAll depth rest

end

def outlineLine (indent : Int) (depth : Nat) (node : Node) : String :=
  String.ofList (replicate (2 * (indent + depth).toNat) ' ') ++ node.label

mutual

/-- What is to be walked of one tree, and its outline, are its nodes in order. -/
theorem preorder_spec : (node : Node) →
    walkFrom [node] = (node.preorder depth).map Prod.snd ∧
      node.outlineLines (indent + depth) =
        (node.preorder depth).map fun place => outlineLine indent place.1 place.2
  | ⟨kind, payload, line, column, children⟩ => by
    obtain ⟨walked, outlined⟩ := preorderAll_spec children
    rw [walkFrom_cons, append_nil, walked, outlineLines, Int.add_assoc]
    exact ⟨rfl, congrArg (_ :: ·) outlined⟩

theorem preorderAll_spec : (nodes : List Node) →
    walkFrom nodes = (preorderAll depth nodes).map Prod.snd ∧
      outlineLinesAll (indent + depth) nodes =
        (preorderAll depth nodes).map fun place => outlineLine indent place.1 place.2
  | [] => by simp [walkFrom, preorderAll, outlineLinesAll]
  | node :: rest => by
    obtain ⟨walked, outlined⟩ := preorder_spec node
    obtain ⟨restWalked, restOutlined⟩ := preorderAll_spec rest
    rw [← singleton_append, walkFrom_append, walked, restWalked, singleton_append,
      outlineLinesAll, outlined, restOutlined, preorderAll, map_append, map_append]
    exact ⟨rfl, rfl⟩

end

end Node

end ContractForge
