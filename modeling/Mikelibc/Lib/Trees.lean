import Mathlib.Data.Tree.Basic
import Mathlib.Order.Defs.LinearOrder
import Mikelibc.Lib.Chain

/-! # Binary trees in memory

A tree is given with the addresses of its nodes, so its root pointer can be read off
it; `IsTree` says that memory holds it. The in-order walk is defined on the tree
itself, and so are its subtrees, its values in any order, and what makes it a search
tree. -/
namespace CSem

universe u
variable {α : Type u} {β : Type}

/-- A node: a payload and two pointers. -/
structure Fork (β : Type) where
  payload : β
  left : Ptr
  right : Ptr
  deriving DecidableEq

abbrev Forest (β : Type) := Nat → Option (Fork β)

def Forest.load (s : Forest β) : Ptr → Outcome (Fork β)
  | none => .fault
  | some a => match s a with
    | some c => .ok c
    | none => .fault

theorem Forest.load_of {s : Forest β} {a : Nat} {c : Fork β} (h : s a = some c) :
    s.load (some a) = .ok c := by
  simp [load, h]

def rootOf : BinaryTree (Nat × β) → Ptr
  | .nil => none
  | .node c _ _ => some c.1

@[simp] theorem rootOf_nil : rootOf (.nil : BinaryTree (Nat × β)) = none := rfl
@[simp] theorem rootOf_node (c : Nat × β) (l r : BinaryTree (Nat × β)) :
    rootOf (.node c l r) = some c.1 := rfl

def IsTree (s : Forest β) : BinaryTree (Nat × β) → Prop
  | .nil => True
  | .node c l r => s c.1 = some ⟨c.2, rootOf l, rootOf r⟩ ∧ IsTree s l ∧ IsTree s r

/-! ## Walks -/

def inorder : BinaryTree α → List α
  | .nil => []
  | .node v l r => inorder l ++ v :: inorder r

/-- The values of all nodes, each as often as it occurs. -/
def nodeValues : BinaryTree α → List α
  | .nil => []
  | .node v l r => v :: (nodeValues l ++ nodeValues r)

/-- The tree at every node, and the empty ones. -/
def subtrees : BinaryTree α → List (BinaryTree α)
  | .nil => [.nil]
  | .node v l r => .node v l r :: (subtrees l ++ subtrees r)

/-- A binary search tree; equal values may stand on either side. -/
def Searches [LE α] : BinaryTree α → Prop
  | .nil => True
  | .node v l r =>
    Searches l ∧ Searches r ∧ (∀ x ∈ inorder l, x ≤ v) ∧ ∀ x ∈ inorder r, v ≤ x

theorem mem_subtrees_self (t : BinaryTree α) : t ∈ subtrees t := by
  cases t <;> simp [subtrees]

theorem inorder_perm (t : BinaryTree α) : (inorder t).Perm (nodeValues t) := by
  induction t with
  | nil => exact .refl _
  | node v l r hl hr => exact List.perm_middle.trans ((hl.append hr).cons v)

theorem inorder_sorted [Preorder α] {t : BinaryTree α} (h : Searches t) :
    (inorder t).Pairwise (· ≤ ·) := by
  induction t with
  | nil => exact .nil
  | node v l r hl hr =>
    obtain ⟨hsl, hsr, hbelow, habove⟩ := h
    rw [inorder, List.pairwise_append, List.pairwise_cons]
    refine ⟨hl hsl, ⟨habove, hr hsr⟩, fun x hx y hy => ?_⟩
    rcases List.mem_cons.mp hy with rfl | hy
    · exact hbelow x hx
    · exact le_trans (hbelow x hx) (habove y hy)

theorem IsTree.subtree {s : Forest β} {t u : BinaryTree (Nat × β)} (h : IsTree s t)
    (hu : u ∈ subtrees t) : IsTree s u := by
  induction t with
  | nil => rw [List.mem_singleton.mp hu]; trivial
  | node c l r hl hr =>
    rcases List.mem_cons.mp hu with rfl | hu
    · exact h
    · rcases List.mem_append.mp hu with hu | hu
      · exact hl h.2.1 hu
      · exact hr h.2.2 hu

theorem height_subtree {t u : BinaryTree α} (hu : u ∈ subtrees t) : u.height ≤ t.height := by
  induction t with
  | nil => exact Nat.le_of_eq (congrArg BinaryTree.height (List.mem_singleton.mp hu))
  | node v l r hl hr =>
    rcases List.mem_cons.mp hu with rfl | hu
    · exact Nat.le_refl _
    · rw [BinaryTree.height]
      rcases List.mem_append.mp hu with hu | hu
      · have := hl hu; omega
      · have := hr hu; omega

/-! ## Maps -/

theorem subtrees_map {γ : Type} (f : β → γ) (t : BinaryTree β) :
    subtrees (t.map f) = (subtrees t).map (BinaryTree.map f) := by
  induction t with
  | nil => rfl
  | node v l r hl hr => simp [BinaryTree.map, subtrees, hl, hr]

end CSem
