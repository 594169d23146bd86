import Mathlib.Data.Int.Order.Basic
import Mikelibc.Lib.Trees

/-! # The tree walk of `madt.c`

`mbtree_int_inorder_traversal` calls itself on `root->left` twice and never on
`root->right`. What it prints is then the in-order walk, at every node, exactly for
the trees whose two subtrees are the same at every node. -/
namespace Mikelibc.Btree
open CSem

/-- `mbtree_int_inorder_traversal`: the numbers it prints, one a line. Calls are nested less than
`fuel` deep. -/
def mbtreeIntInorderTraversal (heap : Forest Int) : Nat → Ptr → Outcome (List Int)
  | 0, _ => .hang
  | fuel + 1, root =>
    if root = none then return []
    else do
      let node ← heap.load root
      let first ← mbtreeIntInorderTraversal heap fuel node.left
      let second ← mbtreeIntInorderTraversal heap fuel node.left
      return first ++ [node.payload] ++ second

/-- The numbers in a tree, without the addresses. -/
def values (t : BinaryTree (Nat × Int)) : BinaryTree Int := t.map Prod.snd

/-- The walk of this tree is in order: left, node, right; so it prints the number of each node
once, and sorted if the tree is a search tree. -/
def PrintsInOrder (heap : Forest Int) (fuel : Nat) (t : BinaryTree (Nat × Int)) : Prop :=
  ∃ printed, mbtreeIntInorderTraversal heap fuel (rootOf t) = .ok printed ∧
    printed = inorder (values t) ∧ printed.Perm (nodeValues (values t)) ∧
    (Searches (values t) → printed.Pairwise (· ≤ ·))

/-- The two subtrees of every node are the same. -/
def Doubled {α : Type} : BinaryTree α → Prop
  | .nil => True
  | .node _ l r => l = r ∧ Doubled l

/-- The left subtree in place of the right one, at every node. -/
def leftTwice {α : Type} : BinaryTree α → List α
  | .nil => []
  | .node v l _ => leftTwice l ++ v :: leftTwice l

variable {α : Type}

theorem mbtreeIntInorderTraversal_eq {heap : Forest Int} (t : BinaryTree (Nat × Int)) :
    ∀ {fuel : Nat}, IsTree heap t → t.height < fuel →
      mbtreeIntInorderTraversal heap fuel (rootOf t) = .ok (leftTwice (values t)) := by
  induction t with
  | nil =>
    intro fuel _ hf
    obtain ⟨fuel, rfl⟩ : ∃ k, fuel = k + 1 := ⟨fuel - 1, by omega⟩
    rfl
  | node c l r hl _ =>
    intro fuel ht hf
    obtain ⟨fuel, rfl⟩ : ∃ k, fuel = k + 1 := ⟨fuel - 1, by omega⟩
    obtain ⟨hc, hleft, _⟩ := ht
    rw [BinaryTree.height] at hf
    have hrec := hl hleft (show l.height < fuel by omega)
    simp [mbtreeIntInorderTraversal, Forest.load_of hc, hrec, values, leftTwice,
      BinaryTree.map]

/-! ## Trees with equal subtrees -/

theorem Doubled.subtree {t u : BinaryTree α} (h : Doubled t) (hu : u ∈ subtrees t) : Doubled u := by
  induction t with
  | nil => rw [List.mem_singleton.mp hu]; trivial
  | node v l r hl hr =>
    obtain ⟨rfl, hdouble⟩ := h
    rcases List.mem_cons.mp hu with rfl | hu
    · exact ⟨rfl, hdouble⟩
    · rcases List.mem_append.mp hu with hu | hu <;> exact hl hdouble hu

theorem Doubled.leftTwice_eq {t : BinaryTree α} (h : Doubled t) : leftTwice t = inorder t := by
  induction t with
  | nil => rfl
  | node v l r hl _ =>
    obtain ⟨rfl, hdouble⟩ := h
    rw [leftTwice, inorder, hl hdouble]

/-- Two such trees with the same walk are the same: the root stands in the middle of it. -/
theorem Doubled.eq_of_inorder {t u : BinaryTree α} (ht : Doubled t) (hu : Doubled u)
    (h : inorder t = inorder u) : t = u := by
  induction t generalizing u with
  | nil =>
    cases u with
    | nil => rfl
    | node w m r => simp [inorder] at h
  | node v l r hl _ =>
    cases u with
    | nil => simp [inorder] at h
    | node w m r' =>
      obtain ⟨rfl, hdl⟩ := ht
      obtain ⟨rfl, hdm⟩ := hu
      have hlen := congrArg List.length h
      simp only [inorder, List.length_append, List.length_cons] at hlen
      obtain ⟨hleft, hright⟩ := List.append_inj h (by omega)
      obtain ⟨rfl, _⟩ := List.cons.inj hright
      rw [hl hdl hdm hleft]

/-- The walk is in order at every node exactly for these trees. -/
theorem leftTwice_inorder_iff (t : BinaryTree α) :
    (∀ u ∈ subtrees t, leftTwice u = inorder u) ↔ Doubled t := by
  constructor
  · intro h
    induction t with
    | nil => trivial
    | node v l r hl hr =>
      simp only [subtrees, List.forall_mem_cons, List.forall_mem_append] at h
      obtain ⟨hroot, hleft, hright⟩ := h
      have hdl := hl hleft
      have hdr := hr hright
      rw [leftTwice, inorder, hleft l (mem_subtrees_self l)] at hroot
      have hwalks := (List.cons.inj (List.append_cancel_left hroot)).2
      exact ⟨hdl.eq_of_inorder hdr hwalks, hdl⟩
  · intro h u hu
    exact (h.subtree hu).leftTwice_eq

/-! ## The walk -/

theorem printsInOrder_iff {heap : Forest Int} {fuel : Nat} {t : BinaryTree (Nat × Int)}
    (ht : IsTree heap t) (hf : t.height < fuel) :
    PrintsInOrder heap fuel t ↔ leftTwice (values t) = inorder (values t) := by
  rw [PrintsInOrder, mbtreeIntInorderTraversal_eq t ht hf]
  constructor
  · intro h
    obtain ⟨printed, hprinted, horder, _⟩ := h
    cases hprinted
    exact horder
  · intro horder
    exact ⟨_, rfl, horder, by rw [horder]; exact inorder_perm _, fun hsearch => by
      rw [horder]; exact inorder_sorted hsearch⟩

/-- **When the walk is in order.** At every node of a tree, what is printed is the walk of the
left subtree, the number and the walk of the right one, exactly when the two subtrees of every
node are the same. -/
theorem traversal_inorder_iff {heap : Forest Int} {fuel : Nat} {t : BinaryTree (Nat × Int)}
    (ht : IsTree heap t) (hf : t.height < fuel) :
    (∀ u ∈ subtrees t, PrintsInOrder heap fuel u) ↔ Doubled (values t) := by
  rw [← leftTwice_inorder_iff, values, subtrees_map, List.forall_mem_map]
  refine forall₂_congr fun u hu => ?_
  exact printsInOrder_iff (ht.subtree hu) (Nat.lt_of_le_of_lt (height_subtree hu) hf)

def threeNodes (left root right : Int) : Forest Int := fun a =>
  if a = 1 then some ⟨root, some 2, some 3⟩
  else if a = 2 then some ⟨left, none, none⟩
  else if a = 3 then some ⟨right, none, none⟩
  else none

def threeTree (left root right : Int) : BinaryTree (Nat × Int) :=
  .node (1, root) (.node (2, left) .nil .nil) (.node (3, right) .nil .nil)

theorem threeTree_isTree (left root right : Int) :
    IsTree (threeNodes left root right) (threeTree left root right) :=
  ⟨rfl, ⟨rfl, trivial, trivial⟩, rfl, trivial, trivial⟩

/-- Two children with the same number hide the second call. -/
theorem traversal_inorder_twins :
    PrintsInOrder (threeNodes 5 7 5) 3 (threeTree 5 7 5) :=
  (traversal_inorder_iff (threeTree_isTree 5 7 5) (by decide)).mpr ⟨rfl, rfl, trivial⟩ _
    (mem_subtrees_self _)

/-- The search tree of 1, 2 and 3 is printed as 1, 2, 1. -/
theorem traversal_prints_left_twice :
    ¬ ∀ (heap : Forest Int) (fuel : Nat) (t : BinaryTree (Nat × Int)), IsTree heap t →
      t.height < fuel → ∀ u ∈ subtrees t, PrintsInOrder heap fuel u := by
  intro h
  obtain ⟨printed, hprinted, horder, _⟩ :=
    h _ 3 _ (threeTree_isTree 1 2 3) (by decide) _ (mem_subtrees_self _)
  rw [show mbtreeIntInorderTraversal (threeNodes 1 2 3) 3 (rootOf (threeTree 1 2 3)) =
    .ok [1, 2, 1] from rfl] at hprinted
  cases hprinted
  exact absurd horder (by decide)

end Mikelibc.Btree
