/-
  Search in a binary tree whose values are sorted by some key.

  A search asks one question of each node on the way, `P`: is the node before the key? Sorted
  values answer yes up to some point and no from there on (`Split`). Then the path of the search
  separates the two parts (`before_seek`, `after_seek`), and the last node that answered no is the
  first of the second part (`lowerBound_eq`).
-/
import Greenis.Lib.TreeZipper

namespace BinaryTree

variable {α : Type}

/-- No value that answers yes comes after one that answers no. -/
def Split (P : α → Bool) (xs : List α) : Prop := xs.Pairwise fun x y => P y = true → P x = true

/-- Values sorted by a transitive relation are split by the question whether they are before
    a given point. -/
theorem Split.of_sorted {R : α → α → Prop} {P : α → Bool} {xs : List α} (hs : xs.Pairwise R)
    (h : ∀ x ∈ xs, ∀ y ∈ xs, R x y → P y = true → P x = true) : Split P xs :=
  List.Pairwise.imp_of_mem (fun hx hy hR hy' => h _ hx _ hy hR hy') hs

theorem Split.node {P : α → Bool} {x : α} {l r : BinaryTree α} (h : Split P (node x l r).inorder) :
    Split P l.inorder ∧ Split P r.inorder ∧
      (P x = true → ∀ y ∈ l.inorder, P y = true) ∧
      (P x = false → ∀ y ∈ r.inorder, P y = false) := by
  obtain ⟨hl, hr, hlr⟩ := List.pairwise_append.mp h
  obtain ⟨hx, hr⟩ := List.pairwise_cons.mp hr
  refine ⟨hl, hr, fun hP y hy => hlr y hy x List.mem_cons_self hP, fun hP y hy => ?_⟩
  by_contra hne
  have := hx y hy (by simpa using hne)
  rw [hP] at this
  cases this

/-- The path of a search below `t`, which is itself at the end of `p`. -/
def seek (P : α → Bool) : BinaryTree α → Path α → Path α
  | nil, p => p
  | node x l r, p =>
    if P x then seek P r (⟨.right, x, l⟩ :: p) else seek P l (⟨.left, x, r⟩ :: p)

/-- The last node of the search that answered no. -/
def lowerBound (P : α → Bool) : BinaryTree α → Option α → Option α
  | nil, found => found
  | node x l r, found => if P x then lowerBound P r found else lowerBound P l (some x)

theorem plug_seek (P : α → Bool) (t : BinaryTree α) (p : Path α) :
    plug nil (seek P t p) = plug t p := by
  induction t generalizing p with
  | nil => rfl
  | node x l r ihl ihr =>
    unfold seek
    split
    · exact ihr _
    · exact ihl _

theorem before_seek {P : α → Bool} {t : BinaryTree α} (h : Split P t.inorder) (p : Path α) :
    before (seek P t p) = before p ++ t.inorder.filter P := by
  induction t generalizing p with
  | nil => simp [seek]
  | node x l r ihl ihr =>
    obtain ⟨hl, hr, hyes, hno⟩ := h.node
    unfold seek
    by_cases hP : P x = true
    · rw [if_pos hP, ihr hr, inorder_node, List.filter_append, List.filter_cons_of_pos hP,
        List.filter_eq_self.mpr (hyes hP)]
      simp [before, List.append_assoc]
    · have hP' : P x = false := by simpa using hP
      have hnil : r.inorder.filter P = [] :=
        List.filter_eq_nil_iff.mpr fun y hy => by simp [hno hP' y hy]
      rw [if_neg hP, ihl hl, inorder_node, List.filter_append, List.filter_cons_of_neg hP, hnil,
        List.append_nil]
      rfl

theorem after_seek {P : α → Bool} {t : BinaryTree α} (h : Split P t.inorder) (p : Path α) :
    after (seek P t p) = t.inorder.filter (fun x => !P x) ++ after p := by
  induction t generalizing p with
  | nil => simp [seek]
  | node x l r ihl ihr =>
    obtain ⟨hl, hr, hyes, hno⟩ := h.node
    unfold seek
    by_cases hP : P x = true
    · have hnil : l.inorder.filter (fun x => !P x) = [] :=
        List.filter_eq_nil_iff.mpr fun y hy => by simp [hyes hP y hy]
      rw [if_pos hP, ihr hr, inorder_node, List.filter_append, hnil,
        List.filter_cons_of_neg (by simp [hP])]
      rfl
    · have hP' : P x = false := by simpa using hP
      have hself : r.inorder.filter (fun x => !P x) = r.inorder :=
        List.filter_eq_self.mpr fun y hy => by simp [hno hP' y hy]
      rw [if_neg hP, ihl hl, inorder_node, List.filter_append,
        List.filter_cons_of_pos (by simp [hP']), hself]
      simp [after]

theorem lowerBound_eq {P : α → Bool} {t : BinaryTree α} (h : Split P t.inorder)
    (found : Option α) :
    lowerBound P t found = ((t.inorder.filter fun x => !P x).head?).or found := by
  induction t generalizing found with
  | nil => rfl
  | node x l r ihl ihr =>
    obtain ⟨hl, hr, hyes, hno⟩ := h.node
    unfold lowerBound
    by_cases hP : P x = true
    · have hnil : l.inorder.filter (fun x => !P x) = [] :=
        List.filter_eq_nil_iff.mpr fun y hy => by simp [hyes hP y hy]
      rw [if_pos hP, ihr hr, inorder_node, List.filter_append, hnil,
        List.filter_cons_of_neg (by simp [hP]), List.nil_append]
    · rw [if_neg hP, ihl hl, inorder_node, List.filter_append,
        List.filter_cons_of_pos (by simpa using hP), List.head?_append]
      simp

/-- Before the lower bound are exactly the values that answer yes. -/
theorem getElem?_countP {P : α → Bool} {xs : List α} (h : Split P xs) :
    xs[xs.countP P]? = (xs.filter fun x => !P x).head? := by
  induction xs with
  | nil => rfl
  | cons x xs ih =>
    obtain ⟨hx, hs⟩ := List.pairwise_cons.mp h
    by_cases hP : P x = true
    · rw [List.countP_cons_of_pos hP, List.getElem?_cons_succ, ih hs,
        List.filter_cons_of_neg (by simp [hP])]
    · have hzero : xs.countP P = 0 := List.countP_eq_zero.mpr fun y hy hy' => hP (hx y hy hy')
      rw [List.countP_cons_of_neg hP, hzero, List.filter_cons_of_pos (by simpa using hP)]
      rfl

end BinaryTree
