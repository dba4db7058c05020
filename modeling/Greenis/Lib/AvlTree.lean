/-
  Height-balanced trees and their repair from the bottom up.

  `rebalance` repairs a root whose subtrees are balanced and differ by two in height;
  `fixUp` repairs every ancestor of a replaced subtree. If the new subtree differs by at most
  one in height from the old one, the repaired tree is balanced (`balanced_fixUp`), and in
  every case the in-order sequence is that of the tree before the repair (`inorder_fixUp`).
  A balanced tree is exponential in its height (`Balanced.fib_le`). Where the new subtree has grown
  by one, as it does by an insertion, at most one ancestor is repaired (`repairs_grown`).
-/
import Mathlib.Data.Nat.Fib.Basic
import Greenis.Lib.TreeZipper

namespace BinaryTree

variable {α : Type}

def Balanced : BinaryTree α → Prop
  | nil => True
  | node _ l r => l.height ≤ r.height + 1 ∧ r.height ≤ l.height + 1 ∧ l.Balanced ∧ r.Balanced

@[simp] theorem balanced_nil : (nil : BinaryTree α).Balanced := trivial

theorem balanced_node {x : α} {l r : BinaryTree α} : (node x l r).Balanced ↔
    l.height ≤ r.height + 1 ∧ r.height ≤ l.height + 1 ∧ l.Balanced ∧ r.Balanced := Iff.rfl

theorem balanced_nodeOn {s : Side} {x : α} {t u : BinaryTree α} : (nodeOn s x t u).Balanced ↔
    t.height ≤ u.height + 1 ∧ u.height ≤ t.height + 1 ∧ t.Balanced ∧ u.Balanced := by
  cases s
  · rfl
  · simp only [nodeOn, balanced_node]
    tauto

/-! ## Rotations -/

/-- Rotate towards the side `s`: the child on the other side becomes the root. -/
def rot : Side → BinaryTree α → BinaryTree α
  | .left, node x l (node y i r) => node y (node x l i) r
  | .right, node x (node y l i) r => node y l (node x i r)
  | _, t => t

theorem rot_nodeOn (s : Side) (x y : α) (t i u : BinaryTree α) :
    rot s (nodeOn s x t (nodeOn s y i u)) = nodeOn s y (nodeOn s x t i) u := by
  cases s <;> rfl

/-- Repair a root whose subtree on the side `s` is taller by 2. -/
def fixTall (s : Side) : BinaryTree α → BinaryTree α
  | nil => nil
  | node x l r =>
    match s, l, r with
    | .left, node y a i, r =>
      if a.height < i.height then rot .right (node x (rot .left (node y a i)) r)
      else rot .right (node x (node y a i) r)
    | .right, l, node y i a =>
      if a.height < i.height then rot .left (node x l (rot .right (node y i a)))
      else rot .left (node x l (node y i a))
    | _, l, r => node x l r

theorem fixTall_nodeOn (s : Side) (x y : α) (a i u : BinaryTree α) :
    fixTall s (nodeOn s x (nodeOn s y a i) u) =
      if a.height < i.height then rot s.other (nodeOn s x (rot s (nodeOn s y a i)) u)
      else rot s.other (nodeOn s x (nodeOn s y a i) u) := by
  cases s <;> rfl

def rebalance : BinaryTree α → BinaryTree α
  | nil => nil
  | node x l r =>
    if l.height = r.height + 2 then fixTall .left (node x l r)
    else if l.height + 2 = r.height then fixTall .right (node x l r)
    else node x l r

theorem rebalance_node (x : α) (l r : BinaryTree α) : rebalance (node x l r) =
    if l.height = r.height + 2 then fixTall .left (node x l r)
    else if l.height + 2 = r.height then fixTall .right (node x l r)
    else node x l r := rfl

/-- Put `t` at the end of the path, and repair the ancestors from there up to the root. -/
def fixUp (t : BinaryTree α) : Path α → BinaryTree α
  | [] => t
  | c :: p => fixUp (rebalance (c.plug t)) p

theorem inorder_rot (s : Side) (t : BinaryTree α) : (rot s t).inorder = t.inorder := by
  unfold rot
  split <;> simp

theorem inorder_fixTall (s : Side) (t : BinaryTree α) : (fixTall s t).inorder = t.inorder := by
  unfold fixTall
  split
  · rfl
  · split
    · split <;> simp [inorder_rot]
    · split <;> simp [inorder_rot]
    · rfl

theorem inorder_rebalance (t : BinaryTree α) : (rebalance t).inorder = t.inorder := by
  unfold rebalance
  split
  · rfl
  · split
    · exact inorder_fixTall _ _
    · split
      · exact inorder_fixTall _ _
      · rfl

theorem inorder_fixUp (t : BinaryTree α) (p : Path α) :
    (fixUp t p).inorder = (plug t p).inorder := by
  induction p generalizing t with
  | nil => rfl
  | cons c p ih =>
    rw [fixUp, ih, plug_cons, inorder_plug, inorder_plug, inorder_rebalance]

/-! ## Balance -/

/-- What a repair at one node may do to heights: `m` is the height of the taller subtree. -/
structure Repaired (t : BinaryTree α) (m : Nat) : Prop where
  balanced : t.Balanced
  ge : m ≤ t.height
  le : t.height ≤ m + 1

theorem exists_nodeOn (s : Side) {t : BinaryTree α} (h : 0 < t.height) :
    ∃ x a b, t = nodeOn s x a b := by
  cases t with
  | nil => cases h
  | node x l r =>
    cases s with
    | left => exact ⟨x, l, r, rfl⟩
    | right => exact ⟨x, r, l, rfl⟩

theorem fixTall_repaired {s : Side} {x : α} {t u : BinaryTree α} (ht : t.Balanced)
    (hu : u.Balanced) (h : t.height = u.height + 2) :
    Repaired (fixTall s (nodeOn s x t u)) t.height := by
  obtain ⟨y, a, i, rfl⟩ := exists_nodeOn s (t := t) (by omega)
  obtain ⟨h1, h2, ha, hi⟩ := balanced_nodeOn.mp ht
  rw [height_nodeOn] at h
  rw [fixTall_nodeOn]
  by_cases hc : a.height < i.height
  · -- The inner grandchild is the taller one: it becomes the root.
    rw [if_pos hc]
    obtain ⟨z, b, c, rfl⟩ := exists_nodeOn s (t := i) (by omega)
    obtain ⟨h3, h4, hb, hc'⟩ := balanced_nodeOn.mp hi
    rw [height_nodeOn] at hc h h1 h2
    rw [rot_nodeOn, ← nodeOn_other s x, ← nodeOn_other s z, rot_nodeOn]
    refine ⟨balanced_nodeOn.mpr ⟨?_, ?_, balanced_nodeOn.mpr ⟨?_, ?_, hu, hc'⟩,
      balanced_nodeOn.mpr ⟨?_, ?_, ha, hb⟩⟩, ?_, ?_⟩ <;>
      (try simp only [height_nodeOn]) <;> omega
  · rw [if_neg hc, ← nodeOn_other s x, ← nodeOn_other s y, rot_nodeOn]
    refine ⟨balanced_nodeOn.mpr ⟨?_, ?_, balanced_nodeOn.mpr ⟨?_, ?_, hu, hi⟩, ha⟩, ?_, ?_⟩ <;>
      (try simp only [height_nodeOn]) <;> omega

/-- One repair: subtrees off by at most 2 give a balanced tree, of the expected height when
    they are off by at most 1. -/
theorem rebalance_repaired {s : Side} {x : α} {t u : BinaryTree α} (ht : t.Balanced)
    (hu : u.Balanced) (h1 : t.height ≤ u.height + 2) (h2 : u.height ≤ t.height + 2) :
    Repaired (rebalance (nodeOn s x t u)) (max t.height u.height) ∧
      (t.height ≤ u.height + 1 → u.height ≤ t.height + 1 →
        (rebalance (nodeOn s x t u)).height = max t.height u.height + 1) := by
  -- For the left side; the right side is the same node read the other way.
  have key : ∀ {l r : BinaryTree α}, l.Balanced → r.Balanced → l.height ≤ r.height + 2 →
      r.height ≤ l.height + 2 → Repaired (rebalance (node x l r)) (max l.height r.height) ∧
        (l.height ≤ r.height + 1 → r.height ≤ l.height + 1 →
          (rebalance (node x l r)).height = max l.height r.height + 1) := by
    intro l r hl hr h1 h2
    rw [rebalance_node]
    by_cases hL : l.height = r.height + 2
    · rw [if_pos hL, Nat.max_eq_left (by omega)]
      exact ⟨fixTall_repaired (s := .left) hl hr hL, fun h => absurd h (by omega)⟩
    · rw [if_neg hL]
      by_cases hR : l.height + 2 = r.height
      · rw [if_pos hR, Nat.max_eq_right (by omega)]
        exact ⟨fixTall_repaired (s := .right) hr hl hR.symm, fun _ h => absurd h (by omega)⟩
      · rw [if_neg hR]
        refine ⟨⟨⟨by omega, by omega, hl, hr⟩, ?_, ?_⟩, fun _ _ => rfl⟩ <;>
          simp only [height] <;> omega
  cases s with
  | left => exact key ht hu h1 h2
  | right =>
    rw [Nat.max_comm]
    have := key hu ht h2 h1
    exact ⟨this.1, fun h h' => this.2 h' h⟩

theorem Balanced.of_plug {t : BinaryTree α} {p : Path α} (h : (plug t p).Balanced) :
    t.Balanced := by
  induction p generalizing t with
  | nil => exact h
  | cons c p ih => exact (balanced_nodeOn.mp (ih h)).2.2.1

/-- Replacing a subtree of a balanced tree by a balanced one whose height differs by at most 1
    and repairing the ancestors gives a balanced tree. -/
theorem balanced_fixUp {old t : BinaryTree α} {p : Path α} (hp : (plug old p).Balanced)
    (ht : t.Balanced) (h1 : t.height ≤ old.height + 1) (h2 : old.height ≤ t.height + 1) :
    (fixUp t p).Balanced := by
  induction p generalizing old t with
  | nil => exact ht
  | cons c p ih =>
    obtain ⟨hs1, hs2, _, hs⟩ := balanced_nodeOn.mp (Balanced.of_plug hp)
    obtain ⟨hrep, hexact⟩ : Repaired (rebalance (c.plug t)) (max t.height c.sib.height) ∧ _ :=
      rebalance_repaired ht hs (by omega) (by omega)
    have hold := c.height_plug old
    have hge := hrep.ge
    have hle := hrep.le
    by_cases hclose : t.height ≤ c.sib.height + 1 ∧ c.sib.height ≤ t.height + 1
    · have : (rebalance (c.plug t)).height = max t.height c.sib.height + 1 :=
        hexact hclose.1 hclose.2
      exact ih hp hrep.balanced (by omega) (by omega)
    · exact ih hp hrep.balanced (by omega) (by omega)

/-- Whether a tree is balanced depends on a subtree only through its height and balance. -/
theorem balanced_plug_congr {t u : BinaryTree α} (hh : t.height = u.height)
    (hb : t.Balanced → u.Balanced) {p : Path α} (h : (plug t p).Balanced) :
    (plug u p).Balanced := by
  induction p generalizing t u with
  | nil => exact hb h
  | cons c p ih =>
    refine ih ?_ ?_ h
    · rw [c.height_plug, c.height_plug, hh]
    · intro hc
      obtain ⟨h1, h2, h3, h4⟩ := balanced_nodeOn.mp hc
      exact balanced_nodeOn.mpr ⟨by omega, by omega, hb h3, h4⟩

/-- A balanced tree of height `h` has at least `fib (h + 2) - 1` nodes. -/
theorem Balanced.fib_le {t : BinaryTree α} (h : t.Balanced) :
    Nat.fib (t.height + 2) ≤ t.numNodes + 1 := by
  induction t with
  | nil => exact Nat.le_refl 1
  | node x l r ihl ihr =>
    obtain ⟨h1, h2, hl, hr⟩ := balanced_node.mp h
    have hL := ihl hl
    have hR := ihr hr
    have hsum : Nat.fib ((node x l r).height + 2) =
        Nat.fib (max l.height r.height + 1) + Nat.fib (max l.height r.height + 2) :=
      Nat.fib_add_two
    rw [hsum, numNodes]
    rcases Nat.le_total l.height r.height with hle | hle
    · have hlow : Nat.fib (r.height + 1) ≤ Nat.fib (l.height + 2) := Nat.fib_mono (by omega)
      rw [Nat.max_eq_right hle]
      omega
    · have hlow : Nat.fib (l.height + 1) ≤ Nat.fib (r.height + 2) := Nat.fib_mono (by omega)
      rw [Nat.max_eq_left hle]
      omega

/-! ## How many ancestors are repaired -/

/-- Is one subtree of the root taller than the other by 2? -/
def tilted : BinaryTree α → Bool
  | nil => false
  | node _ l r => l.height == r.height + 2 || l.height + 2 == r.height

theorem tilted_nodeOn (s : Side) (x : α) (t u : BinaryTree α) : (nodeOn s x t u).tilted =
    (t.height == u.height + 2 || t.height + 2 == u.height) := by
  cases s with
  | left => rfl
  | right =>
    rw [Bool.eq_iff_iff]
    simp only [nodeOn, tilted, Bool.or_eq_true, beq_iff_eq]
    omega

/-- The number of ancestors that `fixUp` repairs. -/
def repairs (t : BinaryTree α) : Path α → Nat
  | [] => 0
  | c :: p => (c.plug t).tilted.toNat + repairs (rebalance (c.plug t)) p

theorem rebalance_of_not_tilted {t : BinaryTree α} (h : t.tilted = false) : rebalance t = t := by
  cases t with
  | nil => rfl
  | node x l r =>
    rw [tilted, Bool.or_eq_false_iff] at h
    rw [rebalance_node, if_neg (by simpa using h.1), if_neg (by simpa using h.2)]

/-- A root with one subtree that is taller by one. -/
def Lopsided (t : BinaryTree α) : Prop :=
  ∃ s x a i, t = nodeOn s x a i ∧ a.height = i.height + 1

/-- A repair at a lopsided subtree takes back the height that it has gained. -/
theorem height_rebalance_lopsided {s : Side} {x : α} {t u : BinaryTree α} (ht : t.Lopsided)
    (h : t.height = u.height + 2) : (rebalance (nodeOn s x t u)).height = t.height := by
  have hfix : rebalance (nodeOn s x t u) = fixTall s (nodeOn s x t u) := by
    cases s with
    | left => exact if_pos h
    | right =>
      show rebalance (node x u t) = fixTall .right (node x u t)
      rw [rebalance_node, if_neg (by omega), if_pos h.symm]
  obtain ⟨side, y, a, i, rfl, hai⟩ := ht
  rw [height_nodeOn] at h
  rw [hfix]
  by_cases hside : side = s
  · -- The outer grandchild is the taller one.
    subst hside
    rw [fixTall_nodeOn, if_neg (by omega), ← nodeOn_other side x, ← nodeOn_other side y, rot_nodeOn]
    simp only [height_nodeOn]
    omega
  · have hother : nodeOn side y a i = nodeOn s y i a := by
      cases s <;> cases side <;> first | rfl | exact absurd rfl hside
    obtain ⟨z, b, c, rfl⟩ := exists_nodeOn s (t := a) (by omega)
    rw [hother, fixTall_nodeOn, if_pos (by omega), rot_nodeOn, ← nodeOn_other s x,
      ← nodeOn_other s z, rot_nodeOn]
    simp only [height_nodeOn] at h hai ⊢
    omega

/-- Where the subtree has the height of the old one, nothing is repaired. -/
theorem repairs_same (old : BinaryTree α) {t : BinaryTree α} {p : Path α}
    (hp : (plug old p).Balanced) (hh : t.height = old.height) : repairs t p = 0 := by
  induction p generalizing old t with
  | nil => rfl
  | cons c p ih =>
    obtain ⟨h1, h2, -, -⟩ := balanced_nodeOn.mp (Balanced.of_plug hp)
    have hlevel : (c.plug t).tilted = false := by
      rw [Crumb.plug, tilted_nodeOn, Bool.or_eq_false_iff]
      simp only [beq_eq_false_iff_ne]
      omega
    rw [repairs, hlevel, rebalance_of_not_tilted hlevel, Bool.toNat_false, Nat.zero_add]
    refine ih _ hp ?_
    rw [c.height_plug, c.height_plug, hh]

/-- Where the subtree is higher than the old one by one, and lopsided or a leaf, at most one
    ancestor is repaired. -/
theorem repairs_grown (old : BinaryTree α) {t : BinaryTree α} {p : Path α}
    (hp : (plug old p).Balanced) (hh : t.height = old.height + 1)
    (ht : t.height ≤ 1 ∨ t.Lopsided) : repairs t p ≤ 1 := by
  induction p generalizing old t with
  | nil => exact Nat.zero_le 1
  | cons c p ih =>
    obtain ⟨h1, h2, -, -⟩ := balanced_nodeOn.mp (Balanced.of_plug hp)
    have hold := c.height_plug old
    by_cases htall : t.height = c.sib.height + 2
    · -- The repair gives the old height back, so it is the last one.
      have hlop := ht.resolve_left (by omega)
      have hback : (rebalance (c.plug t)).height = t.height := height_rebalance_lopsided hlop htall
      rw [repairs, repairs_same (c.plug old) hp (by omega)]
      exact Bool.toNat_le _
    · have hlevel : (c.plug t).tilted = false := by
        rw [Crumb.plug, tilted_nodeOn, Bool.or_eq_false_iff]
        simp only [beq_eq_false_iff_ne]
        omega
      have hnew := c.height_plug t
      rw [repairs, hlevel, rebalance_of_not_tilted hlevel, Bool.toNat_false, Nat.zero_add]
      by_cases hle : t.height ≤ c.sib.height
      · rw [repairs_same (c.plug old) hp (by omega)]
        exact Nat.zero_le 1
      · exact ih _ hp (by omega) (Or.inr ⟨c.side, c.value, t, c.sib, rfl, by omega⟩)

end BinaryTree
