/-
  Binary trees taken apart at a subtree.

  A `Crumb` is one step down a tree: the side taken, the value passed and the sibling left
  behind. A path is the crumbs from a subtree up to the root, the innermost first; `plug`
  puts a subtree back, and the in-order sequence of the whole is that of the subtree between
  what comes before and after it.
-/
import Mathlib.Data.Tree.Basic
import Mathlib.Data.List.Perm.Basic
import Mathlib.Tactic.Tauto

namespace BinaryTree

variable {α : Type}

/-- The values from left to right. -/
def inorder : BinaryTree α → List α
  | nil => []
  | node x l r => l.inorder ++ x :: r.inorder

/-- The value at the root. -/
def top : BinaryTree α → Option α
  | nil => none
  | node x _ _ => some x

@[simp] theorem inorder_nil : (nil : BinaryTree α).inorder = [] := rfl

@[simp] theorem inorder_node (x : α) (l r : BinaryTree α) :
    (node x l r).inorder = l.inorder ++ x :: r.inorder := rfl

@[simp] theorem top_nil : (nil : BinaryTree α).top = none := rfl

@[simp] theorem top_node (x : α) (l r : BinaryTree α) : (node x l r).top = some x := rfl

theorem length_inorder (t : BinaryTree α) : t.inorder.length = t.numNodes := by
  induction t with
  | nil => rfl
  | node x l r ihl ihr =>
    rw [inorder_node, List.length_append, List.length_cons, ihl, ihr, numNodes]
    omega

theorem top_mem {t : BinaryTree α} {x : α} (h : t.top = some x) : x ∈ t.inorder := by
  cases t with
  | nil => cases h
  | node y l r =>
    cases h
    simp

/-- Left or right. Mirror-image facts are stated once, for a side. -/
inductive Side where
  | left
  | right
  deriving DecidableEq, Repr

def Side.other : Side → Side
  | .left => .right
  | .right => .left

@[simp] theorem Side.other_other (s : Side) : s.other.other = s := by cases s <;> rfl

/-- The node with `t` on the given side and `u` on the other. -/
def nodeOn (s : Side) (x : α) (t u : BinaryTree α) : BinaryTree α :=
  match s with
  | .left => node x t u
  | .right => node x u t

theorem nodeOn_other (s : Side) (x : α) (t u : BinaryTree α) :
    nodeOn s.other x t u = nodeOn s x u t := by
  cases s <;> rfl

@[simp] theorem top_nodeOn (s : Side) (x : α) (t u : BinaryTree α) :
    (nodeOn s x t u).top = some x := by
  cases s <;> rfl

theorem height_nodeOn (s : Side) (x : α) (t u : BinaryTree α) :
    (nodeOn s x t u).height = max t.height u.height + 1 := by
  cases s
  · rfl
  · simp [nodeOn, Nat.max_comm]

theorem mem_nodeOn {s : Side} {x y : α} {t u : BinaryTree α} :
    y ∈ (nodeOn s x t u).inorder ↔ y = x ∨ y ∈ t.inorder ∨ y ∈ u.inorder := by
  cases s <;> simp [nodeOn] <;> tauto

theorem nodup_nodeOn {s : Side} {x : α} {t u : BinaryTree α} :
    (nodeOn s x t u).inorder.Nodup ↔ x ∉ t.inorder ∧ x ∉ u.inorder ∧ t.inorder.Nodup ∧
      u.inorder.Nodup ∧ ∀ y ∈ t.inorder, y ∉ u.inorder := by
  have key : ∀ t u : BinaryTree α, (node x t u).inorder.Nodup ↔ x ∉ t.inorder ∧ x ∉ u.inorder ∧
      t.inorder.Nodup ∧ u.inorder.Nodup ∧ ∀ y ∈ t.inorder, y ∉ u.inorder := by
    intro t u
    rw [inorder_node, List.nodup_append, List.nodup_cons]
    constructor
    · rintro ⟨ht, ⟨hxu, hu⟩, hd⟩
      exact ⟨fun h => hd x h x List.mem_cons_self rfl, hxu, ht, hu,
        fun y hy hyu => hd y hy y (List.mem_cons_of_mem _ hyu) rfl⟩
    · rintro ⟨hxt, hxu, ht, hu, hd⟩
      refine ⟨ht, ⟨hxu, hu⟩, fun a ha b hb hab => ?_⟩
      rcases List.mem_cons.mp hb with rfl | hb
      · exact hxt (hab ▸ ha)
      · exact hd a ha (hab ▸ hb)
  cases s with
  | left => exact key t u
  | right =>
    rw [show nodeOn .right x t u = node x u t from rfl, key]
    constructor
    · rintro ⟨h1, h2, h3, h4, h5⟩
      exact ⟨h2, h1, h4, h3, fun y hy hyu => h5 y hyu hy⟩
    · rintro ⟨h1, h2, h3, h4, h5⟩
      exact ⟨h2, h1, h4, h3, fun y hy hyt => h5 y hyt hy⟩

/-- One step down: the subtree is on `side` of `value`, with `sib` on the other. -/
structure Crumb (α : Type) where
  side : Side
  value : α
  sib : BinaryTree α

def Crumb.plug (c : Crumb α) (t : BinaryTree α) : BinaryTree α := nodeOn c.side c.value t c.sib

abbrev Path (α : Type) := List (Crumb α)

/-- Put a subtree back at the end of a path. -/
def plug (t : BinaryTree α) : Path α → BinaryTree α
  | [] => t
  | c :: p => plug (c.plug t) p

/-- The values to the left of the subtree. -/
def before : Path α → List α
  | [] => []
  | c :: p =>
    match c.side with
    | .left => before p
    | .right => before p ++ (c.sib.inorder ++ [c.value])

/-- The values to the right of the subtree. -/
def after : Path α → List α
  | [] => []
  | c :: p =>
    match c.side with
    | .left => c.value :: c.sib.inorder ++ after p
    | .right => after p

/-- The value one step up. -/
def above : Path α → Option α
  | [] => none
  | c :: _ => some c.value

@[simp] theorem plug_nil (t : BinaryTree α) : plug t [] = t := rfl

@[simp] theorem plug_cons (t : BinaryTree α) (c : Crumb α) (p : Path α) :
    plug t (c :: p) = plug (c.plug t) p := rfl

@[simp] theorem above_nil : above ([] : Path α) = none := rfl

@[simp] theorem above_cons (c : Crumb α) (p : Path α) : above (c :: p) = some c.value := rfl

@[simp] theorem Crumb.top_plug (c : Crumb α) (t : BinaryTree α) : (c.plug t).top = some c.value :=
  top_nodeOn _ _ _ _

theorem plug_append (t : BinaryTree α) (p q : Path α) : plug t (p ++ q) = plug (plug t p) q := by
  induction p generalizing t with
  | nil => rfl
  | cons c p ih => exact ih _

theorem inorder_plug (t : BinaryTree α) (p : Path α) :
    (plug t p).inorder = before p ++ t.inorder ++ after p := by
  induction p generalizing t with
  | nil => simp [before, after]
  | cons c p ih =>
    obtain ⟨side, x, sib⟩ := c
    rw [plug_cons, ih]
    cases side <;> simp [Crumb.plug, nodeOn, before, after, List.append_assoc]

/-- The values off the subtree: those of the path and of its siblings. -/
def spine (p : Path α) : List α := before p ++ after p

@[simp] theorem spine_nil : spine ([] : Path α) = [] := rfl

theorem mem_spine_cons {c : Crumb α} {p : Path α} {x : α} :
    x ∈ spine (c :: p) ↔ x = c.value ∨ x ∈ c.sib.inorder ∨ x ∈ spine p := by
  obtain ⟨side, y, sib⟩ := c
  cases side <;> simp [spine, before, after] <;> tauto

theorem inorder_plug_perm (t : BinaryTree α) (p : Path α) :
    (plug t p).inorder.Perm (t.inorder ++ spine p) := by
  rw [inorder_plug, spine, ← List.append_assoc]
  exact List.perm_append_comm.append_right _

theorem mem_inorder_plug {t : BinaryTree α} {p : Path α} {x : α} :
    x ∈ (plug t p).inorder ↔ x ∈ t.inorder ∨ x ∈ spine p := by
  rw [(inorder_plug_perm t p).mem_iff, List.mem_append]

theorem nodup_plug {t : BinaryTree α} {p : Path α} :
    (plug t p).inorder.Nodup ↔
      t.inorder.Nodup ∧ (spine p).Nodup ∧ ∀ x ∈ t.inorder, x ∉ spine p := by
  rw [(inorder_plug_perm t p).nodup_iff, List.nodup_append]
  refine and_congr_right fun _ => and_congr_right fun _ => ?_
  exact ⟨fun h x hx hs => h x hx x hs rfl, fun h x hx y hy he => h x hx (he ▸ hy)⟩

theorem nodup_spine_cons {c : Crumb α} {p : Path α} : (spine (c :: p)).Nodup ↔
    c.value ∉ c.sib.inorder ∧ c.sib.inorder.Nodup ∧ c.value ∉ spine p ∧ (spine p).Nodup ∧
      ∀ y ∈ c.sib.inorder, y ∉ spine p := by
  have h := nodup_plug (t := .nil) (p := c :: p)
  rw [plug_cons, nodup_plug, Crumb.plug, nodup_nodeOn] at h
  simp only [mem_nodeOn] at h
  constructor
  · intro hs
    obtain ⟨⟨-, hv, -, hn, -⟩, hp, hd⟩ := h.mpr ⟨List.nodup_nil, hs, by simp⟩
    exact ⟨hv, hn, hd _ (Or.inl rfl), hp, fun y hy => hd y (Or.inr (Or.inr hy))⟩
  · rintro ⟨hv, hn, hvp, hp, hd⟩
    refine (h.mp ⟨⟨by simp, hv, List.nodup_nil, hn, by simp⟩, hp, ?_⟩).2.1
    rintro y (rfl | hy | hy)
    · exact hvp
    · cases hy
    · exact hd y hy

theorem length_le_spine (p : Path α) : p.length ≤ (spine p).length := by
  induction p with
  | nil => exact Nat.le_refl _
  | cons c p ih =>
    obtain ⟨side, x, sib⟩ := c
    cases side <;> simp [spine, before, after] at ih ⊢ <;> omega

/-- The root of a tree does not depend on what is plugged below it. -/
theorem top_plug_cons (t u : BinaryTree α) (c : Crumb α) (p : Path α) :
    (plug t (c :: p)).top = (plug u (c :: p)).top := by
  induction p generalizing t u c with
  | nil => simp
  | cons d p ih => exact ih (c.plug t) (c.plug u) d

/-- Every value of a tree stands at the root of one of its subtrees. -/
theorem exists_plug {t : BinaryTree α} {x : α} (h : x ∈ t.inorder) :
    ∃ l r p, t = plug (node x l r) p := by
  induction t with
  | nil => cases h
  | node y l r ihl ihr =>
    rcases List.mem_append.mp h with hl | hr
    · obtain ⟨a, b, p, rfl⟩ := ihl hl
      exact ⟨a, b, p ++ [⟨.left, y, r⟩], by rw [plug_append]; rfl⟩
    · rcases List.mem_cons.mp hr with rfl | hr
      · exact ⟨l, r, [], rfl⟩
      · obtain ⟨a, b, p, rfl⟩ := ihr hr
        exact ⟨a, b, p ++ [⟨.right, y, l⟩], by rw [plug_append]; rfl⟩

theorem numNodes_plug (t : BinaryTree α) (p : Path α) :
    (plug t p).numNodes = (before p).length + t.numNodes + (after p).length := by
  rw [← length_inorder, inorder_plug, List.length_append, List.length_append, length_inorder]

/-- A step down is deeper than the subtree it leads to. -/
theorem Crumb.height_plug (c : Crumb α) (t : BinaryTree α) :
    (c.plug t).height = max t.height c.sib.height + 1 := height_nodeOn _ _ _ _

theorem height_plug_ge (t : BinaryTree α) (p : Path α) :
    t.height + p.length ≤ (plug t p).height := by
  induction p generalizing t with
  | nil => simp
  | cons c p ih =>
    have h1 := ih (c.plug t)
    have h2 := c.height_plug t
    rw [plug_cons, List.length_cons]
    omega

end BinaryTree
