/-
  The pointer graph of an AVL tree and the tree it represents.

  `Rep m par t` says that the nodes of `t` lie in memory with exactly the links, parent
  pointers, heights and counts of `t`, its root below `par`. Each function of `avl.cpp` that
  works below one node maps a represented tree to another, given by a function on trees
  (`rotate_rep`: `BinaryTree.rot`, `avlFixTall_rep`: `BinaryTree.fixTall`), and writes no node
  outside of it (`Frame`).
-/
import Greenis.Lib.AvlTree
import Greenis.Model.Avl

namespace Greenis
open CExec BinaryTree

/-! ## Represented trees -/

/-- A cell with the child `a` on the given side and `b` on the other. -/
def links (par : Option Ptr) (s : Side) (a b : Option Ptr) (h : Nat) (c : UInt32) : AVLNode :=
  match s with
  | .left => { parent := par, left := a, right := b, height := h, cnt := c }
  | .right => { parent := par, left := b, right := a, height := h, cnt := c }

section Links

variable (par : Option Ptr) (s : Side) (a b p : Option Ptr) (h : Nat) (c : UInt32)

@[simp] theorem links_child : (links par s a b h c).child s = a := by cases s <;> rfl

@[simp] theorem links_child_other : (links par s a b h c).child s.other = b := by cases s <;> rfl

@[simp] theorem links_setChild : (links par s a b h c).setChild s p = links par s p b h c := by
  cases s <;> rfl

@[simp] theorem links_setChild_other :
    (links par s a b h c).setChild s.other p = links par s a p h c := by
  cases s <;> rfl

@[simp] theorem links_parent : (links par s a b h c).parent = par := by cases s <;> rfl

@[simp] theorem links_height : (links par s a b h c).height = h := by cases s <;> rfl

@[simp] theorem links_cnt : (links par s a b h c).cnt = c := by cases s <;> rfl

@[simp] theorem links_setParent : { links par s a b h c with parent := p } = links p s a b h c := by
  cases s <;> rfl

theorem links_other : links par s.other b a h c = links par s a b h c := by cases s <;> rfl

end Links

/-- The cell of a node with these subtrees. -/
def cellOf (par : Option Ptr) (s : Side) (t u : BinaryTree Ptr) : AVLNode :=
  links par s t.top u.top (1 + max t.height u.height)
    (1 + UInt32.ofNat t.numNodes + UInt32.ofNat u.numNodes)

theorem cellOf_other (par : Option Ptr) (s : Side) (t u : BinaryTree Ptr) :
    cellOf par s.other t u = cellOf par s u t := by
  rw [cellOf, cellOf, links_other, Nat.max_comm, UInt32.add_assoc, UInt32.add_assoc,
    UInt32.add_comm (UInt32.ofNat t.numNodes)]

section CellOf

variable (par p : Option Ptr) (s : Side) (t u : BinaryTree Ptr)

@[simp] theorem cellOf_child : (cellOf par s t u).child s = t.top := links_child ..

@[simp] theorem cellOf_child_other : (cellOf par s t u).child s.other = u.top :=
  links_child_other ..

@[simp] theorem cellOf_parent : (cellOf par s t u).parent = par := links_parent ..

@[simp] theorem cellOf_left : (cellOf par .left t u).left = t.top := rfl

@[simp] theorem cellOf_right : (cellOf par .left t u).right = u.top := rfl

@[simp] theorem cellOf_setParent : { cellOf par s t u with parent := p } = cellOf p s t u :=
  links_setParent ..

end CellOf

/-- The tree `t` lies in memory, its root below `par`. -/
def Rep (m : AvlMem) (par : Option Ptr) : BinaryTree Ptr → Prop
  | .nil => True
  | .node x l r => m x = some (cellOf par .left l r) ∧ Rep m (some x) l ∧ Rep m (some x) r

theorem rep_nodeOn {m : AvlMem} {par : Option Ptr} {s : Side} {x : Ptr} {t u : BinaryTree Ptr} :
    Rep m par (nodeOn s x t u) ↔
      m x = some (cellOf par s t u) ∧ Rep m (some x) t ∧ Rep m (some x) u := by
  cases s with
  | left => rfl
  | right =>
    rw [show nodeOn .right x t u = node x u t from rfl, Rep,
      show Side.right = Side.left.other from rfl, cellOf_other]
    tauto

/-- Outside of `S` the memory is the same. -/
def Frame (m m' : AvlMem) (S : List Ptr) : Prop := ∀ p, p ∉ S → m' p = m p

theorem Frame.refl (m : AvlMem) (S : List Ptr) : Frame m m S := fun _ _ => rfl

theorem Frame.mono {m m' : AvlMem} {S T : List Ptr} (h : Frame m m' S) (hsub : ∀ p ∈ S, p ∈ T) :
    Frame m m' T :=
  fun p hp => h p fun hS => hp (hsub p hS)

theorem Frame.trans {m m' m'' : AvlMem} {S : List Ptr} (h : Frame m m' S) (h' : Frame m' m'' S) :
    Frame m m'' S :=
  fun p hp => (h' p hp).trans (h p hp)

theorem Frame.write {m m' : AvlMem} {S : List Ptr} (h : Frame m m' S) {x : Ptr} (hx : x ∈ S)
    (a : AVLNode) : Frame m (m'.write x a) S := by
  intro p hp
  have hpx : p ≠ x := fun he => hp (he ▸ hx)
  rw [Store.write_other m' a hpx]
  exact h p hp

theorem Frame.single (m : AvlMem) (x : Ptr) (a : AVLNode) : Frame m (m.write x a) [x] :=
  (Frame.refl m _).write List.mem_cons_self a

theorem Rep.congr {m m' : AvlMem} {par : Option Ptr} {t : BinaryTree Ptr} (h : Rep m par t)
    (hm : ∀ p ∈ t.inorder, m' p = m p) : Rep m' par t := by
  induction t generalizing par with
  | nil => trivial
  | node x l r ihl ihr =>
    obtain ⟨hx, hl, hr⟩ := h
    refine ⟨?_, ihl hl fun p hp => hm p ?_, ihr hr fun p hp => hm p ?_⟩
    · rw [hm x (by simp), hx]
    · simp [hp]
    · simp [hp]

theorem Rep.frame {m m' : AvlMem} {par : Option Ptr} {t : BinaryTree Ptr} {S : List Ptr}
    (h : Rep m par t) (hf : Frame m m' S) (hd : ∀ p ∈ t.inorder, p ∉ S) : Rep m' par t :=
  h.congr fun p hp => hf p (hd p hp)

theorem Rep.frame_single {m m' : AvlMem} {par : Option Ptr} {t : BinaryTree Ptr} {x : Ptr}
    (h : Rep m par t) (hf : Frame m m' [x]) (hx : x ∉ t.inorder) : Rep m' par t :=
  h.frame hf fun _ hp he => hx (List.mem_singleton.mp he ▸ hp)

theorem avlHeight_rep {m : AvlMem} {par : Option Ptr} {t : BinaryTree Ptr} (h : Rep m par t) :
    avlHeight m t.top = .ok t.height := by
  cases t with
  | nil => rfl
  | node x l r =>
    simp [avlHeight, Store.load_of h.1, cellOf, Nat.add_comm]

theorem cnt_node (l r : Nat) :
    1 + UInt32.ofNat l + UInt32.ofNat r = UInt32.ofNat (l + r + 1) := by
  rw [UInt32.ofNat_add, UInt32.ofNat_add, UInt32.add_assoc, UInt32.add_comm]
  rfl

theorem avlCnt_rep {m : AvlMem} {par : Option Ptr} {t : BinaryTree Ptr} (h : Rep m par t) :
    avlCnt m t.top = .ok (UInt32.ofNat t.numNodes) := by
  cases t with
  | nil => rfl
  | node x l r =>
    rw [top_node, avlCnt, Store.load_of h.1, ok_bind, cellOf, links_cnt, cnt_node, numNodes]

/-- The nodes of a represented tree are allocated. -/
theorem Rep.alloc {m : AvlMem} {par : Option Ptr} {t : BinaryTree Ptr} (h : Rep m par t) {p : Ptr}
    (hp : p ∈ t.inorder) : ∃ n, m p = some n := by
  induction t generalizing par with
  | nil => cases hp
  | node x l r ihl ihr =>
    rcases List.mem_append.mp hp with hp | hp
    · exact ihl h.2.1 hp
    · rcases List.mem_cons.mp hp with rfl | hp
      · exact ⟨_, h.1⟩
      · exact ihr h.2.2 hp

/-! ## Assignments to one node -/

/-- `nodeOn s x t u` lies in memory, but the height and count of `x` may be out of date. -/
structure Stale (m : AvlMem) (par : Option Ptr) (s : Side) (x : Ptr) (t u : BinaryTree Ptr) :
    Prop where
  cell : ∃ h c, m x = some (links par s t.top u.top h c)
  near : Rep m (some x) t
  far : Rep m (some x) u

theorem Rep.stale {m : AvlMem} {par : Option Ptr} {s : Side} {x : Ptr} {t u : BinaryTree Ptr}
    (h : Rep m par (nodeOn s x t u)) : Stale m par s x t u := by
  obtain ⟨hx, ht, hu⟩ := rep_nodeOn.mp h
  exact ⟨⟨_, _, hx⟩, ht, hu⟩

theorem Stale.symm {m : AvlMem} {par : Option Ptr} {s : Side} {x : Ptr} {t u : BinaryTree Ptr}
    (h : Stale m par s x t u) : Stale m par s.other x u t := by
  obtain ⟨⟨k, c, hx⟩, ht, hu⟩ := h
  exact ⟨⟨k, c, by rw [links_other, hx]⟩, hu, ht⟩

/-- `avl_update` makes a stale root exact. -/
theorem avlUpdate_rep {m : AvlMem} {par : Option Ptr} {s : Side} {x : Ptr} {t u : BinaryTree Ptr}
    (h : Stale m par s x t u) (ht : x ∉ t.inorder) (hu : x ∉ u.inorder) :
    ∃ m', avlUpdate m x = .ok m' ∧ Rep m' par (nodeOn s x t u) ∧ Frame m m' [x] := by
  -- For a node given by its left and right subtrees.
  have key : ∀ {l r : BinaryTree Ptr}, Stale m par .left x l r → x ∉ l.inorder →
      x ∉ r.inorder →
      ∃ m', avlUpdate m x = .ok m' ∧ Rep m' par (node x l r) ∧ Frame m m' [x] := by
    rintro l r ⟨⟨k, c, hx⟩, hL, hR⟩ hl hr
    have hframe := Frame.single m x (cellOf par .left l r)
    refine ⟨m.write x (cellOf par .left l r), ?_, ⟨Store.write_same _ _ _,
      hL.frame_single hframe hl, hR.frame_single hframe hr⟩, hframe⟩
    unfold avlUpdate
    rw [Store.load_of hx, ok_bind]
    dsimp only [links]
    rw [avlHeight_rep hL, ok_bind, avlHeight_rep hR, ok_bind, avlCnt_rep hL, ok_bind,
      avlCnt_rep hR, ok_bind, Store.modify_of hx]
    rfl
  cases s with
  | left => exact key h ht hu
  | right => exact key h.symm hu ht

/-- Hanging a represented tree below another node. -/
theorem setParent_rep {m : AvlMem} {par : Option Ptr} {t : BinaryTree Ptr} (h : Rep m par t)
    (hn : t.inorder.Nodup) (par' : Option Ptr) :
    ∃ m', setParent m t.top par' = .ok m' ∧ Rep m' par' t ∧ Frame m m' t.inorder := by
  cases t with
  | nil => exact ⟨m, rfl, trivial, Frame.refl m _⟩
  | node x l r =>
    obtain ⟨hx, hL, hR⟩ := h
    obtain ⟨hnl, hnr, -⟩ := nodup_nodeOn (s := .left).mp hn
    have hframe := Frame.single m x (cellOf par' .left l r)
    refine ⟨m.write x (cellOf par' .left l r), Store.modify_of hx _, ⟨Store.write_same _ _ _,
      hL.frame_single hframe hnl, hR.frame_single hframe hnr⟩, hframe.mono ?_⟩
    intro p hp
    rw [List.mem_singleton.mp hp]
    simp

/-! ## Rotations -/

/-- `rot_left` and `rot_right`. -/
theorem rotate_rep {m : AvlMem} {par : Option Ptr} {s : Side} {x y : Ptr}
    {t i u : BinaryTree Ptr} (h : Stale m par s x t (nodeOn s y i u))
    (hn : (nodeOn s x t (nodeOn s y i u)).inorder.Nodup) :
    ∃ m', rotate s m x = .ok (m', y) ∧ Rep m' par (nodeOn s y (nodeOn s x t i) u) ∧
      Frame m m' (nodeOn s x t (nodeOn s y i u)).inorder := by
  obtain ⟨⟨hh, hc, hx⟩, hT, hyrep⟩ := h
  rw [top_nodeOn] at hx
  obtain ⟨hy, hI, hU⟩ := rep_nodeOn.mp hyrep
  obtain ⟨hxt, hxr, hnt, hnr, hd⟩ := nodup_nodeOn.mp hn
  obtain ⟨hyi, hyu, hni, hnu, hdi⟩ := nodup_nodeOn.mp hnr
  simp only [mem_nodeOn, not_or] at hxr hd
  obtain ⟨hxy, hxi, hxu⟩ := hxr
  have hyx : y ≠ x := Ne.symm hxy
  -- node <-> inner
  let m1 := m.write x (links par s t.top i.top hh hc)
  have hf1 : Frame m m1 [x] := Frame.single _ _ _
  have hm1x : m1 x = some (links par s t.top i.top hh hc) := Store.write_same _ _ _
  have hm1y : m1 y = some (cellOf (some x) s i u) := (Store.write_other _ _ hyx).trans hy
  obtain ⟨m2, hrun2, hI2, hf2⟩ := setParent_rep (hI.frame_single hf1 hxi) hni (some x)
  have hm2x : m2 x = some (links par s t.top i.top hh hc) := (hf2 x hxi).trans hm1x
  have hm2y : m2 y = some (cellOf (some x) s i u) := (hf2 y hyi).trans hm1y
  -- parent <- new_node, new_node <-> node
  let m3 := m2.write y (cellOf par s i u)
  have hm3y : m3 y = some (cellOf par s i u) := Store.write_same _ _ _
  let m4 := m3.write y ((cellOf par s i u).setChild s (some x))
  have hm4x : m4 x = some (links par s t.top i.top hh hc) :=
    (Store.write_other _ _ hxy).trans ((Store.write_other _ _ hxy).trans hm2x)
  let m5 := m4.write x (links (some y) s t.top i.top hh hc)
  have hf25 : Frame m2 m5 [x, y] :=
    (((Frame.refl m2 _).write (by simp) _).write (by simp) _).write (by simp) _
  have hf05 : Frame m m5 (x :: y :: i.inorder) :=
    ((hf1.mono (by simp)).trans (hf2.mono (by simp +contextual))).trans (hf25.mono (by simp))
  have hm5x : m5 x = some (links (some y) s t.top i.top hh hc) := Store.write_same _ _ _
  have hm5y : m5 y = some ((cellOf par s i u).setChild s (some x)) :=
    (Store.write_other _ _ hyx).trans (Store.write_same _ _ _)
  have hT5 : Rep m5 (some x) t := hT.frame hf05 fun p hp he => by
    have := hd p hp
    simp only [List.mem_cons] at he
    rcases he with rfl | rfl | he
    · exact hxt hp
    · exact this.1 rfl
    · exact this.2.1 he
  have hI5 : Rep m5 (some x) i := hI2.frame hf25 fun p hp he => by
    simp only [List.mem_cons, List.not_mem_nil, or_false] at he
    rcases he with rfl | rfl
    · exact hxi hp
    · exact hyi hp
  have hU5 : Rep m5 (some y) u := hU.frame hf05 fun p hp he => by
    simp only [List.mem_cons] at he
    rcases he with rfl | rfl | he
    · exact hxu hp
    · exact hyu hp
    · exact hdi p he hp
  -- auxiliary data, the lower node first
  obtain ⟨m6, hrun6, hX6, hf6⟩ := avlUpdate_rep (s := s) ⟨⟨_, _, hm5x⟩, hT5, hI5⟩ hxt hxi
  have hm6y : m6 y = some ((cellOf par s i u).setChild s (some x)) :=
    (hf6 y (by simpa using hyx)).trans hm5y
  have hstale : Stale m6 par s y (nodeOn s x t i) u := by
    refine ⟨?_, hX6, hU5.frame_single hf6 hxu⟩
    rw [hm6y, cellOf, links_setChild, top_nodeOn]
    exact ⟨_, _, rfl⟩
  have hyX : y ∉ (nodeOn s x t i).inorder := by
    rw [mem_nodeOn, not_or, not_or]
    exact ⟨hyx, fun h => (hd y h).1 rfl, hyi⟩
  obtain ⟨m7, hrun7, hrep7, hf7⟩ := avlUpdate_rep hstale hyX hyu
  refine ⟨m7, ?_, hrep7, ?_⟩
  · unfold rotate
    rw [Store.load_of hx, ok_bind]
    dsimp only
    rw [links_child_other, deref_some, ok_bind, Store.load_of hy, ok_bind, cellOf_child,
      links_parent, Store.modify_of hx, ok_bind, links_setChild_other, hrun2, ok_bind,
      Store.modify_of hm2y, ok_bind, cellOf_setParent, Store.modify_of hm3y, ok_bind,
      Store.modify_of hm4x, ok_bind, links_setParent, hrun6, ok_bind, hrun7]
    rfl
  · have hsub : ∀ p ∈ x :: y :: i.inorder, p ∈ (nodeOn s x t (nodeOn s y i u)).inorder := by
      intro p hp
      simp only [mem_nodeOn, List.mem_cons] at hp ⊢
      tauto
    refine ((hf05.mono hsub).trans (hf6.mono ?_)).trans (hf7.mono ?_) <;> simp [mem_nodeOn]

/-- `avl_fix_left` and `avl_fix_right`. -/
theorem avlFixTall_rep {m : AvlMem} {par : Option Ptr} {s : Side} {x : Ptr}
    {t u : BinaryTree Ptr} (h : Rep m par (nodeOn s x t u))
    (hn : (nodeOn s x t u).inorder.Nodup) (ht : 0 < t.height) :
    ∃ m' y, avlFixTall s m x = .ok (m', y) ∧ Rep m' par (fixTall s (nodeOn s x t u)) ∧
      (fixTall s (nodeOn s x t u)).top = some y ∧ Frame m m' (nodeOn s x t u).inorder := by
  obtain ⟨y, a, i, rfl⟩ := exists_nodeOn s ht
  obtain ⟨hx, hT, hU⟩ := rep_nodeOn.mp h
  obtain ⟨hy, hA, hI⟩ := rep_nodeOn.mp hT
  obtain ⟨hxt, hxu, hnt, hnu, hd⟩ := nodup_nodeOn.mp hn
  rw [fixTall_nodeOn]
  unfold avlFixTall
  rw [Store.load_of hx, ok_bind, cellOf_child, top_nodeOn, deref_some, ok_bind, Store.load_of hy,
    ok_bind, cellOf_child, cellOf_child_other, avlHeight_rep hA, ok_bind, avlHeight_rep hI, ok_bind]
  by_cases hc : a.height < i.height
  · -- The inner grandchild is the taller one: it takes the child's place first.
    obtain ⟨z, b, c, rfl⟩ := exists_nodeOn s (t := i) (by omega)
    obtain ⟨m1, hrun1, hrep1, hf1⟩ := rotate_rep hT.stale hnt
    have hm1x : m1 x = some (cellOf par s (nodeOn s y a (nodeOn s z b c)) u) :=
      (hf1 x hxt).trans hx
    let m2 := m1.write x (links par s (some z) u.top
      (1 + max (nodeOn s y a (nodeOn s z b c)).height u.height)
      (1 + UInt32.ofNat (nodeOn s y a (nodeOn s z b c)).numNodes + UInt32.ofNat u.numNodes))
    have hf2 : Frame m1 m2 [x] := Frame.single _ _ _
    have hxt' : x ∉ (nodeOn s z (nodeOn s y a b) c).inorder := by
      simp only [mem_nodeOn] at hxt ⊢
      tauto
    have hn' : (nodeOn s.other x u (nodeOn s.other z c (nodeOn s y a b))).inorder.Nodup := by
      have hperm : (nodeOn s z (nodeOn s y a b) c).inorder =
          (nodeOn s y a (nodeOn s z b c)).inorder := by
        rw [← rot_nodeOn, inorder_rot]
      rw [nodeOn_other, nodeOn_other]
      refine nodup_nodeOn.mpr ⟨hxt', hxu, ?_, hnu, ?_⟩
      · rw [hperm]
        exact hnt
      · rw [hperm]
        exact hd
    have hstale : Stale m2 par s.other x u (nodeOn s.other z c (nodeOn s y a b)) := by
      rw [nodeOn_other]
      refine Stale.symm ⟨⟨_, _, by rw [top_nodeOn]; exact Store.write_same _ _ _⟩,
        hrep1.frame_single hf2 hxt', ?_⟩
      exact (hU.frame hf1 fun p hp hpt => hd p hpt hp).frame_single hf2 hxu
    obtain ⟨m3, hrun3, hrep3, hf3⟩ := rotate_rep hstale hn'
    have hfix : rot s.other (nodeOn s x (rot s (nodeOn s y a (nodeOn s z b c))) u) =
        nodeOn s.other z (nodeOn s.other x u c) (nodeOn s y a b) := by
      rw [rot_nodeOn, ← nodeOn_other s x, ← nodeOn_other s z, rot_nodeOn]
    refine ⟨m3, z, ?_, ?_, ?_, ?_⟩
    · rw [if_pos hc, hrun1, ok_bind]
      dsimp only
      rw [Store.modify_of hm1x, ok_bind, cellOf, links_setChild]
      exact hrun3
    · rw [if_pos hc, hfix]
      exact hrep3
    · rw [if_pos hc, hfix, top_nodeOn]
    · have hsub1 : ∀ p ∈ (nodeOn s y a (nodeOn s z b c)).inorder,
          p ∈ (nodeOn s x (nodeOn s y a (nodeOn s z b c)) u).inorder :=
        fun p hp => mem_nodeOn.mpr (Or.inr (Or.inl hp))
      refine ((hf1.mono hsub1).trans (hf2.mono (by simp [mem_nodeOn]))).trans (hf3.mono ?_)
      intro p hp
      simp only [mem_nodeOn] at hp ⊢
      tauto
  · rw [if_neg hc, if_neg hc, ok_bind]
    rw [← nodeOn_other s x, ← nodeOn_other s y] at h hn ⊢
    obtain ⟨m1, hrun1, hrep1, hf1⟩ := rotate_rep h.stale hn
    rw [rot_nodeOn]
    exact ⟨m1, y, hrun1, hrep1, top_nodeOn _ _ _ _, hf1⟩

end Greenis
