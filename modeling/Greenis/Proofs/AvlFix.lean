/-
  Repair on the way to the root, and removal of a node.

  A subtree in memory hangs below a path of ancestors. `RepPath` describes ancestors whose
  heights and counts may be out of date, as they are while `avl_fix` climbs; `RepAbove` those
  that are exact. `avl_fix` computes `BinaryTree.fixUp` (`avlFix_rep`), and `avl_del` removes one
  node from the in-order sequence of a balanced tree (`avlDel_rep`).
-/
import Greenis.Proofs.Avl

namespace Greenis
open CExec BinaryTree

/-! ## Ancestors -/

/-- The ancestors of a subtree, the innermost with `hole` as its child on the path. -/
def RepPath (m : AvlMem) (hole : Option Ptr) : Path Ptr → Prop
  | [] => True
  | c :: p =>
    (∃ h k, m c.value = some (links (above p) c.side hole c.sib.top h k)) ∧
      Rep m (some c.value) c.sib ∧ RepPath m (some c.value) p

/-- The ancestors of the subtree `t`, with the heights and counts of the whole tree. -/
def RepAbove (m : AvlMem) (t : BinaryTree Ptr) : Path Ptr → Prop
  | [] => True
  | c :: p =>
    m c.value = some (cellOf (above p) c.side t c.sib) ∧
      Rep m (some c.value) c.sib ∧ RepAbove m (c.plug t) p

theorem rep_plug_iff {m : AvlMem} {t : BinaryTree Ptr} {p : Path Ptr} :
    Rep m none (plug t p) ↔ Rep m (above p) t ∧ RepAbove m t p := by
  induction p generalizing t with
  | nil => simp [RepAbove]
  | cons c p ih =>
    rw [plug_cons, ih, Crumb.plug, rep_nodeOn]
    simp only [RepAbove, above_cons, Crumb.plug]
    tauto

theorem RepAbove.path {m : AvlMem} {t : BinaryTree Ptr} {p : Path Ptr} (h : RepAbove m t p) :
    RepPath m t.top p := by
  induction p generalizing t with
  | nil => trivial
  | cons c p ih =>
    obtain ⟨hc, hs, hp⟩ := h
    have := ih hp
    rw [Crumb.top_plug] at this
    exact ⟨⟨_, _, hc⟩, hs, this⟩

theorem RepPath.frame {m m' : AvlMem} {hole : Option Ptr} {p : Path Ptr} {S : List Ptr}
    (h : RepPath m hole p) (hf : Frame m m' S) (hd : ∀ x ∈ spine p, x ∉ S) :
    RepPath m' hole p := by
  induction p generalizing hole with
  | nil => trivial
  | cons c p ih =>
    obtain ⟨⟨k, n, hc⟩, hs, hp⟩ := h
    simp only [mem_spine_cons] at hd
    refine ⟨⟨k, n, ?_⟩, hs.frame hf fun y hy => hd y (Or.inr (Or.inl hy)),
      ih hp fun y hy => hd y (Or.inr (Or.inr hy))⟩
    rw [hf c.value (hd _ (Or.inl rfl)), hc]

theorem RepAbove.frame {m m' : AvlMem} {t : BinaryTree Ptr} {p : Path Ptr} {S : List Ptr}
    (h : RepAbove m t p) (hf : Frame m m' S) (hd : ∀ x ∈ spine p, x ∉ S) :
    RepAbove m' t p := by
  induction p generalizing t with
  | nil => trivial
  | cons c p ih =>
    obtain ⟨hc, hs, hp⟩ := h
    simp only [mem_spine_cons] at hd
    refine ⟨?_, hs.frame hf fun y hy => hd y (Or.inr (Or.inl hy)),
      ih hp fun y hy => hd y (Or.inr (Or.inr hy))⟩
    rw [hf c.value (hd _ (Or.inl rfl)), hc]

/-- The cells of the ancestors depend on the subtree through its root, height and size. -/
theorem RepAbove.congr_tree {m : AvlMem} {t t' : BinaryTree Ptr} {p : Path Ptr}
    (h : RepAbove m t p) (ht : t'.top = t.top) (hh : t'.height = t.height)
    (hc : t'.numNodes = t.numNodes) : RepAbove m t' p := by
  induction p generalizing t t' with
  | nil => trivial
  | cons c p ih =>
    obtain ⟨hx, hs, hp⟩ := h
    refine ⟨by rw [hx, cellOf, cellOf, ht, hh, hc], hs, ih hp ?_ ?_ ?_⟩
    · rw [Crumb.top_plug, Crumb.top_plug]
    · rw [c.height_plug, c.height_plug, hh]
    · rw [← plug_nil (c.plug t'), ← plug_nil (c.plug t), ← plug_cons, ← plug_cons, numNodes_plug,
        numNodes_plug, hc]

/-- Where the parent keeps the subtree at the end of the path. -/
def linkOf : Path Ptr → Link
  | [] => .local
  | c :: _ => .child c.side c.value

theorem childLink_rep {m : AvlMem} {par : Option Ptr} {s : Side} {x y : Ptr} {b : Option Ptr}
    {h : Nat} {k : UInt32} (hy : m y = some (links par s (some x) b h k)) (hb : b ≠ some x) :
    childLink m y x = .ok (.child s y) := by
  unfold childLink
  rw [Store.load_of hy, ok_bind]
  cases s with
  | left => simp [links]
  | right => simp [links, hb]

theorem top_ne {t : BinaryTree Ptr} {x : Ptr} (h : x ∉ t.inorder) : t.top ≠ some x :=
  fun he => h (top_mem he)

/-- The address from which the parent points to the subtree with root `x`. -/
theorem incoming_rep {m : AvlMem} {x : Ptr} {p : Path Ptr} (h : RepPath m (some x) p)
    (hx : x ∉ spine p) :
    incoming m (above p) x = .ok (linkOf p) := by
  cases p with
  | nil => rfl
  | cons c p =>
    obtain ⟨⟨k, n, hc⟩, -, -⟩ := h
    rw [mem_spine_cons, not_or, not_or] at hx
    exact childLink_rep hc (top_ne hx.2.1)

theorem setLink_rep {m : AvlMem} {hole : Option Ptr} {p : Path Ptr} (h : RepPath m hole p)
    (hn : (spine p).Nodup) (hole' : Option Ptr) :
    ∃ m', setLink m (linkOf p) hole' = .ok m' ∧ RepPath m' hole' p ∧ Frame m m' (spine p) := by
  cases p with
  | nil => exact ⟨m, rfl, trivial, Frame.refl _ _⟩
  | cons c p =>
    obtain ⟨⟨k, n, hc⟩, hs, hp⟩ := h
    obtain ⟨hcs, -, hcp, -, -⟩ := nodup_spine_cons.mp hn
    have hf := Frame.single m c.value (links (above p) c.side hole' c.sib.top k n)
    refine ⟨_, (Store.modify_of hc _).trans (by rw [links_setChild]), ⟨⟨k, n, ?_⟩, ?_, ?_⟩,
      hf.mono ?_⟩
    · exact Store.write_same _ _ _
    · exact hs.frame_single hf hcs
    · exact hp.frame hf fun y hy he => hcp (List.mem_singleton.mp he ▸ hy)
    · intro y hy
      rw [List.mem_singleton.mp hy, mem_spine_cons]
      exact Or.inl rfl

/-- Replacing a subtree by one of the same height and size leaves the ancestors exact. -/
theorem setLink_above {m : AvlMem} {t : BinaryTree Ptr} (t' : BinaryTree Ptr) {p : Path Ptr}
    (h : RepAbove m t p)
    (hn : (spine p).Nodup) (hh : t'.height = t.height) (hc : t'.numNodes = t.numNodes) :
    ∃ m', setLink m (linkOf p) t'.top = .ok m' ∧ RepAbove m' t' p ∧ Frame m m' (spine p) := by
  cases p with
  | nil => exact ⟨m, rfl, trivial, Frame.refl _ _⟩
  | cons c p =>
    obtain ⟨hx, hs, hp⟩ := h
    obtain ⟨hcs, -, hcp, -, -⟩ := nodup_spine_cons.mp hn
    have hf := Frame.single m c.value (cellOf (above p) c.side t' c.sib)
    have hp' : RepAbove m (c.plug t') p := by
      refine hp.congr_tree (by rw [Crumb.top_plug, Crumb.top_plug]) ?_ ?_
      · rw [c.height_plug, c.height_plug, hh]
      · rw [← plug_nil (c.plug t'), ← plug_nil (c.plug t), ← plug_cons, ← plug_cons,
          numNodes_plug, numNodes_plug, hc]
    refine ⟨m.write c.value (cellOf (above p) c.side t' c.sib), ?_, ⟨?_, ?_, ?_⟩, hf.mono ?_⟩
    · exact (Store.modify_of hx _).trans (by rw [cellOf, links_setChild, cellOf, hh, hc])
    · exact Store.write_same _ _ _
    · exact hs.frame_single hf hcs
    · exact hp'.frame hf fun y hy he => hcp (List.mem_singleton.mp he ▸ hy)
    · intro y hy
      rw [List.mem_singleton.mp hy, mem_spine_cons]
      exact Or.inl rfl

/-! ## Climbing -/

theorem Stale.sides {m : AvlMem} {par : Option Ptr} {s : Side} {x : Ptr} {t u : BinaryTree Ptr}
    (h : Stale m par s x t u) :
    ∃ l r, nodeOn s x t u = node x l r ∧ Stale m par .left x l r := by
  cases s with
  | left => exact ⟨t, u, rfl, h⟩
  | right => exact ⟨u, t, rfl, h.symm⟩

theorem fixHeights_rep {m : AvlMem} {x : Ptr} {l r : BinaryTree Ptr} {p : Path Ptr}
    (h : Rep m (above p) (node x l r)) (hp : RepPath m (some x) p)
    (hn : (plug (node x l r) p).inorder.Nodup) :
    ∃ m' y, fixHeights m (linkOf p) x = .ok (m', y) ∧
      Rep m' (above p) (rebalance (node x l r)) ∧ (rebalance (node x l r)).top = some y ∧
      RepPath m' (some y) p ∧ Frame m m' (plug (node x l r) p).inorder := by
  obtain ⟨hn1, hn2, hd⟩ := nodup_plug.mp hn
  -- The fixed subtree is hung below the parent of the old one.
  have hang : ∀ (s : Side) (m1 : AvlMem) (y : Ptr),
      Rep m1 (above p) (fixTall s (node x l r)) → (fixTall s (node x l r)).top = some y →
      Frame m m1 (node x l r).inorder →
      ∃ m', setLink m1 (linkOf p) (some y) = .ok m' ∧
        Rep m' (above p) (fixTall s (node x l r)) ∧ RepPath m' (some y) p ∧
        Frame m m' (plug (node x l r) p).inorder := by
    intro s m1 y hrep htop hf
    obtain ⟨m2, hrun, hpath, hf2⟩ :=
      setLink_rep (hp.frame hf fun z hz hzt => hd z hzt hz) hn2 (some y)
    refine ⟨m2, hrun, hrep.frame hf2 fun z hz hs => ?_, hpath, ?_⟩
    · rw [inorder_fixTall] at hz
      exact hd z hz hs
    · exact (hf.mono fun z hz => mem_inorder_plug.mpr (Or.inl hz)).trans
        (hf2.mono fun z hz => mem_inorder_plug.mpr (Or.inr hz))
  obtain ⟨hx, hl, hr⟩ := id h
  unfold fixHeights
  rw [Store.load_of hx, ok_bind]
  dsimp only [cellOf, links]
  rw [avlHeight_rep hl, ok_bind, avlHeight_rep hr, ok_bind, rebalance_node]
  by_cases hL : l.height = r.height + 2
  · obtain ⟨m1, y, hrun, hrep, htop, hf⟩ :=
      avlFixTall_rep (s := .left) (t := l) (u := r) h hn1 (by omega)
    obtain ⟨m2, hset, hrep2, hpath, hf2⟩ := hang .left m1 y hrep htop hf
    rw [if_pos hL, if_pos hL]
    refine ⟨m2, y, ?_, hrep2, htop, hpath, hf2⟩
    rw [avlFixLeft, hrun, ok_bind]
    dsimp only
    rw [hset, ok_bind]
  · rw [if_neg hL, if_neg hL]
    by_cases hR : l.height + 2 = r.height
    · obtain ⟨m1, y, hrun, hrep, htop, hf⟩ :=
        avlFixTall_rep (s := .right) (t := r) (u := l) h hn1 (by omega)
      obtain ⟨m2, hset, hrep2, hpath, hf2⟩ := hang .right m1 y hrep htop hf
      rw [if_pos hR, if_pos hR]
      refine ⟨m2, y, ?_, hrep2, htop, hpath, hf2⟩
      rw [avlFixRight, hrun, ok_bind]
      dsimp only
      rw [hset, ok_bind]
    · rw [if_neg hR, if_neg hR]
      exact ⟨m, x, rfl, h, top_node _ _ _, hp, Frame.refl _ _⟩

/-- One iteration of `avl_fix` repairs the node and hangs it below its parent. -/
theorem fixStep_rep {m : AvlMem} {s : Side} {x : Ptr} {t u : BinaryTree Ptr} {p : Path Ptr}
    (h : Stale m (above p) s x t u) (hp : RepPath m (some x) p)
    (hn : (plug (nodeOn s x t u) p).inorder.Nodup) :
    ∃ m' y, fixStep m x = .ok (m', y, above p) ∧
      Rep m' (above p) (rebalance (nodeOn s x t u)) ∧
      (rebalance (nodeOn s x t u)).top = some y ∧
      RepPath m' (some y) p ∧ Frame m m' (plug (nodeOn s x t u) p).inorder := by
  obtain ⟨l, r, hnode, hstale⟩ := h.sides
  rw [hnode] at hn ⊢
  obtain ⟨hn1, hn2, hd⟩ := nodup_plug.mp hn
  obtain ⟨hxl, hxr, -⟩ := nodup_nodeOn (s := .left).mp hn1
  have hxp : x ∉ spine p := hd x (by simp)
  obtain ⟨m1, hrun1, hrep1, hf1⟩ := avlUpdate_rep hstale hxl hxr
  have hp1 : RepPath m1 (some x) p :=
    hp.frame hf1 fun y hy he => hxp (List.mem_singleton.mp he ▸ hy)
  obtain ⟨m2, y, hrun2, hrep2, htop, hp2, hf2⟩ := fixHeights_rep hrep1 hp1 hn
  refine ⟨m2, y, ?_, hrep2, htop, hp2, (hf1.mono ?_).trans hf2⟩
  · obtain ⟨k, c, hx⟩ := hstale.cell
    unfold fixStep
    rw [Store.load_of hx, ok_bind, links_parent, incoming_rep hp hxp, ok_bind, hrun1,
      ok_bind, hrun2]
    rfl
  · intro z hz
    rw [List.mem_singleton.mp hz, mem_inorder_plug]
    simp

theorem avlFix_rep (fuel : Nat) {m : AvlMem} {s : Side} {x : Ptr} {t u : BinaryTree Ptr}
    {p : Path Ptr} (h : Stale m (above p) s x t u) (hp : RepPath m (some x) p)
    (hn : (plug (nodeOn s x t u) p).inorder.Nodup) (hfuel : p.length < fuel) :
    ∃ m' y, avlFix fuel m x = .ok (m', y) ∧
      Rep m' none (fixUp (rebalance (nodeOn s x t u)) p) ∧
      (fixUp (rebalance (nodeOn s x t u)) p).top = some y ∧
      Frame m m' (plug (nodeOn s x t u) p).inorder := by
  induction p generalizing fuel m s x t u with
  | nil =>
    obtain ⟨fuel, rfl⟩ : ∃ k, fuel = k + 1 := ⟨fuel - 1, by simp at hfuel; omega⟩
    obtain ⟨m1, y, hrun, hrep, htop, -, hf⟩ := fixStep_rep h hp hn
    refine ⟨m1, y, ?_, hrep, htop, hf⟩
    rw [avlFix, hrun]
    rfl
  | cons c p ih =>
    obtain ⟨fuel, rfl⟩ : ∃ k, fuel = k + 1 := ⟨fuel - 1, by simp at hfuel; omega⟩
    obtain ⟨m1, y, hrun, hrep, htop, ⟨hc, hs, hp1⟩, hf⟩ := fixStep_rep h hp hn
    have hstale : Stale m1 (above p) c.side c.value (rebalance (nodeOn s x t u)) c.sib :=
      ⟨by rw [htop]; exact hc, hrep, hs⟩
    have hinorder : (plug (c.plug (rebalance (nodeOn s x t u))) p).inorder =
        (plug (nodeOn s x t u) (c :: p)).inorder := by
      rw [← plug_cons, inorder_plug, inorder_plug, inorder_rebalance]
    have hn1 : (plug (nodeOn c.side c.value (rebalance (nodeOn s x t u)) c.sib) p).inorder.Nodup :=
      hinorder.symm ▸ hn
    obtain ⟨m2, z, hrun2, hrep2, htop2, hf2⟩ :=
      ih fuel hstale hp1 hn1 (by simp at hfuel; omega)
    refine ⟨m2, z, ?_, hrep2, htop2, hf.trans (hinorder ▸ hf2)⟩
    rw [avlFix, hrun]
    exact hrun2

/-! ## Removal -/

/-- `avl_del_easy` puts the only child of a node in its place. -/
theorem avlDelEasy_rep {fuel : Nat} {m : AvlMem} {s : Side} {x : Ptr} {t : BinaryTree Ptr}
    {p : Path Ptr} (h : Rep m none (plug (nodeOn s x t .nil) p))
    (hn : (plug (nodeOn s x t .nil) p).inorder.Nodup) (hfuel : p.length < fuel) :
    ∃ m', avlDelEasy fuel m x = .ok (m', (fixUp t p).top) ∧ Rep m' none (fixUp t p) ∧
      Frame m m' (plug t p).inorder := by
  obtain ⟨hrep, habove⟩ := rep_plug_iff.mp h
  have hpath := habove.path
  rw [top_nodeOn] at hpath
  obtain ⟨hx, hT, -⟩ := rep_nodeOn.mp hrep
  obtain ⟨hn1, hn2, hd⟩ := nodup_plug.mp hn
  obtain ⟨hxt, -, hnt, -⟩ := nodup_nodeOn.mp hn1
  have hxp : x ∉ spine p := hd x (mem_nodeOn.mpr (Or.inl rfl))
  have hdt : ∀ y ∈ t.inorder, y ∉ spine p :=
    fun y hy => hd y (mem_nodeOn.mpr (Or.inr (Or.inl hy)))
  obtain ⟨m1, hrun1, hT1, hf1⟩ := setParent_rep hT hnt (above p)
  have hp1 : RepPath m1 (some x) p := hpath.frame hf1 fun y hy ht => hdt y ht hy
  have hcheck : check ((cellOf (above p) s t .nil).left.isNone ||
      (cellOf (above p) s t .nil).right.isNone) = .ok () := by
    cases s <;> exact check_of (by simp [cellOf, links])
  have hchild : ((cellOf (above p) s t .nil).left <|> (cellOf (above p) s t .nil).right) =
      t.top := by
    cases s <;> simp [cellOf, links]
  unfold avlDelEasy
  rw [Store.load_of hx, ok_bind, hcheck, ok_bind]
  dsimp only
  rw [hchild, cellOf_parent, hrun1, ok_bind]
  cases p with
  | nil => exact ⟨m1, rfl, hT1, hf1.mono fun y hy => mem_inorder_plug.mpr (Or.inl hy)⟩
  | cons c p =>
    obtain ⟨m2, hrun2, ⟨hc, hs, hp2⟩, hf2⟩ := setLink_rep hp1 hn2 t.top
    have hlink : childLink m1 c.value x = .ok (linkOf (c :: p)) := incoming_rep hp1 hxp
    have hstale : Stale m2 (above p) c.side c.value t c.sib :=
      ⟨hc, hT1.frame hf2 hdt, hs⟩
    have hn2 : (plug (nodeOn c.side c.value t c.sib) p).inorder.Nodup :=
      (nodup_plug (p := c :: p)).mpr ⟨hnt, hn2, hdt⟩
    obtain ⟨m3, y, hrun3, hrep3, htop3, hf3⟩ :=
      avlFix_rep fuel hstale hp2 hn2 (by simp at hfuel; omega)
    refine ⟨m3, ?_, hrep3, ?_⟩
    · dsimp only [above_cons]
      rw [hlink, ok_bind, hrun2, ok_bind, hrun3]
      rw [show fixUp t (c :: p) = fixUp (rebalance (nodeOn c.side c.value t c.sib)) p from rfl,
        htop3]
      rfl
    · refine ((hf1.mono fun y hy => ?_).trans (hf2.mono fun y hy => ?_)).trans hf3
      · exact (mem_inorder_plug (p := c :: p)).mpr (Or.inl hy)
      · exact (mem_inorder_plug (p := c :: p)).mpr (Or.inr hy)

/-- The leftmost node has no left child, and nothing comes before it. -/
theorem leftmost_rep (fuel : Nat) {m : AvlMem} {par : Option Ptr} {x : Ptr}
    {l r : BinaryTree Ptr} (h : Rep m par (node x l r)) (hfuel : (node x l r).height ≤ fuel) :
    ∃ v w q, leftmost m fuel x = .ok v ∧ node x l r = plug (node v .nil w) q ∧ before q = [] := by
  induction l generalizing fuel par x r with
  | nil =>
    obtain ⟨fuel, rfl⟩ : ∃ k, fuel = k + 1 := ⟨fuel - 1, by simp at hfuel; omega⟩
    refine ⟨x, r, [], ?_, rfl, rfl⟩
    rw [leftmost, Store.load_of h.1]
    rfl
  | node y a b iha _ =>
    obtain ⟨fuel, rfl⟩ : ∃ k, fuel = k + 1 := ⟨fuel - 1, by simp at hfuel; omega⟩
    have hle : (node y a b).height ≤ fuel := by
      simp only [height] at hfuel ⊢
      omega
    obtain ⟨v, w, q, hrun, htree, hq⟩ := iha fuel h.2.1 hle
    refine ⟨v, w, q ++ [⟨.left, x, r⟩], ?_, ?_, ?_⟩
    · rw [leftmost, Store.load_of h.1]
      exact hrun
    · rw [plug_append, ← htree]
      rfl
    · have key : ∀ q : Path Ptr, before (q ++ [⟨.left, x, r⟩]) = before q := by
        intro q
        induction q with
        | nil => rfl
        | cons c q ih =>
          rw [List.cons_append, before, before, ih]
      rw [key, hq]

/-- The end of the replacement of a node: the link at its parent. -/
def relink (m : AvlMem) (node victim : Ptr) (parent root : Option Ptr) :
    Exec (AvlMem × Option Ptr) :=
  match parent with
  | none => .ok (m, some victim)
  | some parent => do
    let link ← childLink m parent node
    let m ← setLink m link (some victim)
    .ok (m, root)

/-- `victim` takes the place of `node` in the tree, with its links, height and count. -/
theorem swapWith_rep {m : AvlMem} {x v : Ptr} {a b : BinaryTree Ptr} {q : Path Ptr}
    (h : Rep m none (plug (node x a b) q)) (hn : (plug (node x a b) q).inorder.Nodup)
    (hv : v ∉ (plug (node x a b) q).inorder) (halloc : ∃ c, m v = some c) :
    ∃ m', swapWith m x v (plug (node x a b) q).top = .ok (m', (plug (node v a b) q).top) ∧
      Rep m' none (plug (node v a b) q) ∧ Frame m m' (v :: (plug (node x a b) q).inorder) ∧
      m' x = m x := by
  obtain ⟨c, hc⟩ := halloc
  obtain ⟨⟨hx, hA, hB⟩, habove⟩ := rep_plug_iff.mp h
  obtain ⟨hn1, hn2, hd⟩ := nodup_plug.mp hn
  obtain ⟨hxa, hxb, hna, hnb, hab⟩ := nodup_nodeOn (s := .left).mp hn1
  have hda : ∀ y ∈ a.inorder, y ∉ spine q := fun y hy => hd y (by simp [hy])
  have hdb : ∀ y ∈ b.inorder, y ∉ spine q := fun y hy => hd y (by simp [hy])
  have hxq : x ∉ spine q := hd x (by simp)
  simp only [mem_inorder_plug, inorder_node, List.mem_append, List.mem_cons, not_or] at hv
  obtain ⟨⟨hva, hvx, hvb⟩, hvq⟩ := hv
  -- *victim = *node
  let m1 := m.write v (cellOf (above q) .left a b)
  have hf1 : Frame m m1 [v] := Frame.single _ _ _
  have habove1 : RepAbove m1 (node x a b) q :=
    habove.frame hf1 fun y hy he => hvq (List.mem_singleton.mp he ▸ hy)
  obtain ⟨m2, hrun2, hA2, hf2⟩ := setParent_rep (hA.frame_single hf1 hva) hna (some v)
  have hB2 : Rep m2 (some x) b :=
    (hB.frame_single hf1 hvb).frame hf2 fun y hy hya => hab y hya hy
  obtain ⟨m3, hrun3, hB3, hf3⟩ := setParent_rep hB2 hnb (some v)
  have hA3 : Rep m3 (some v) a := hA2.frame hf3 hab
  have hv3 : m3 v = some (cellOf (above q) .left a b) :=
    (hf3 v hvb).trans ((hf2 v hva).trans (Store.write_same _ _ _))
  have habove3 : RepAbove m3 (node x a b) q :=
    (habove1.frame hf2 fun y hy hya => hda y hya hy).frame hf3 fun y hy hyb => hdb y hyb hy
  have hf03 : Frame m m3 (v :: (plug (node x a b) q).inorder) := by
    refine ((hf1.mono ?_).trans (hf2.mono ?_)).trans (hf3.mono ?_)
    · simp
    · intro y hy
      simp [mem_inorder_plug, hy]
    · intro y hy
      simp [mem_inorder_plug, hy]
  have hx3 : m3 x = m x :=
    (hf3 x hxb).trans ((hf2 x hxa).trans (Store.write_other _ _ (Ne.symm hvx)))
  have hrun : swapWith m x v (plug (node x a b) q).top =
      relink m3 x v (above q) (plug (node x a b) q).top := by
    unfold swapWith
    rw [Store.load_of hx, ok_bind, Store.modify_of hc, ok_bind, cellOf_left, hrun2, ok_bind,
      cellOf_right, hrun3, ok_bind]
    rfl
  simp only [hrun, rep_plug_iff]
  cases q with
  | nil => exact ⟨m3, rfl, ⟨⟨hv3, hA3, hB3⟩, trivial⟩, hf03, hx3⟩
  | cons d q =>
    have hlink : childLink m3 d.value x = .ok (linkOf (d :: q)) :=
      incoming_rep (RepAbove.path habove3) hxq
    obtain ⟨m4, hrun4, habove4, hf4⟩ :=
      setLink_above (node v a b) habove3 hn2 rfl rfl
    refine ⟨m4, ?_, ⟨⟨?_, ?_, ?_⟩, habove4⟩, hf03.trans (hf4.mono fun y hy => ?_),
      (hf4 x hxq).trans hx3⟩
    · rw [above_cons, relink, hlink, ok_bind, show some v = (node v a b).top from rfl, hrun4,
        ok_bind, top_plug_cons (node x a b) (node v a b)]
    · exact (hf4 v hvq).trans hv3
    · exact hA3.frame hf4 hda
    · exact hB3.frame hf4 hdb
    · exact List.mem_cons_of_mem _ (mem_inorder_plug.mpr (Or.inr hy))

/-- What `avl_del` leaves of the represented tree `t`. -/
structure Deleted (m m' : AvlMem) (t t' : BinaryTree Ptr) (x : Ptr) : Prop where
  rep : Rep m' none t'
  balanced : t'.Balanced
  inorder : t'.inorder = t.inorder.erase x
  alloc : ∃ n, m' x = some n
  frame : Frame m m' t.inorder

/-- A node with at most one child. -/
theorem avlDel_easy (fuel : Nat) {m : AvlMem} {s : Side} {x : Ptr} {t : BinaryTree Ptr}
    {p : Path Ptr} (h : Rep m none (plug (nodeOn s x t .nil) p))
    (hn : (plug (nodeOn s x t .nil) p).inorder.Nodup)
    (hb : (plug (nodeOn s x t .nil) p).Balanced) (hfuel : p.length < fuel) :
    ∃ m' t', avlDelEasy fuel m x = .ok (m', t'.top) ∧
      Deleted m m' (plug (nodeOn s x t .nil) p) t' x ∧ m' x = m x := by
  obtain ⟨m', hrun, hrep, hf⟩ := avlDelEasy_rep h hn hfuel
  obtain ⟨hn1, hn2, hd⟩ := nodup_plug.mp hn
  obtain ⟨hxt, -, -⟩ := nodup_nodeOn.mp hn1
  obtain ⟨-, -, ht, -⟩ := balanced_nodeOn.mp (Balanced.of_plug hb)
  have hheight : (nodeOn s x t nil).height = t.height + 1 := by
    rw [height_nodeOn]
    simp
  have hxs : x ∉ spine p := hd x (mem_nodeOn.mpr (Or.inl rfl))
  have hxm : m' x = m x := hf x (by
    rw [mem_inorder_plug, not_or]
    exact ⟨hxt, hxs⟩)
  refine ⟨m', fixUp t p, hrun, ⟨hrep, balanced_fixUp hb ht (by omega) (by omega), ?_,
    hxm.symm ▸ h.alloc (mem_inorder_plug.mpr (Or.inl (mem_nodeOn.mpr (Or.inl rfl)))),
    hf.mono fun y hy => ?_⟩, hxm⟩
  · have hxp : x ∉ before p := fun hm => hxs (List.mem_append_left _ hm)
    rw [inorder_fixUp, inorder_plug, inorder_plug, List.append_assoc, List.append_assoc,
      List.erase_append_right _ hxp]
    congr 1
    cases s with
    | left =>
      rw [show nodeOn .left x t nil = node x t nil from rfl, inorder_node, List.append_assoc,
        List.erase_append_right _ hxt]
      simp
    | right => simp [nodeOn]
  · rw [mem_inorder_plug] at hy ⊢
    exact hy.imp_left fun hyt => mem_nodeOn.mpr (Or.inr (Or.inl hyt))

/-- Erasing the successor `v` of `x` and renaming `x` to `v` is erasing `x`. -/
theorem rename_erase {A B C D : List Ptr} {x v : Ptr} (hn : (A ++ x :: v :: B).Nodup)
    (h : C ++ x :: D = (A ++ x :: v :: B).erase v) :
    C ++ v :: D = (A ++ x :: v :: B).erase x := by
  obtain ⟨-, hxvB, hA⟩ := List.nodup_append.mp hn
  obtain ⟨hx, hvB⟩ := List.nodup_cons.mp hxvB
  have hvA : v ∉ A := fun hm => hA v hm v (by simp) rfl
  have hxA : x ∉ A := fun hm => hA x hm x (by simp) rfl
  have hxv : x ≠ v := fun he => hx (by simp [he])
  have hxB : x ∉ B := fun hm => hx (List.mem_cons_of_mem _ hm)
  rw [List.erase_append_right _ hvA, List.erase_cons_tail (by simpa using hxv),
    List.erase_cons_head] at h
  have hn' : (C ++ x :: D).Nodup := h ▸ hn.sublist (by simp)
  obtain ⟨-, hxD, hC⟩ := List.nodup_append.mp hn'
  have hxC : x ∉ C := fun hm => hC x hm x (by simp) rfl
  obtain ⟨rfl, -, rfl⟩ :=
    (List.append_cons_inj_of_notMem hxC (List.nodup_cons.mp hxD).1).mp h
  rw [List.erase_append_right _ hxA, List.erase_cons_head]

/-- A node with two children: its successor is detached, then takes its place. -/
theorem avlDel_two (fuel : Nat) {m : AvlMem} {x y : Ptr} {l c d : BinaryTree Ptr} {p : Path Ptr}
    (h : Rep m none (plug (node x l (node y c d)) p))
    (hn : (plug (node x l (node y c d)) p).inorder.Nodup)
    (hb : (plug (node x l (node y c d)) p).Balanced)
    (hfuel : (plug (node x l (node y c d)) p).height < fuel) :
    ∃ v m1 root m' t', leftmost m fuel y = .ok v ∧ avlDelEasy fuel m v = .ok (m1, root) ∧
      swapWith m1 x v root = .ok (m', t'.top) ∧
      Deleted m m' (plug (node x l (node y c d)) p) t' x := by
  obtain ⟨⟨hx, hL, hR⟩, habove⟩ := rep_plug_iff.mp h
  have hge := height_plug_ge (node x l (node y c d)) p
  obtain ⟨v, w, q, hrun1, htree, hq⟩ := leftmost_rep fuel hR (by
    have : (node y c d).height ≤ (node x l (node y c d)).height := by
      simp only [height]
      omega
    omega)
  -- The tree seen from the successor.
  have hT : plug (node x l (node y c d)) p =
      plug (nodeOn .right v w nil) (q ++ ⟨.right, x, l⟩ :: p) := by
    rw [plug_append, htree]
    rfl
  have hin : (plug (node x l (node y c d)) p).inorder =
      (before p ++ l.inorder) ++ x :: v :: (w.inorder ++ after q ++ after p) := by
    rw [inorder_plug, htree, inorder_node, inorder_plug, hq]
    simp
  generalize hTdef : plug (node x l (node y c d)) p = T at *
  rw [hT] at h hn hb hfuel
  have hge' := height_plug_ge (nodeOn .right v w nil) (q ++ ⟨.right, x, l⟩ :: p)
  obtain ⟨m1, t1, hrun2, ⟨hrep1, hb1, hin1, -, hf1⟩, hv1⟩ :=
    avlDel_easy fuel h hn hb (by omega)
  rw [← hT] at h hn hb hin1 hf1
  have hxv : x ≠ v := by
    rintro rfl
    rw [hin] at hn
    simp [List.nodup_append] at hn
  have hxT : x ∈ T.inorder := by simp [hin]
  have hvT : v ∈ T.inorder := by simp [hin]
  have hx1 : x ∈ t1.inorder := by
    rw [hin1]
    exact (List.mem_erase_of_ne hxv).mpr hxT
  obtain ⟨a, b, q1, rfl⟩ := exists_plug hx1
  have hvt1 : v ∉ (plug (node x a b) q1).inorder := by
    rw [hin1]
    exact hn.not_mem_erase
  obtain ⟨m2, hrun3, hrep2, hf2, hx2⟩ := swapWith_rep hrep1 (hin1 ▸ hn.erase v) hvt1
    (hv1.symm ▸ h.alloc hvT)
  refine ⟨v, m1, _, m2, plug (node v a b) q1, hrun1, hrun2, hrun3, hrep2,
    balanced_plug_congr (t := node x a b) (u := node v a b) rfl id hb1, ?_,
    hx2.symm ▸ hrep1.alloc hx1, hf1.trans (hf2.mono ?_)⟩
  · rw [hin] at hin1 hn ⊢
    rw [inorder_plug, inorder_node] at hin1 ⊢
    have := rename_erase (C := before q1 ++ a.inorder) (D := b.inorder ++ after q1) hn
      (by rw [← hin1]; simp)
    rw [← this]
    simp
  · intro z hz
    rcases List.mem_cons.mp hz with rfl | hz
    · exact hvT
    · exact List.mem_of_mem_erase (hin1 ▸ hz)

/-- `avl_del` removes exactly the node it is given. -/
theorem avlDel_rep (fuel : Nat) {m : AvlMem} {x : Ptr} {t : BinaryTree Ptr} (h : Rep m none t)
    (hn : t.inorder.Nodup) (hb : t.Balanced) (hx : x ∈ t.inorder) (hfuel : t.height < fuel) :
    ∃ m' t', avlDel fuel m x = .ok (m', t'.top) ∧ Deleted m m' t t' x := by
  obtain ⟨l, r, p, rfl⟩ := exists_plug hx
  have hge := height_plug_ge (node x l r) p
  have hcell := (rep_plug_iff.mp h).1.1
  unfold avlDel
  rw [Store.load_of hcell, ok_bind, cellOf_left, cellOf_right]
  cases l with
  | nil =>
    obtain ⟨m', t', hrun, hdel, -⟩ := avlDel_easy (s := .right) fuel h hn hb (by omega)
    exact ⟨m', t', hrun, hdel⟩
  | node z e f =>
    cases r with
    | nil =>
      obtain ⟨m', t', hrun, hdel, -⟩ := avlDel_easy (s := .left) fuel h hn hb (by omega)
      exact ⟨m', t', hrun, hdel⟩
    | node y c d =>
      obtain ⟨v, m1, root, m2, t', hrun1, hrun2, hrun3, hdel⟩ :=
        avlDel_two fuel h hn hb (by omega)
      refine ⟨m2, t', ?_, hdel⟩
      dsimp only [top_node]
      rw [hrun1, ok_bind, hrun2, ok_bind, hrun3]

/-! ## Attaching a leaf -/

/-- A new node at the end of a path, and the repair of its ancestors. -/
theorem avlFix_leaf {fuel : Nat} {m : AvlMem} {x : Ptr} {p : Path Ptr}
    (hx : m x = some { avlInit with parent := above p }) (hp : RepPath m (some x) p)
    (hn : (plug (node x nil nil) p).inorder.Nodup) (hb : (plug nil p).Balanced)
    (hfuel : p.length < fuel) :
    ∃ m' t', avlFix fuel m x = .ok (m', (t'.top).getD x) ∧ t'.top ≠ none ∧ Rep m' none t' ∧
      t'.Balanced ∧ t'.inorder = before p ++ x :: after p ∧
      Frame m m' (plug (node x nil nil) p).inorder := by
  have hstale : Stale m (above p) .left x nil nil := ⟨⟨_, _, hx⟩, trivial, trivial⟩
  obtain ⟨m', y, hrun, hrep, htop, hf⟩ := avlFix_rep fuel hstale hp hn hfuel
  have hleaf : rebalance (nodeOn .left x nil nil) = node x nil nil := rfl
  rw [hleaf] at hrep htop
  refine ⟨m', fixUp (node x nil nil) p, by rw [htop]; exact hrun, by simp [htop], hrep,
    balanced_fixUp hb ⟨by simp, by simp, trivial, trivial⟩ (by simp) (by simp), ?_, hf⟩
  rw [inorder_fixUp, inorder_plug]
  simp

end Greenis
