/-
  The AVL tree of a sorted set, on its own.

  `Ordered z t` says that the AVL tree of `z` is the balanced tree `t`, sorted by (score, name); here
  several nodes may have one tuple. `tree_insert` puts a node behind all nodes that are not greater
  (`treeInsert_ordered`), and `avl_del` removes one node (`avlDel_ordered`).
-/
import Mathlib.Data.List.Perm.Subperm
import Greenis.Lib.SearchTree
import Greenis.Proofs.AvlOffset
import Greenis.Proofs.ZsetOrder

namespace Greenis
open CExec BinaryTree

/-- The data of a node. -/
def ZSet.at (z : ZSet) (p : Ptr) : ZNode := (z.node p).getD default

def ZSet.keyAt (z : ZSet) (p : Ptr) : ℤ ×ₗ List Nat := (z.at p).key

theorem ZSet.at_of {z : ZSet} {p : Ptr} {zn : ZNode} (h : z.node p = some zn) : z.at p = zn := by
  simp [ZSet.at, h]

structure Ordered (z : ZSet) (t : BinaryTree Ptr) : Prop where
  root : z.root = t.top
  rep : Rep z.tree none t
  balanced : t.Balanced
  nodup : t.inorder.Nodup
  sorted : t.inorder.Pairwise fun p q => z.keyAt p ≤ z.keyAt q
  data : ∀ p ∈ t.inorder, ∃ zn, z.node p = some zn ∧ zn.score.isNaN = false
  fresh : ∀ p ∈ t.inorder, p < z.brk

theorem length_le_of_lt {xs : List Nat} (hn : xs.Nodup) {k : Nat} (h : ∀ x ∈ xs, x < k) :
    xs.length ≤ k := by
  have hsub : xs ⊆ List.range k := fun x hx => List.mem_range.mpr (h x hx)
  have := (List.Nodup.subperm hn hsub).length_le
  rwa [List.length_range] at this

theorem Ordered.numNodes_le {z : ZSet} {t : BinaryTree Ptr} (h : Ordered z t) :
    t.numNodes ≤ z.brk := by
  rw [← length_inorder]
  exact length_le_of_lt h.nodup h.fresh

theorem Ordered.height_le {z : ZSet} {t : BinaryTree Ptr} (h : Ordered z t) : t.height ≤ z.brk :=
  (height_le_numNodes t).trans h.numNodes_le

theorem Ordered.node_at {z : ZSet} {t : BinaryTree Ptr} (h : Ordered z t) {p : Ptr}
    (hp : p ∈ t.inorder) : z.node p = some (z.at p) := by
  obtain ⟨zn, hzn, -⟩ := h.data p hp
  rw [hzn, ZSet.at_of hzn]

theorem Ordered.score_at {z : ZSet} {t : BinaryTree Ptr} (h : Ordered z t) {p : Ptr}
    (hp : p ∈ t.inorder) : (z.at p).score.isNaN = false := by
  obtain ⟨zn, hzn, hnan⟩ := h.data p hp
  rw [ZSet.at_of hzn]
  exact hnan

theorem zlessKey_spec {z : ZSet} {t : BinaryTree Ptr} (h : Ordered z t) {p : Ptr}
    (hp : p ∈ t.inorder) {score : Double} (hs : score.isNaN = false) (name : Bytes) :
    zlessKey z p score name = .ok (decide (z.keyAt p < tupleKey score name)) := by
  unfold zlessKey
  rw [Store.load_of (h.node_at hp), ok_bind, zless_spec name (h.score_at hp) hs]
  rfl

/-- Is the tuple of the node not greater? The question an insertion asks. -/
def ZSet.upTo (z : ZSet) (k : ℤ ×ₗ List Nat) (p : Ptr) : Bool := decide (z.keyAt p ≤ k)

theorem Ordered.split {z : ZSet} {t : BinaryTree Ptr} (h : Ordered z t) (k : ℤ ×ₗ List Nat) :
    Split (z.upTo k) t.inorder :=
  Split.of_sorted h.sorted fun x _ y _ hle hy => by
    simp only [ZSet.upTo, decide_eq_true_iff] at hy ⊢
    exact hle.trans hy

/-! ## Insertion -/

/-- The node `x` is ready to be inserted: it is allocated and not in the tree. -/
structure Ready (z : ZSet) (t : BinaryTree Ptr) (x : Ptr) : Prop where
  out : x ∉ t.inorder
  cell : z.tree x = some avlInit
  data : ∃ zn, z.node x = some zn ∧ zn.score.isNaN = false
  fresh : x < z.brk

/-- The search goes left exactly at the nodes that `x` comes before. -/
theorem insertPoint_spec {z : ZSet} {t : BinaryTree Ptr} {x : Ptr} (hx : Ready z t x)
    (hi : Ordered z t) {s : BinaryTree Ptr} {p : Path Ptr} {fuel : Nat}
    (hs : Rep z.tree (above p) s) (hsub : ∀ q ∈ s.inorder, q ∈ t.inorder)
    (hfuel : s.height ≤ fuel) :
    insertPoint z x fuel s.top (above p) (linkOf p) =
      .ok (above (seek (z.upTo (z.keyAt x)) s p), linkOf (seek (z.upTo (z.keyAt x)) s p)) := by
  induction s generalizing p fuel with
  | nil => cases fuel <;> rfl
  | node y l r ihl ihr =>
    obtain ⟨hy, hl, hr⟩ := hs
    obtain ⟨fuel, rfl⟩ : ∃ k, fuel = k + 1 := ⟨fuel - 1, by simp only [height] at hfuel; omega⟩
    simp only [height] at hfuel
    have hyt : y ∈ t.inorder := hsub y (by simp)
    obtain ⟨zx, hzx, hnan⟩ := hx.data
    have hless : zlessNode z x y = .ok (decide (z.keyAt x < z.keyAt y)) := by
      unfold zlessNode zlessKey
      rw [Store.load_of (hi.node_at hyt), ok_bind, Store.load_of hzx, ok_bind,
        zless_spec _ hnan (hi.score_at hyt), ZSet.keyAt, ZSet.at_of hzx]
      rfl
    rw [top_node, insertPoint, hless, ok_bind, Store.load_of hy, ok_bind]
    unfold seek
    by_cases hle : z.keyAt y ≤ z.keyAt x
    · have hP : z.upTo (z.keyAt x) y = true := decide_eq_true hle
      rw [if_pos hP, decide_eq_false (not_lt_of_ge hle)]
      exact ihr (p := ⟨.right, y, l⟩ :: p) hr (fun q hq => hsub q (by simp [hq])) (by omega)
    · have hP : ¬ z.upTo (z.keyAt x) y = true := by simpa [ZSet.upTo] using hle
      rw [if_neg hP, decide_eq_true (not_le.mp hle)]
      exact ihl (p := ⟨.left, y, r⟩ :: p) hl (fun q hq => hsub q (by simp [hq])) (by omega)

/-- `tree_insert` puts the node at its place in the order. -/
theorem treeInsert_ordered {z : ZSet} {t : BinaryTree Ptr} {x : Ptr} (hi : Ordered z t)
    (hx : Ready z t x) :
    ∃ tree t', treeInsert z x = .ok { z with tree := tree, root := t'.top } ∧
      Ordered { z with tree := tree, root := t'.top } t' ∧
      t'.inorder = t.inorder.filter (z.upTo (z.keyAt x)) ++
        x :: t.inorder.filter (fun p => !z.upTo (z.keyAt x) p) := by
  set P := z.upTo (z.keyAt x) with hPdef
  set q := seek P t [] with hq
  have hplug : plug nil q = t := plug_seek P t []
  have hsplit : Split P t.inorder := hi.split (z.keyAt x)
  have hbefore : before q = t.inorder.filter P := by
    rw [hq, before_seek hsplit]
    rfl
  have hafter : after q = t.inorder.filter (fun p => !P p) := by
    rw [hq, after_seek hsplit]
    simp [after]
  have hspine : ∀ y, y ∈ spine q ↔ y ∈ t.inorder := fun y => by
    rw [← hplug, mem_inorder_plug]
    simp
  have hn : (plug nil q).inorder.Nodup := hplug ▸ hi.nodup
  have hnq : (spine q).Nodup := (nodup_plug.mp hn).2.1
  have hxq : x ∉ spine q := fun h => hx.out ((hspine x).mp h)
  have hn' : (plug (node x nil nil) q).inorder.Nodup :=
    nodup_plug.mpr ⟨by simp, hnq, fun y hy => by
      rw [show y = x by simpa using hy]
      exact hxq⟩
  have hlen : q.length < z.fuel := by
    have h1 := length_le_spine q
    have h2 := hi.numNodes_le
    have h3 := numNodes_plug nil q
    rw [hplug] at h3
    simp only [spine, List.length_append] at h1
    unfold ZSet.fuel
    omega
  have hpath : RepPath z.tree none q := by
    have := (rep_plug_iff.mp (hplug.symm ▸ hi.rep : Rep z.tree none (plug nil q))).2.path
    exact this
  -- the search, and the two assignments that attach the node
  have hrun1 : insertPoint z x z.fuel z.root none .local = .ok (above q, linkOf q) := by
    rw [hi.root]
    exact insertPoint_spec hx hi (p := []) hi.rep (fun _ h => h) (by
      have := hi.height_le
      unfold ZSet.fuel
      omega)
  obtain ⟨m1, hrun2, hpath1, hf1⟩ := setLink_rep hpath hnq (some x)
  have hcell1 : m1 x = some avlInit := (hf1 x hxq).trans hx.cell
  set m2 := m1.write x { avlInit with parent := above q } with hm2
  have hf2 : Frame m1 m2 [x] := Frame.single _ _ _
  have hpath2 : RepPath m2 (some x) q :=
    hpath1.frame hf2 fun y hy he => hxq (List.mem_singleton.mp he ▸ hy)
  obtain ⟨m3, t', hrun3, htop, hrep, hbal, hin, hf3⟩ :=
    avlFix_leaf (Store.write_same _ _ _) hpath2 hn' (hplug ▸ hi.balanced) hlen
  have hin' : t'.inorder = t.inorder.filter P ++ x :: t.inorder.filter (fun p => !P p) := by
    rw [hin, hbefore, hafter]
  have hperm : t'.inorder.Perm (x :: t.inorder) := by
    rw [hin']
    exact List.perm_middle.trans (List.Perm.cons x (List.filter_append_perm P t.inorder))
  have hmem : ∀ y, y ∈ t'.inorder ↔ y = x ∨ y ∈ t.inorder := fun y => by
    rw [hperm.mem_iff, List.mem_cons]
  refine ⟨m3, t', ?_, ⟨rfl, hrep, hbal, ?_, ?_, ?_, ?_⟩, hin'⟩
  · unfold treeInsert
    rw [hrun1, ok_bind]
    dsimp only
    rw [hrun2, ok_bind, Store.modify_of hcell1, ok_bind, hrun3]
    cases htop' : t'.top with
    | none => exact absurd htop' htop
    | some y => rfl
  · exact hperm.nodup_iff.mpr (List.nodup_cons.mpr ⟨hx.out, hi.nodup⟩)
  · rw [hin']
    have hbelow : ∀ y ∈ t.inorder.filter P, z.keyAt y ≤ z.keyAt x := fun y hy => by
      simpa [hPdef, ZSet.upTo] using (List.mem_filter.mp hy).2
    have habove : ∀ y ∈ t.inorder.filter (fun p => !P p), z.keyAt x ≤ z.keyAt y := fun y hy => by
      have : z.keyAt x < z.keyAt y := by
        simpa [hPdef, ZSet.upTo] using (List.mem_filter.mp hy).2
      exact this.le
    refine List.pairwise_append.mpr ⟨hi.sorted.filter _, List.pairwise_cons.mpr
      ⟨habove, hi.sorted.filter _⟩, fun y hy w hw => ?_⟩
    rcases List.mem_cons.mp hw with rfl | hw
    · exact hbelow y hy
    · exact (hbelow y hy).trans (habove w hw)
  · intro y hy
    rcases (hmem y).mp hy with rfl | hy
    · exact hx.data
    · exact hi.data y hy
  · intro y hy
    rcases (hmem y).mp hy with rfl | hy
    · exact hx.fresh
    · exact hi.fresh y hy

/-! ## Deletion -/

theorem avlDel_ordered {z : ZSet} {t : BinaryTree Ptr} {p : Ptr} (hi : Ordered z t)
    (hp : p ∈ t.inorder) :
    ∃ tree t', avlDel z.fuel z.tree p = .ok (tree, t'.top) ∧
      Ordered { z with tree := tree, root := t'.top } t' ∧ t'.inorder = t.inorder.erase p ∧
      ∃ n, tree p = some n := by
  obtain ⟨tree, t', hrun, hdel⟩ := avlDel_rep z.fuel hi.rep hi.nodup hi.balanced hp (by
    have := hi.height_le
    unfold ZSet.fuel
    omega)
  have hmem : ∀ q ∈ t'.inorder, q ∈ t.inorder := fun q hq =>
    List.mem_of_mem_erase (hdel.inorder ▸ hq)
  refine ⟨tree, t', hrun, ⟨rfl, hdel.rep, hdel.balanced, ?_, ?_, fun q hq => hi.data q (hmem q hq),
    fun q hq => hi.fresh q (hmem q hq)⟩, hdel.inorder, hdel.alloc⟩
  · rw [hdel.inorder]
    exact hi.nodup.sublist List.erase_sublist
  · rw [hdel.inorder]
    exact hi.sorted.sublist List.erase_sublist

/-- `znode_offset` from the node of rank `i` finds the node of rank `i + offset`. -/
theorem znodeOffset_ordered {z : ZSet} {t : BinaryTree Ptr} (hi : Ordered z t)
    (hN : t.numNodes < 2 ^ 32) (i : Nat) (offset : Int) :
    znodeOffset z t.inorder[i]? offset =
      .ok (if i < t.numNodes ∧ 0 ≤ i + offset then t.inorder[(i + offset).toNat]? else none) := by
  by_cases hlt : i < t.numNodes
  · have hx : ∃ x, t.inorder[i]? = some x :=
      ⟨_, List.getElem?_eq_getElem (length_inorder t ▸ hlt)⟩
    obtain ⟨x, hx⟩ := hx
    have hfuel : 2 * t.height ≤ z.fuel + 1 := by
      have := hi.height_le
      unfold ZSet.fuel
      omega
    rw [hx]
    dsimp only [znodeOffset]
    rw [avlOffset_rep hi.rep hi.nodup hN hx hfuel]
    simp [hlt]
  · rw [List.getElem?_eq_none (by rw [length_inorder]; omega), if_neg (by tauto)]
    rfl

end Greenis
