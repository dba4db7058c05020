/-
  What an update of a sorted set costs.

  The budget of a loop counts its iterations, so a loop that returns within a budget takes no more.
  In a tree of height h, a search goes down at most h nodes, `avl_fix` climbs at most h + 1, and
  `tree_dispose` is at most h calls deep. `treeInsertCounted` is `tree_insert` with the budgets of
  its two loops and the number of nodes that are rotated; an insertion rotates at one node at most
  (`avl_logarithmic`).
-/
import Greenis.Proofs.TreeRuns
import Greenis.Proofs.Zset

namespace Greenis
open CExec

/-- `avl_fix` with the number of nodes that are rotated: another node comes in their place. -/
def avlFixCounted : Nat → AvlMem → Ptr → Exec (AvlMem × Ptr × Nat)
  | 0, _, _ => .error .fuel
  | fuel + 1, m, node => do
    let (m, fixed, parent) ← fixStep m node
    let rotated := if fixed = node then 0 else 1
    match parent with
    | none => .ok (m, fixed, rotated)
    | some parent => do
      let (m, root, k) ← avlFixCounted fuel m parent
      .ok (m, root, rotated + k)

/-- `tree_insert` with a budget for the search and one for `avl_fix`, and the number of nodes that
    are rotated. -/
def treeInsertCounted (down up : Nat) (z : ZSet) (node : Ptr) : Exec (ZSet × Nat) := do
  let (parent, from') ← insertPoint z node down z.root none .local
  let tree ← setLink z.tree from' (some node)
  let tree ← tree.modify node fun n => { n with parent := parent }
  let (tree, root, k) ← avlFixCounted up tree node
  .ok ({ z with tree := tree, root := some root }, k)

open BinaryTree

/-! ## Rotations -/

/-- The root changes exactly where the tree is tilted. -/
theorem top_rebalance {x : Ptr} {l r : BinaryTree Ptr} (hn : (node x l r).inorder.Nodup) :
    (rebalance (node x l r)).top = some x ↔ (node x l r).tilted = false := by
  obtain ⟨hxl, hxr, -⟩ := nodup_nodeOn (s := .left).mp hn
  -- The new root is from the subtree on the taller side.
  have hother : ∀ s, ∀ t u : BinaryTree Ptr, x ∉ t.inorder → t.height = u.height + 2 →
      (fixTall s (nodeOn s x t u)).top ≠ some x := by
    intro s t u hx hheight htop
    obtain ⟨y, a, i, rfl⟩ := exists_nodeOn s (t := t) (by omega)
    rw [fixTall_nodeOn] at htop
    by_cases hc : a.height < i.height
    · obtain ⟨w, b, c, rfl⟩ := exists_nodeOn s (t := i) (by omega)
      rw [if_pos hc, rot_nodeOn, ← nodeOn_other s x, ← nodeOn_other s w, rot_nodeOn, top_nodeOn]
        at htop
      obtain rfl := Option.some.inj htop
      exact hx (mem_nodeOn.mpr (Or.inr (Or.inr (mem_nodeOn.mpr (Or.inl rfl)))))
    · rw [if_neg hc, ← nodeOn_other s x, ← nodeOn_other s y, rot_nodeOn, top_nodeOn] at htop
      obtain rfl := Option.some.inj htop
      exact hx (mem_nodeOn.mpr (Or.inl rfl))
  rw [rebalance_node, tilted, Bool.or_eq_false_iff]
  simp only [beq_eq_false_iff_ne]
  by_cases hL : l.height = r.height + 2
  · rw [if_pos hL]
    exact iff_of_false (hother .left l r hxl hL) fun h => h.1 hL
  · rw [if_neg hL]
    by_cases hR : l.height + 2 = r.height
    · rw [if_pos hR]
      exact iff_of_false (hother .right r l hxr hR.symm) fun h => h.2 hR
    · rw [if_neg hR]
      exact iff_of_true rfl ⟨hL, hR⟩

theorem rotated_eq {s : Side} {x y : Ptr} {t u : BinaryTree Ptr}
    (hn : (nodeOn s x t u).inorder.Nodup) (hy : (rebalance (nodeOn s x t u)).top = some y) :
    (if y = x then 0 else 1) = (nodeOn s x t u).tilted.toNat := by
  obtain ⟨l, r, hnode⟩ : ∃ l r, nodeOn s x t u = node x l r := by
    cases s with
    | left => exact ⟨t, u, rfl⟩
    | right => exact ⟨u, t, rfl⟩
  rw [hnode] at hn hy ⊢
  have hroot := top_rebalance hn
  rw [hy, Option.some.injEq] at hroot
  cases htilt : (node x l r).tilted with
  | false => rw [if_pos (hroot.mpr htilt), Bool.toNat_false]
  | true => rw [if_neg fun heq => by simp [hroot.mp heq] at htilt, Bool.toNat_true]

/-- `avl_fix` rotates where `fixUp` repairs. -/
theorem avlFixCounted_rep (fuel : Nat) {m : AvlMem} {s : Side} {x : Ptr} {t u : BinaryTree Ptr}
    {p : Path Ptr} (h : Stale m (above p) s x t u) (hp : RepPath m (some x) p)
    (hn : (plug (nodeOn s x t u) p).inorder.Nodup) (hfuel : p.length < fuel) :
    ∃ m' y, avlFix fuel m x = .ok (m', y) ∧ avlFixCounted fuel m x =
      .ok (m', y, (nodeOn s x t u).tilted.toNat + repairs (rebalance (nodeOn s x t u)) p) := by
  obtain ⟨fuel, rfl⟩ : ∃ k, fuel = k + 1 := ⟨fuel - 1, by omega⟩
  induction p generalizing fuel m s x t u with
  | nil =>
    obtain ⟨m1, y, hrun, -, htop, -⟩ := fixStep_rep h hp hn
    refine ⟨m1, y, ?_, ?_⟩
    · rw [avlFix, hrun]
      rfl
    · rw [avlFixCounted, hrun, ok_bind, ← rotated_eq hn htop]
      rfl
  | cons c p ih =>
    obtain ⟨m1, y, hrun, hrep, htop, ⟨hc, hs, hp1⟩, -⟩ := fixStep_rep h hp hn
    have hstale : Stale m1 (above p) c.side c.value (rebalance (nodeOn s x t u)) c.sib :=
      ⟨by rw [htop]; exact hc, hrep, hs⟩
    have hinorder : (plug (c.plug (rebalance (nodeOn s x t u))) p).inorder =
        (plug (nodeOn s x t u) (c :: p)).inorder := by
      rw [← plug_cons, inorder_plug, inorder_plug, inorder_rebalance]
    have hfuel' : p.length + 1 < fuel + 1 := hfuel
    obtain ⟨fuel, rfl⟩ : ∃ k, fuel = k + 1 := ⟨fuel - 1, by omega⟩
    obtain ⟨m2, z, hfix, hcount⟩ := ih hstale hp1 (hinorder.symm ▸ hn) fuel (by omega)
    have hrotated := rotated_eq (nodup_plug.mp hn).1 htop
    refine ⟨m2, z, ?_, ?_⟩
    · rw [avlFix, hrun]
      exact hfix
    · rw [avlFixCounted, hrun, ok_bind]
      dsimp only [above_cons]
      rw [hcount, ok_bind, hrotated]
      rfl

/-! ## Budgets -/

/-- A search needs no more than the height. -/
theorem seekgeLoop_fuel {z : ZSet} {t : BinaryTree Ptr} (hi : Ordered z t) {score : Double}
    (hs : score.isNaN = false) (name : Bytes) (found : Option Ptr) {s : BinaryTree Ptr}
    {par : Option Ptr} {fuel fuel' : Nat} (hrep : Rep z.tree par s)
    (hsub : ∀ q ∈ s.inorder, q ∈ t.inorder) (hfuel : s.height ≤ fuel) (hfuel' : s.height ≤ fuel') :
    seekgeLoop z score name fuel s.top found = seekgeLoop z score name fuel' s.top found ∧
      ∃ r, seekgeLoop z score name fuel s.top found = .ok r := by
  induction s generalizing par found fuel fuel' with
  | nil => cases fuel <;> cases fuel' <;> exact ⟨rfl, found, rfl⟩
  | node y l r ihl ihr =>
    obtain ⟨hy, hl, hr⟩ := hrep
    obtain ⟨fuel, rfl⟩ : ∃ k, fuel = k + 1 := ⟨fuel - 1, by simp only [height] at hfuel; omega⟩
    obtain ⟨fuel', rfl⟩ : ∃ k, fuel' = k + 1 := ⟨fuel' - 1, by simp only [height] at hfuel'; omega⟩
    simp only [height] at hfuel hfuel'
    rw [top_node, seekgeLoop, seekgeLoop, zlessKey_spec hi (hsub y (by simp)) hs, ok_bind, ok_bind,
      Store.load_of hy, ok_bind, ok_bind, cellOf_left, cellOf_right]
    split
    · exact ihr _ hr (fun q hq => hsub q (by simp [hq])) (by omega) (by omega)
    · exact ihl _ hl (fun q hq => hsub q (by simp [hq])) (by omega) (by omega)

/-- More calls than are made change nothing. -/
theorem treeDispose_mono {fuel fuel' : Nat} (hle : fuel ≤ fuel') (z : ZSet) (p : Option Ptr) :
    Below (treeDispose fuel z p) (treeDispose fuel' z p) := by
  induction fuel generalizing fuel' z p with
  | zero =>
    cases p with
    | none => cases fuel' <;> exact .refl _
    | some p => exact .error _ _
  | succ fuel ih =>
    obtain ⟨fuel', rfl⟩ : ∃ k, fuel' = k + 1 := ⟨fuel' - 1, by omega⟩
    have ih := ih (Nat.le_of_succ_le_succ hle)
    cases p with
    | none => exact .refl _
    | some p => exact .step fun n => (ih z n.left).bind fun z1 => .step fun n =>
        (ih z1 n.right).bind fun _ => .refl _

theorem avlFix_mono {fuel fuel' : Nat} (hle : fuel ≤ fuel') (m : AvlMem) (x : Ptr) :
    Below (avlFix fuel m x) (avlFix fuel' m x) := by
  induction fuel generalizing fuel' m x with
  | zero => exact .error _ _
  | succ fuel ih =>
    obtain ⟨fuel', rfl⟩ : ∃ k, fuel' = k + 1 := ⟨fuel' - 1, by omega⟩
    refine .step fun r => ?_
    obtain ⟨m1, fixed, parent⟩ := r
    cases parent with
    | none => exact .refl _
    | some parent => exact ih (Nat.le_of_succ_le_succ hle) m1 parent

theorem leftmost_mono {fuel fuel' : Nat} (hle : fuel ≤ fuel') (m : AvlMem) (x : Ptr) :
    Below (leftmost m fuel x) (leftmost m fuel' x) := by
  induction fuel generalizing fuel' x with
  | zero => exact .error _ _
  | succ fuel ih =>
    obtain ⟨fuel', rfl⟩ : ∃ k, fuel' = k + 1 := ⟨fuel' - 1, by omega⟩
    refine .step fun n => ?_
    cases n.left with
    | none => exact .refl _
    | some left => exact ih (Nat.le_of_succ_le_succ hle) left

theorem avlDelEasy_mono {fuel fuel' : Nat} (hle : fuel ≤ fuel') (m : AvlMem) (x : Ptr) :
    Below (avlDelEasy fuel m x) (avlDelEasy fuel' m x) := by
  refine .step fun n => .step fun _ => .step fun m1 => ?_
  cases n.parent with
  | none => exact .refl _
  | some parent => exact .step fun _ => .step fun m2 =>
      (avlFix_mono hle m2 parent).bind fun _ => .refl _

theorem avlDel_mono {fuel fuel' : Nat} (hle : fuel ≤ fuel') (m : AvlMem) (x : Ptr) :
    Below (avlDel fuel m x) (avlDel fuel' m x) := by
  refine .step fun n => ?_
  cases n.left with
  | none => exact avlDelEasy_mono hle m x
  | some left =>
    cases n.right with
    | none => exact avlDelEasy_mono hle m x
    | some right => exact (leftmost_mono hle m right).bind fun v =>
        (avlDelEasy_mono hle m v).bind fun _ => .refl _

/-! ## Insertion -/

/-- A new leaf at the end of the path of the search. -/
theorem treeInsertCounted_spec {z : ZSet} {t : BinaryTree Ptr} {x : Ptr} (hi : Ordered z t)
    (hx : Ready z t x) : ∃ z' k, treeInsertCounted t.height (t.height + 1) z x = .ok (z', k) ∧
      treeInsert z x = .ok z' ∧ k ≤ 1 := by
  set q := seek (z.upTo (z.keyAt x)) t [] with hq
  have hplug : plug nil q = t := plug_seek (z.upTo (z.keyAt x)) t []
  have hn : (plug nil q).inorder.Nodup := hplug ▸ hi.nodup
  have hnq : (spine q).Nodup := (nodup_plug.mp hn).2.1
  have hxq : x ∉ spine q := fun h => hx.out (hplug ▸ mem_inorder_plug.mpr (Or.inr h))
  have hlen : q.length ≤ t.height := by
    have := height_plug_ge nil q
    rw [hplug] at this
    omega
  have hfuel : t.height + 1 ≤ z.fuel := by
    have := hi.height_le
    unfold ZSet.fuel
    omega
  have hpath : RepPath z.tree none q :=
    (rep_plug_iff.mp (hplug.symm ▸ hi.rep : Rep z.tree none (plug nil q))).2.path
  have hsearch : ∀ fuel, t.height ≤ fuel →
      insertPoint z x fuel z.root none .local = .ok (above q, linkOf q) := fun fuel hle => by
    rw [hi.root]
    exact insertPoint_spec hx hi (p := []) hi.rep (fun _ h => h) hle
  obtain ⟨m1, hlink, hpath1, hf1⟩ := setLink_rep hpath hnq (some x)
  have hcell1 : m1 x = some avlInit := (hf1 x hxq).trans hx.cell
  have hpath2 : RepPath (m1.write x { avlInit with parent := above q }) (some x) q :=
    hpath1.frame (Frame.single _ _ _) fun y hy he => hxq (List.mem_singleton.mp he ▸ hy)
  have hstale : Stale (m1.write x { avlInit with parent := above q }) (above q) .left x nil nil :=
    ⟨⟨_, _, Store.write_same _ _ _⟩, trivial, trivial⟩
  have hleaf : (nodeOn .left x nil nil : BinaryTree Ptr).tilted = false := rfl
  obtain ⟨m2, y, hfix, hcount⟩ := avlFixCounted_rep (t.height + 1) hstale hpath2 (nodup_plug.mpr
    ⟨by simp [nodeOn], hnq, fun w hw => by
      rw [show w = x by simpa [nodeOn] using hw]
      exact hxq⟩) (Nat.lt_succ_of_le hlen)
  rw [hleaf, rebalance_of_not_tilted hleaf, Bool.toNat_false, Nat.zero_add] at hcount
  refine ⟨{ z with tree := m2, root := some y }, repairs (nodeOn .left x nil nil) q, ?_, ?_,
    repairs_grown nil (hplug ▸ hi.balanced) rfl (Or.inl (Nat.le_refl 1))⟩
  · rw [treeInsertCounted, hsearch _ (Nat.le_refl _), ok_bind]
    dsimp only
    rw [hlink, ok_bind, Store.modify_of hcell1, ok_bind, hcount]
    rfl
  · rw [treeInsert, hsearch _ (by omega), ok_bind]
    dsimp only
    rw [hlink, ok_bind, Store.modify_of hcell1, ok_bind, avlFix_mono hfuel _ _ _ hfix]
    rfl

/-! ## Runs -/

/-- **Every loop over a sorted set is logarithmic**, and an insertion rotates at one node at most. -/
theorem avl_logarithmic {z : ZSet} {ps : List Ptr} (h : TreeReached z ps) (hN : ps.length < 2 ^ 32) :
    ∃ t, AvlTree z t ∧ t.inorder.Perm ps ∧ Nat.fib (t.height + 2) ≤ ps.length + 1 ∧
      (∀ p name score, p ∉ ps → score.isNaN = false → ∃ z' k,
        treeInsertCounted t.height (t.height + 1) (z.place p name score) p = .ok (z', k) ∧
        treeInsert (z.place p name score) p = .ok z' ∧ k ≤ 1) ∧
      (∀ p ∈ ps, ∃ r, avlDel (t.height + 1) z.tree p = .ok r ∧ avlDel z.fuel z.tree p = .ok r) ∧
      (∀ score name, score.isNaN = false → ∃ found,
        seekgeLoop z score name t.height z.root none = .ok found ∧
        zsetSeekge z score name = .ok found) ∧
      ∃ z', treeDispose t.height z z.root = .ok z' ∧ treeDispose z.fuel z z.root = .ok z' := by
  obtain ⟨t, ht, hperm⟩ := h.ordered
  have hsize : t.numNodes = ps.length := by rw [← length_inorder, hperm.length_eq]
  have hfuel : t.height + 1 ≤ z.fuel := by
    have := ht.height_le
    unfold ZSet.fuel
    omega
  refine ⟨t, ht.avlTree (by omega), hperm, hsize ▸ ht.balanced.fib_le, fun p name score hp hs => ?_,
    fun p hp => ?_, fun score name hs => ?_, ?_⟩
  · obtain ⟨h1, hready⟩ := ht.place (fun hm => hp (hperm.subset hm)) name hs
    exact treeInsertCounted_spec h1 hready
  · obtain ⟨m', t', hrun, -⟩ := avlDel_rep (t.height + 1) ht.rep ht.nodup ht.balanced
      (hperm.mem_iff.mpr hp) (Nat.lt_succ_self _)
    exact ⟨_, hrun, avlDel_mono hfuel _ _ _ hrun⟩
  · obtain ⟨hsame, found, hrun⟩ := seekgeLoop_fuel ht hs name none ht.rep (fun _ hq => hq)
      (Nat.le_refl t.height) (Nat.le_of_succ_le hfuel)
    rw [← ht.root] at hsame hrun
    exact ⟨found, hrun, hsame.symm.trans hrun⟩
  · obtain ⟨z', hrun, -⟩ := treeDispose_spec t.height ht.rep ht.nodup
      (fun p hp => by rw [ht.node_at hp]; exact nofun) (Nat.le_refl _)
    rw [← ht.root] at hrun
    exact ⟨z', hrun, treeDispose_mono (Nat.le_of_succ_le hfuel) _ _ _ hrun⟩

/-- In a tree of six nodes: the insertion of a seventh rotates at one node, and a deletion, a search
    and the disposal get by with the height 3. -/
theorem avl_logarithmic_six : ∃ z z' : ZSet, [1, 2, 3, 4, 5, 6].foldlM insertNode {} = .ok z ∧
    treeInsertCounted 3 4 (z.place 7 [7] ⟨0⟩) 7 = .ok (z', 1) ∧ insertNode z 7 = .ok z' ∧
      (∃ r, avlDel 4 z.tree 4 = .ok r) ∧ seekgeLoop z ⟨0⟩ [3] 3 z.root none = .ok (some 3) ∧
      zsetSeekge z ⟨0⟩ [3] = .ok (some 3) ∧ ∃ z1, treeDispose 3 z z.root = .ok z1 := by
  obtain ⟨z, hrun, h⟩ := TreeReached.init.inserts [1, 2, 3, 4, 5, 6] (by decide) (by simp)
  have hsample : ([1, 2, 3, 4, 5, 6].foldlM insertNode {} >>= fun z =>
      avlHeight z.tree z.root >>= fun height =>
      treeInsertCounted 3 4 (z.place 7 [7] ⟨0⟩) 7 >>= fun r =>
      seekgeLoop z ⟨0⟩ [3] 3 z.root none >>= fun found => .ok (height, r.2, found) :
        Exec (Nat × Nat × Option Ptr)) = .ok (3, 1, some 3) := by
    decide +kernel
  rw [hrun, ok_bind] at hsample
  obtain ⟨height, hheight, hsample⟩ := bind_eq_ok.mp hsample
  obtain ⟨⟨z', k⟩, hcount, hsample⟩ := bind_eq_ok.mp hsample
  obtain ⟨found, hseek, hsample⟩ := bind_eq_ok.mp hsample
  simp only [Except.ok.injEq, Prod.mk.injEq] at hsample
  obtain ⟨rfl, rfl, rfl⟩ := hsample
  obtain ⟨t, htree, -, -, hinsert, hdelete, hfind, z1, hdispose, -⟩ :=
    avl_logarithmic h (by decide)
  rw [ok_unique htree.height_eq hheight] at hinsert hdelete hfind hdispose
  obtain ⟨z2, k, hcount', hins, -⟩ := hinsert 7 [7] ⟨0⟩ (by decide) (by decide)
  obtain ⟨rfl, rfl⟩ := Prod.mk.inj (ok_unique hcount hcount')
  obtain ⟨r, hdel, -⟩ := hdelete 4 (by decide)
  obtain ⟨found, hseek', hsame⟩ := hfind ⟨0⟩ [3] (by decide)
  obtain rfl := ok_unique hseek hseek'
  exact ⟨z, z', hrun, hcount, hins, ⟨r, hdel⟩, hseek, hsame, z1, hdispose⟩

end Greenis
