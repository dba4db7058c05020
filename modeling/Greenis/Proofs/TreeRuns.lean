/-
  Runs of insertions into an AVL tree and deletions from it.

  Nodes may have equal tuples here, and a node that was deleted may be initialised and inserted
  again. In every tree a run reaches the links, heights and counts are exact (`AvlTree`), each
  operation changes the in-order sequence at one place (`avl_tree_kept`), and `avl_offset` does the
  arithmetic of ranks (`avl_offset_exact`).
-/
import Greenis.Proofs.TreeIndex

namespace Greenis
open CExec BinaryTree

/-- The nodes of `t` are linked as `t` says, and carry its heights and sizes. -/
def Linked (m : AvlMem) (parent : Option Ptr) : BinaryTree Ptr → Prop
  | .nil => True
  | .node x l r =>
    (∃ n, m x = some n ∧ n.parent = parent ∧ n.left = l.top ∧ n.right = r.top ∧
      n.height = (node x l r).height ∧ n.cnt.toNat = (node x l r).numNodes) ∧
    Linked m (some x) l ∧ Linked m (some x) r

/-- Below 2^32 nodes, 32 bits hold every count. -/
theorem Rep.linked {m : AvlMem} {par : Option Ptr} {t : BinaryTree Ptr} (h : Rep m par t)
    (hN : t.numNodes < 2 ^ 32) : Linked m par t := by
  induction t generalizing par with
  | nil => trivial
  | node x l r ihl ihr =>
    obtain ⟨hx, hl, hr⟩ := h
    have hheight : (cellOf par .left l r).height = (node x l r).height := Nat.add_comm ..
    have hcnt : (cellOf par .left l r).cnt = UInt32.ofNat (node x l r).numNodes := cnt_node ..
    refine ⟨⟨_, hx, rfl, rfl, rfl, hheight, ?_⟩, ihl hl ?_, ihr hr ?_⟩
    · rw [hcnt, UInt32.toNat_ofNat', Nat.mod_eq_of_lt hN]
    · exact lt_of_le_of_lt (by simp only [numNodes]; omega) hN
    · exact lt_of_le_of_lt (by simp only [numNodes]; omega) hN

/-- The tree of `z` is the AVL tree `t`. -/
structure AvlTree (z : ZSet) (t : BinaryTree Ptr) : Prop where
  root : z.root = t.top
  linked : Linked z.tree none t
  nodup : t.inorder.Nodup
  balanced : t.Balanced
  sorted : t.inorder.Pairwise fun p q => z.keyAt p ≤ z.keyAt q

theorem Ordered.avlTree {z : ZSet} {t : BinaryTree Ptr} (h : Ordered z t)
    (hN : t.numNodes < 2 ^ 32) : AvlTree z t :=
  ⟨h.root, h.rep.linked hN, h.nodup, h.balanced, h.sorted⟩

/-- A node at the address `p`, with a new tree node. -/
def ZSet.place (z : ZSet) (p : Ptr) (name : Bytes) (score : Double) : ZSet :=
  { z with
      tree := z.tree.write p avlInit
      node := z.node.write p (ZNode.new name score)
      brk := max z.brk (p + 1) }

/-- The trees a run reaches, with the nodes that have been inserted and not deleted. -/
inductive TreeReached : ZSet → List Ptr → Prop
  | init : TreeReached {} []
  | insert {z z' : ZSet} {ps : List Ptr} (p : Ptr) (name : Bytes) (score : Double) :
      TreeReached z ps → p ∉ ps → score.isNaN = false →
      treeInsert (z.place p name score) p = .ok z' → TreeReached z' (p :: ps)
  | delete {z : ZSet} {ps : List Ptr} {p : Ptr} {tree : AvlMem} {root : Option Ptr} :
      TreeReached z ps → p ∈ ps → avlDel z.fuel z.tree p = .ok (tree, root) →
      TreeReached { z with tree := tree, root := root } (ps.erase p)

theorem Ordered.empty : Ordered {} .nil where
  root := rfl
  rep := trivial
  balanced := trivial
  nodup := List.nodup_nil
  sorted := List.Pairwise.nil
  data := by simp
  fresh := by simp

/-! ## Steps -/

/-- A node outside the tree can be initialised. -/
theorem Ordered.place {z : ZSet} {t : BinaryTree Ptr} (h : Ordered z t) {p : Ptr}
    (hp : p ∉ t.inorder) (name : Bytes) {score : Double} (hs : score.isNaN = false) :
    Ordered (z.place p name score) t ∧ Ready (z.place p name score) t p := by
  have hnode : ∀ q ∈ t.inorder, (z.place p name score).node q = z.node q := fun q hq =>
    Store.write_other _ _ fun he => hp (he ▸ hq)
  have hkey : ∀ q ∈ t.inorder, (z.place p name score).keyAt q = z.keyAt q := fun q hq => by
    unfold ZSet.keyAt ZSet.at
    rw [hnode q hq]
  refine ⟨⟨h.root, h.rep.frame_single (Frame.single _ _ _) hp, h.balanced, h.nodup, ?_, ?_, ?_⟩,
    ⟨hp, Store.write_same _ _ _, ⟨_, Store.write_same _ _ _, hs⟩, ?_⟩⟩
  · exact List.Pairwise.imp_of_mem (fun hq hr hle => by rwa [hkey _ hq, hkey _ hr]) h.sorted
  · intro q hq
    rw [hnode q hq]
    exact h.data q hq
  · intro q hq
    exact lt_max_of_lt_left (h.fresh q hq)
  · exact lt_max_of_lt_right (Nat.lt_succ_self p)

/-- Inserting a new node. -/
theorem Ordered.insert {z : ZSet} {t : BinaryTree Ptr} (h : Ordered z t) {p : Ptr}
    (hp : p ∉ t.inorder) (name : Bytes) {score : Double} (hs : score.isNaN = false) :
    ∃ z' t', treeInsert (z.place p name score) p = .ok z' ∧ Ordered z' t' ∧
      t'.inorder = t.inorder.filter (z.upTo (tupleKey score name)) ++
        p :: t.inorder.filter (fun q => !z.upTo (tupleKey score name) q) := by
  obtain ⟨h1, hready⟩ := h.place hp name hs
  obtain ⟨tree, t', hrun, h', hin⟩ := treeInsert_ordered h1 hready
  have hself : (z.place p name score).at p = ZNode.new name score :=
    ZSet.at_of (Store.write_same _ _ _)
  have hother : ∀ q ∈ t.inorder, (z.place p name score).at q = z.at q := fun q hq => by
    have hq' : (z.place p name score).node q = z.node q :=
      Store.write_other _ _ fun he => hp (he ▸ hq)
    unfold ZSet.at
    rw [hq']
  have hsame : ∀ q ∈ t.inorder, (z.place p name score).upTo ((z.place p name score).keyAt p) q =
      z.upTo (tupleKey score name) q := fun q hq => by
    unfold ZSet.upTo ZSet.keyAt
    rw [hself, hother q hq]
    rfl
  refine ⟨_, t', hrun, h', ?_⟩
  rw [hin, List.filter_congr hsame, List.filter_congr fun q hq => congrArg (!·) (hsame q hq)]

theorem inserted_perm {t t' : BinaryTree Ptr} {P : Ptr → Bool} {p : Ptr} {ps : List Ptr}
    (hperm : t.inorder.Perm ps)
    (hin : t'.inorder = t.inorder.filter P ++ p :: t.inorder.filter (fun q => !P q)) :
    t'.inorder.Perm (p :: ps) := by
  rw [hin]
  exact List.perm_middle.trans (((List.filter_append_perm P t.inorder).trans hperm).cons p)

/-- In every tree a run reaches are the nodes inserted and not deleted, in order. -/
theorem TreeReached.ordered {z : ZSet} {ps : List Ptr} (h : TreeReached z ps) :
    ∃ t, Ordered z t ∧ t.inorder.Perm ps := by
  induction h with
  | init => exact ⟨.nil, Ordered.empty, List.Perm.nil⟩
  | insert p name score _ hp hs hrun ih =>
    obtain ⟨t, ht, hperm⟩ := ih
    obtain ⟨z1, t', hrun', ht', hin⟩ := ht.insert (fun hm => hp (hperm.subset hm)) name hs
    cases ok_unique hrun' hrun
    exact ⟨t', ht', inserted_perm hperm hin⟩
  | delete _ hp hrun ih =>
    obtain ⟨t, ht, hperm⟩ := ih
    obtain ⟨tree, t', hrun', ht', hin, -⟩ := avlDel_ordered ht (hperm.mem_iff.mpr hp)
    cases ok_unique hrun' hrun
    exact ⟨t', ht', hin ▸ hperm.erase _⟩

/-! ## Runs -/

/-- **Insertion and deletion keep the AVL tree.** -/
theorem avl_tree_kept {z : ZSet} {ps : List Ptr} (h : TreeReached z ps) (hN : ps.length < 2 ^ 32) :
    ∃ t, AvlTree z t ∧ t.inorder.Perm ps ∧
      (∀ p name score, p ∉ ps → score.isNaN = false →
        ∃ z' t', treeInsert (z.place p name score) p = .ok z' ∧
          (ps.length + 1 < 2 ^ 32 → AvlTree z' t') ∧
          t'.inorder = t.inorder.filter (z.upTo (tupleKey score name)) ++
            p :: t.inorder.filter (fun q => !z.upTo (tupleKey score name) q)) ∧
      ∀ p ∈ ps, ∃ tree t', avlDel z.fuel z.tree p = .ok (tree, t'.top) ∧
        AvlTree { z with tree := tree, root := t'.top } t' ∧
        t'.inorder = t.inorder.erase p := by
  obtain ⟨t, ht, hperm⟩ := h.ordered
  have hsize : t.numNodes = ps.length := by rw [← length_inorder, hperm.length_eq]
  refine ⟨t, ht.avlTree (by omega), hperm, fun p name score hp hs => ?_, fun p hp => ?_⟩
  · obtain ⟨z', t', hrun, ht', hin⟩ := ht.insert (fun hm => hp (hperm.subset hm)) name hs
    refine ⟨z', t', hrun, fun hN' => ht'.avlTree ?_, hin⟩
    rw [← length_inorder, (inserted_perm hperm hin).length_eq]
    exact hN'
  · obtain ⟨tree, t', hrun, ht', hin, -⟩ := avlDel_ordered ht (hperm.mem_iff.mpr hp)
    refine ⟨tree, t', hrun, ht'.avlTree ?_, hin⟩
    rw [← length_inorder, hin]
    exact lt_of_le_of_lt List.length_erase_le (by rw [length_inorder]; omega)

/-- The listing by tuples, where they differ. -/
theorem AvlTree.inorder_eq {z : ZSet} {t : BinaryTree Ptr} (h : AvlTree z t) {ps : List Ptr}
    (hperm : t.inorder.Perm ps) (hps : ps.Pairwise fun p q => z.keyAt p < z.keyAt q) :
    t.inorder = ps := by
  have hkeys : (ps.map z.keyAt).Nodup := List.pairwise_map.mpr (hps.imp ne_of_lt)
  exact hperm.eq_of_pairwise (fun p q hp hq hpq hqp =>
    List.inj_on_of_nodup_map hkeys (hperm.mem_iff.mp hp) hq (le_antisymm hpq hqp)) h.sorted
    (hps.imp le_of_lt)

/-- `tree_insert` for a new node at the address `p`, which is its name too. -/
def insertNode (z : ZSet) (p : Ptr) : Exec ZSet := treeInsert (z.place p [p.toUInt8] ⟨0⟩) p

/-- Inserting one node after another. -/
theorem TreeReached.inserts {z : ZSet} {ps : List Ptr} (h : TreeReached z ps) (qs : List Ptr)
    (hnodup : qs.Nodup) (hnew : ∀ q ∈ qs, q ∉ ps) :
    ∃ z', qs.foldlM insertNode z = .ok z' ∧ TreeReached z' (qs.reverse ++ ps) := by
  induction qs generalizing z ps with
  | nil => exact ⟨z, rfl, h⟩
  | cons q qs ih =>
    obtain ⟨hq, hnodup⟩ := List.nodup_cons.mp hnodup
    have hqps := hnew q List.mem_cons_self
    obtain ⟨t, ht, hperm⟩ := h.ordered
    obtain ⟨z1, -, hrun, -⟩ := ht.insert (fun hm => hqps (hperm.subset hm)) [q.toUInt8]
      (show Binary64.isNaN ⟨0⟩ = false by decide)
    obtain ⟨z2, hrun2, h2⟩ := ih (h.insert q _ _ hqps (by decide) hrun) hnodup fun p hp hin =>
      (List.mem_cons.mp hin).elim (fun heq => hq (heq ▸ hp)) (hnew p (List.mem_cons_of_mem q hp))
    refine ⟨z2, by rw [List.foldlM_cons, insertNode, hrun]; exact hrun2, ?_⟩
    rw [List.reverse_cons, List.append_assoc]
    exact h2

/-- The nodes 1 to 7 are inserted in this order: rotations bring the node 4 up to the root. -/
theorem exists_seven : ∃ z, [1, 2, 3, 4, 5, 6, 7].foldlM insertNode {} = .ok z ∧
    TreeReached z [7, 6, 5, 4, 3, 2, 1] ∧ z.root = some 4 ∧ avlHeight z.tree z.root = .ok 3 ∧
    [1, 2, 3, 4, 5, 6, 7].Pairwise fun p q => z.keyAt p < z.keyAt q := by
  obtain ⟨z, hrun, h⟩ := TreeReached.init.inserts [1, 2, 3, 4, 5, 6, 7] (by decide) (by simp)
  have hsample : ([1, 2, 3, 4, 5, 6, 7].foldlM insertNode {} >>= fun z =>
      avlHeight z.tree z.root >>= fun height => .ok (z.root, height,
        [1, 2, 3, 4, 5, 6, 7].map fun p => ((z.at p).score, (z.at p).name)) :
          Exec (Option Ptr × Nat × List (Double × Bytes))) =
      .ok (some 4, 3, [1, 2, 3, 4, 5, 6, 7].map fun p => (⟨0⟩, [p.toUInt8])) := by
    decide +kernel
  rw [hrun, ok_bind] at hsample
  obtain ⟨height, hheight, hsample⟩ := bind_eq_ok.mp hsample
  simp only [Except.ok.injEq, Prod.mk.injEq] at hsample
  obtain ⟨hroot, rfl, hnodes⟩ := hsample
  have hkey : ∀ p ∈ [1, 2, 3, 4, 5, 6, 7], z.keyAt p = tupleKey ⟨0⟩ [p.toUInt8] := fun p hp => by
    obtain ⟨hscore, hname⟩ := Prod.mk.inj (List.map_inj_left.mp hnodes p hp)
    rw [ZSet.keyAt, ZNode.key, hscore, hname]
  have hnames : [1, 2, 3, 4, 5, 6, 7].Pairwise fun p q : Nat =>
      byteKey [p.toUInt8] < byteKey [q.toUInt8] := by decide
  refine ⟨z, hrun, h, hroot, hheight, hnames.imp_of_mem fun hp hq hlt => ?_⟩
  rw [hkey _ hp, hkey _ hq]
  exact tupleKey_lt.mpr (Or.inr ⟨rfl, hlt⟩)

/-- Of the seven nodes the root is deleted, and its successor, the node 5, takes its place. -/
theorem avl_tree_kept_seven : ∃ (z : ZSet) (tree : AvlMem) (t t' : BinaryTree Ptr),
    [1, 2, 3, 4, 5, 6, 7].foldlM insertNode {} = .ok z ∧ z.root = some 4 ∧ AvlTree z t ∧
      t.inorder = [1, 2, 3, 4, 5, 6, 7] ∧ avlDel z.fuel z.tree 4 = .ok (tree, some 5) ∧
      AvlTree { z with tree := tree, root := some 5 } t' ∧ t'.inorder = [1, 2, 3, 5, 6, 7] := by
  obtain ⟨z, hrun, h, hroot, -, hsorted⟩ := exists_seven
  have hsample : ([1, 2, 3, 4, 5, 6, 7].foldlM insertNode {} >>= fun z =>
      avlDel z.fuel z.tree 4 >>= fun r => .ok r.2 : Exec (Option Ptr)) = .ok (some 5) := by
    decide +kernel
  rw [hrun, ok_bind] at hsample
  obtain ⟨t, ht, hperm, -, hdelete⟩ := avl_tree_kept h (by decide)
  obtain ⟨tree, t', hdel, ht', hin⟩ := hdelete 4 (by decide)
  rw [hdel, ok_bind, Except.ok.injEq] at hsample
  rw [show t'.top = some 5 from hsample] at hdel ht'
  have hlist := ht.inorder_eq (hperm.trans (by decide)) hsorted
  rw [hlist] at hin
  exact ⟨z, tree, t, t', hrun, hroot, ht, hlist, hdel, ht', hin⟩

/-- **`avl_offset` finds the node of rank `i + offset`**, or returns null if there is none. -/
theorem avl_offset_exact {z : ZSet} {ps : List Ptr} (h : TreeReached z ps)
    (hN : ps.length < 2 ^ 32) :
    ∃ t, AvlTree z t ∧ t.inorder.Perm ps ∧
      ∀ (i : Nat) (x : Ptr), t.inorder[i]? = some x → ∀ offset : Int64,
        (∀ k : Nat, i + offset.toInt = k → k < ps.length →
          ∃ y, t.inorder[k]? = some y ∧ avlOffset z.fuel z.tree x offset.toInt = .ok (some y)) ∧
        (i + offset.toInt < 0 ∨ ps.length ≤ i + offset.toInt →
          avlOffset z.fuel z.tree x offset.toInt = .ok none) := by
  obtain ⟨t, ht, hperm⟩ := h.ordered
  have hsize : t.numNodes = ps.length := by rw [← length_inorder, hperm.length_eq]
  refine ⟨t, ht.avlTree (by omega), hperm, fun i x hx offset => ?_⟩
  have hfuel : 2 * t.height ≤ z.fuel + 1 := by
    have := ht.height_le
    unfold ZSet.fuel
    omega
  rw [avlOffset_rep ht.rep ht.nodup (by omega) hx hfuel]
  refine ⟨fun k hk hlt => ?_, ?_⟩
  · have hlt' : k < t.inorder.length := by rw [length_inorder]; omega
    rw [hk, if_pos (Int.natCast_nonneg k), Int.toNat_natCast]
    exact ⟨_, List.getElem?_eq_getElem hlt', by rw [List.getElem?_eq_getElem hlt']⟩
  · rintro (hneg | hge)
    · rw [if_neg (by omega)]
    · have hnone : t.inorder[(i + offset.toInt).toNat]? = none :=
        List.getElem?_eq_none (by rw [length_inorder]; omega)
      rw [hnone, ite_self]

/-- Between the leaves of seven nodes: up to the root and down again, in both directions, and out of
    the tree. -/
theorem avl_offset_exact_seven : ∃ z, [1, 2, 3, 4, 5, 6, 7].foldlM insertNode {} = .ok z ∧
    avlOffset z.fuel z.tree 1 4 = .ok (some 5) ∧ avlOffset z.fuel z.tree 7 (-4) = .ok (some 3) ∧
      avlOffset z.fuel z.tree 3 Int64.maxValue.toInt = .ok none ∧
      avlOffset z.fuel z.tree 3 Int64.minValue.toInt = .ok none := by
  obtain ⟨z, hrun, h, -, -, hsorted⟩ := exists_seven
  obtain ⟨t, ht, hperm, hoffset⟩ := avl_offset_exact h (by decide)
  have hlist := ht.inorder_eq (hperm.trans (by decide)) hsorted
  rw [hlist] at hoffset
  obtain ⟨y, hy, hup⟩ := (hoffset 0 1 rfl 4).1 4 rfl (by decide)
  obtain ⟨y', hy', hdown⟩ := (hoffset 6 7 rfl (-4)).1 2 rfl (by decide)
  obtain rfl : 5 = y := Option.some.inj hy
  obtain rfl : 3 = y' := Option.some.inj hy'
  exact ⟨z, hrun, hup, hdown, (hoffset 2 3 rfl Int64.maxValue).2 (Or.inr (by decide)),
    (hoffset 2 3 rfl Int64.minValue).2 (Or.inl (by decide))⟩

theorem AvlTree.height_eq {z : ZSet} {t : BinaryTree Ptr} (h : AvlTree z t) :
    avlHeight z.tree z.root = .ok t.height := by
  rw [h.root]
  cases t with
  | nil => rfl
  | node x l r =>
    obtain ⟨⟨n, hx, -, -, -, hheight, -⟩, -, -⟩ := h.linked
    rw [top_node, avlHeight, Store.load_of hx, ok_bind, hheight]

/-- **`avl_offset` takes at most twice the height in iterations**, first up and then down, and the
    height is logarithmic. -/
theorem avl_offset_logarithmic {z : ZSet} {ps : List Ptr} (h : TreeReached z ps)
    (hN : ps.length < 2 ^ 32) :
    ∃ t, AvlTree z t ∧ t.inorder.Perm ps ∧ avlHeight z.tree z.root = .ok t.height ∧
      Nat.fib (t.height + 2) - 1 ≤ ps.length ∧
      ∀ x ∈ ps, ∀ offset : Int64, ∃ found moves,
        offsetTrace z.tree offset.toInt (2 * t.height) x 0 = .ok (found, moves) ∧
        avlOffset (2 * t.height) z.tree x offset.toInt = .ok found ∧
        moves.length ≤ 2 * t.height ∧
        moves.Pairwise fun a b => a = .child → b ≠ .parent := by
  obtain ⟨t, ht, hperm⟩ := h.ordered
  have hsize : t.numNodes = ps.length := by rw [← length_inorder, hperm.length_eq]
  have htree := ht.avlTree (by omega)
  have hfib := ht.balanced.fib_le
  refine ⟨t, htree, hperm, htree.height_eq, by omega, fun x hx offset => ?_⟩
  obtain ⟨i, hi⟩ := List.mem_iff_getElem?.mp (hperm.mem_iff.mpr hx)
  obtain ⟨moves, hrun, hup, hlen⟩ :=
    offsetTrace_root (2 * t.height) ht.rep ht.nodup (by omega) hi (Nat.le_succ _)
  refine ⟨_, moves, hrun, ?_, hlen.le, hup⟩
  rw [avlOffset, offsetLoop_eq, hrun, ok_bind]

/-- From one leaf of seven nodes to another: twice up, and twice down. -/
theorem avl_offset_logarithmic_seven : ∃ (z : ZSet) (moves : List Move),
    [1, 2, 3, 4, 5, 6, 7].foldlM insertNode {} = .ok z ∧
      offsetTrace z.tree 4 6 1 0 = .ok (some 5, moves) ∧
      moves = [.parent, .parent, .child, .child] ∧ avlOffset 6 z.tree 1 4 = .ok (some 5) ∧
      moves.length ≤ 6 ∧ moves.Pairwise fun a b => a = .child → b ≠ .parent := by
  obtain ⟨z, hrun, h, -, hthree, -⟩ := exists_seven
  have hsample : ([1, 2, 3, 4, 5, 6, 7].foldlM insertNode {} >>= fun z =>
      offsetTrace z.tree 4 6 1 0 : Exec (Option Ptr × List Move)) =
      .ok (some 5, [.parent, .parent, .child, .child]) := by
    decide +kernel
  rw [hrun, ok_bind] at hsample
  obtain ⟨t, -, -, hheight, -, hcost⟩ := avl_offset_logarithmic h (by decide)
  obtain ⟨found, moves, htrace, hfound, hlen, hup⟩ := hcost 1 (by decide) 4
  rw [ok_unique hheight hthree] at htrace hfound hlen
  obtain ⟨rfl, rfl⟩ := Prod.mk.inj (ok_unique htrace hsample)
  exact ⟨z, _, hrun, htrace, rfl, hfound, hlen, hup⟩

end Greenis
