/-
  The two indexes of a sorted set agree.

  `Indexed z t` says that the AVL tree of `z` is the balanced tree `t`, sorted by (score, name).
  `ZInv z t` adds the other index: the hash map holds one node for each node of `t`, and no two of
  them have one name. Every operation returns and keeps `ZInv`; what it does to the nodes is said
  on `t` and their data.
-/
import Greenis.Proofs.HashTable
import Greenis.Proofs.TreeIndex

namespace Greenis
open CExec BinaryTree

/-! ## The tree index -/

structure Indexed (z : ZSet) (t : BinaryTree Ptr) : Prop where
  root : z.root = t.top
  rep : Rep z.tree none t
  balanced : t.Balanced
  sorted : t.inorder.Pairwise fun p q => z.keyAt p < z.keyAt q
  data : ∀ p ∈ t.inorder, ∃ zn, z.node p = some zn ∧ zn.score.isNaN = false
  fresh : ∀ p ∈ t.inorder, p < z.brk

theorem Indexed.nodup {z : ZSet} {t : BinaryTree Ptr} (h : Indexed z t) : t.inorder.Nodup :=
  h.sorted.imp fun hlt he => absurd hlt (by rw [he]; exact lt_irrefl _)

theorem Indexed.ordered {z : ZSet} {t : BinaryTree Ptr} (h : Indexed z t) : Ordered z t :=
  ⟨h.root, h.rep, h.balanced, h.nodup, h.sorted.imp fun hlt => le_of_lt hlt, h.data, h.fresh⟩

/-- An ordered tree in which no tuple occurs twice. -/
theorem Ordered.indexed {z : ZSet} {t : BinaryTree Ptr} (h : Ordered z t)
    (hne : ∀ p ∈ t.inorder, ∀ q ∈ t.inorder, p ≠ q → z.keyAt p ≠ z.keyAt q) : Indexed z t :=
  ⟨h.root, h.rep, h.balanced, List.Pairwise.imp_of_mem (fun hp hq hpq =>
    lt_of_le_of_ne hpq.1 (hne _ hp _ hq hpq.2)) (h.sorted.and h.nodup), h.data, h.fresh⟩

theorem Indexed.key_ne {z : ZSet} {t : BinaryTree Ptr} (h : Indexed z t) {p q : Ptr}
    (hp : p ∈ t.inorder) (hq : q ∈ t.inorder) (hpq : p ≠ q) : z.keyAt p ≠ z.keyAt q := by
  have hn : (t.inorder.map z.keyAt).Nodup :=
    List.pairwise_map.mpr (h.sorted.imp fun hlt => ne_of_lt hlt)
  exact fun he => hpq (List.inj_on_of_nodup_map hn hp hq he)

theorem Indexed.numNodes_le {z : ZSet} {t : BinaryTree Ptr} (h : Indexed z t) :
    t.numNodes ≤ z.brk := h.ordered.numNodes_le

theorem Indexed.height_le {z : ZSet} {t : BinaryTree Ptr} (h : Indexed z t) : t.height ≤ z.brk :=
  h.ordered.height_le

theorem Indexed.node_at {z : ZSet} {t : BinaryTree Ptr} (h : Indexed z t) {p : Ptr}
    (hp : p ∈ t.inorder) : z.node p = some (z.at p) := h.ordered.node_at hp

theorem Indexed.score_at {z : ZSet} {t : BinaryTree Ptr} (h : Indexed z t) {p : Ptr}
    (hp : p ∈ t.inorder) : (z.at p).score.isNaN = false := h.ordered.score_at hp

/-- Does the node come before the tuple? The question a search in the tree asks. -/
def ZSet.before (z : ZSet) (k : ℤ ×ₗ List Nat) (p : Ptr) : Bool := decide (z.keyAt p < k)

theorem Indexed.split {z : ZSet} {t : BinaryTree Ptr} (h : Indexed z t) (k : ℤ ×ₗ List Nat) :
    Split (z.before k) t.inorder :=
  Split.of_sorted h.sorted fun x _ y _ hlt hy => by
    simp only [ZSet.before, decide_eq_true_iff] at hy ⊢
    exact hlt.trans hy

/-! ## Insertion into the tree -/

/-- The node `x` is ready to be inserted: it is allocated and not in the tree. -/
structure Pending (z : ZSet) (t : BinaryTree Ptr) (x : Ptr) : Prop where
  out : x ∉ t.inorder
  cell : z.tree x = some avlInit
  data : ∃ zn, z.node x = some zn ∧ zn.score.isNaN = false
  fresh : x < z.brk
  new : ∀ p ∈ t.inorder, z.keyAt p ≠ z.keyAt x

/-- `tree_insert` puts the node at its place in the order. -/
theorem treeInsert_spec {z : ZSet} {t : BinaryTree Ptr} {x : Ptr} (hi : Indexed z t)
    (hx : Pending z t x) :
    ∃ tree t', treeInsert z x = .ok { z with tree := tree, root := t'.top } ∧
      Indexed { z with tree := tree, root := t'.top } t' ∧
      t'.inorder = t.inorder.filter (z.before (z.keyAt x)) ++
        x :: t.inorder.filter (fun p => !z.before (z.keyAt x) p) := by
  obtain ⟨tree, t', hrun, h', hin⟩ :=
    treeInsert_ordered hi.ordered ⟨hx.out, hx.cell, hx.data, hx.fresh⟩
  -- No node has the tuple of `x`, so that not greater is less.
  have hsame : ∀ p ∈ t.inorder, z.upTo (z.keyAt x) p = z.before (z.keyAt x) p := fun p hp =>
    decide_eq_decide.mpr ⟨fun hle => lt_of_le_of_ne hle (hx.new p hp), le_of_lt⟩
  rw [List.filter_congr hsame, List.filter_congr fun p hp => congrArg (!·) (hsame p hp)] at hin
  have hmem : ∀ y ∈ t'.inorder, y = x ∨ y ∈ t.inorder := fun y hy => by
    rw [hin, List.mem_append, List.mem_cons, List.mem_filter, List.mem_filter] at hy
    rcases hy with hy | hy | hy
    · exact Or.inr hy.1
    · exact Or.inl hy
    · exact Or.inr hy.1
  refine ⟨tree, t', hrun, h'.indexed fun p hp q hq hpq => ?_, hin⟩
  rcases hmem p hp with rfl | hp
  · rcases hmem q hq with rfl | hq
    · exact absurd rfl hpq
    · exact (hx.new q hq).symm
  · rcases hmem q hq with rfl | hq
    · exact hx.new p hp
    · exact hi.key_ne hp hq hpq

theorem Indexed.of_node {z : ZSet} {t : BinaryTree Ptr} (h : Indexed z t) {node : Store ZNode}
    (hsame : ∀ p ∈ t.inorder, node p = z.node p) : Indexed { z with node := node } t := by
  have hat : ∀ p ∈ t.inorder, ({ z with node := node } : ZSet).keyAt p = z.keyAt p := fun p hp => by
    simp only [ZSet.keyAt, ZSet.at, hsame p hp]
  refine ⟨h.root, h.rep, h.balanced, ?_, fun p hp => ?_, h.fresh⟩
  · exact h.sorted.imp_of_mem fun hp hq hlt => by rw [hat _ hp, hat _ hq]; exact hlt
  · rw [show ({ z with node := node } : ZSet).node p = z.node p from hsame p hp]
    exact h.data p hp

/-- `avl_del` on the tree index. -/
theorem avlDel_indexed {z : ZSet} {t : BinaryTree Ptr} {p : Ptr} (hi : Indexed z t)
    (hp : p ∈ t.inorder) :
    ∃ tree t', avlDel z.fuel z.tree p = .ok (tree, t'.top) ∧
      Indexed { z with tree := tree, root := t'.top } t' ∧ t'.inorder = t.inorder.erase p ∧
      ∃ n, tree p = some n := by
  obtain ⟨tree, t', hrun, h', hin, hcell⟩ := avlDel_ordered hi.ordered hp
  refine ⟨tree, t', hrun, h'.indexed fun p hp q hq hpq => ?_, hin, hcell⟩
  exact hi.key_ne (List.mem_of_mem_erase (hin ▸ hp)) (List.mem_of_mem_erase (hin ▸ hq)) hpq

/-! ## Both indexes -/

/-- The hash table node of a `ZNode`. -/
def ZSet.hnode (z : ZSet) (p : Ptr) : HNode Ptr := ⟨p, (z.at p).hcode⟩

structure ZInv (z : ZSet) (t : BinaryTree Ptr) : Prop extends Indexed z t where
  alloc : ∀ p, z.node p ≠ none → p ∈ t.inorder
  hashed : ∀ p ∈ t.inorder, (z.at p).hcode = strHash (z.at p).name
  names : ∀ p ∈ t.inorder, ∀ q ∈ t.inorder, (z.at p).name = (z.at q).name → p = q
  hmap : z.hmap.Inv
  nodes : z.hmap.nodes.Perm (t.inorder.map z.hnode)

theorem ZInv.empty : ZInv {} .nil where
  root := rfl
  rep := trivial
  balanced := trivial
  sorted := List.Pairwise.nil
  data := by simp
  fresh := by simp
  alloc := fun p hp => absurd rfl hp
  hashed := by simp
  names := by simp
  hmap := HMap.Inv.empty
  nodes := List.Perm.nil

/-- The nodes of the tree are those that are allocated. -/
theorem ZInv.mem_inorder {z : ZSet} {t : BinaryTree Ptr} (h : ZInv z t) {p : Ptr} :
    p ∈ t.inorder ↔ z.node p ≠ none := by
  refine ⟨fun hp => ?_, h.alloc p⟩
  rw [h.node_at hp]
  exact nofun

/-- The comparison of names decides on every stored node. -/
theorem ZInv.decides {z : ZSet} {t : BinaryTree Ptr} (h : ZInv z t) (name : Bytes)
    (hcode : UInt64) :
    Decides (hcmp z name) (fun n => (z.at n.owner).name = name) hcode z.hmap.nodes := by
  intro n hn _
  obtain ⟨p, hp, rfl⟩ := List.mem_map.mp (h.nodes.mem_iff.mp hn)
  have hload : z.node.load (z.hnode p).owner = .ok (z.at p) := Store.load_of (h.node_at hp)
  unfold hcmp
  rw [hload, ok_bind]
  by_cases hlen : (z.at p).name.length = name.length
  · obtain ⟨r, hrun, hr⟩ := memcmp_same _ _ hlen
    refine ⟨r == 0, ?_, ?_⟩
    · rw [if_neg (by simpa using hlen), hrun]
      rfl
    · rw [beq_iff_eq]
      exact hr
  · refine ⟨false, if_pos hlen, ?_⟩
    simp only [Bool.false_eq_true, false_iff]
    exact fun he => hlen (congrArg List.length he)

/-- What a lookup by name answers. -/
def Named (z : ZSet) (t : BinaryTree Ptr) (name : Bytes) : Option Ptr → Prop
  | some p => p ∈ t.inorder ∧ (z.at p).name = name
  | none => ∀ p ∈ t.inorder, (z.at p).name ≠ name

theorem named_of_answer {z : ZSet} {t : BinaryTree Ptr} (h : ZInv z t) {name : Bytes}
    {r : Option (HNode Ptr)}
    (ha : Answer z.hmap.nodes (fun n => (z.at n.owner).name = name) (strHash name) r) :
    Named z t name (r.map HNode.owner) := by
  cases r with
  | some n =>
    obtain ⟨p, hp, rfl⟩ := List.mem_map.mp (h.nodes.mem_iff.mp ha.1)
    exact ⟨hp, ha.2.2⟩
  | none =>
    intro p hp hname
    have hmem : z.hnode p ∈ z.hmap.nodes := h.nodes.mem_iff.mpr (List.mem_map_of_mem hp)
    exact ha _ hmem (by rw [ZSet.hnode, h.hashed p hp, hname]) hname

theorem zsetLookup_spec {z : ZSet} {t : BinaryTree Ptr} (h : ZInv z t) (name : Bytes) :
    ∃ hmap r, zsetLookup z name = .ok ({ z with hmap := hmap }, r) ∧
      ZInv { z with hmap := hmap } t ∧ Named z t name r := by
  unfold zsetLookup
  by_cases hroot : z.root.isNone
  · rw [if_pos hroot]
    refine ⟨z.hmap, none, rfl, h, fun p hp => ?_⟩
    cases t with
    | nil => cases hp
    | node x l r =>
      rw [h.root] at hroot
      cases hroot
  · rw [if_neg hroot]
    obtain ⟨hmap, r, hrun, hmig, ha⟩ := hmLookup_spec h.hmap (h.decides name (strHash name))
    rw [hrun]
    exact ⟨hmap, r.map HNode.owner, rfl,
      { h with hmap := hmig.inv, nodes := hmig.perm.trans h.nodes }, named_of_answer h ha⟩

/-- What `zset_update` does to the node `p`. -/
structure Updated (z z' : ZSet) (t t' : BinaryTree Ptr) (p : Ptr) (score : Double) : Prop where
  inv : ZInv z' t'
  mem : ∀ q, q ∈ t'.inorder ↔ q ∈ t.inorder
  other : ∀ q, q ≠ p → z'.at q = z.at q
  name : (z'.at p).name = (z.at p).name
  score : (z'.at p).score = if (z.at p).score.eq score then (z.at p).score else score

theorem zsetUpdate_spec {z : ZSet} {t : BinaryTree Ptr} {p : Ptr} {score : Double} (h : ZInv z t)
    (hp : p ∈ t.inorder) (hs : score.isNaN = false) :
    ∃ z' t', zsetUpdate z p score = .ok z' ∧ Updated z z' t t' p score := by
  have hnode := h.node_at hp
  unfold zsetUpdate
  rw [Store.load_of hnode, ok_bind]
  by_cases heq : (z.at p).score.eq score
  · rw [if_pos heq]
    exact ⟨z, t, rfl, h, fun _ => Iff.rfl, fun _ _ => rfl, rfl, (if_pos heq).symm⟩
  · obtain ⟨tree, t1, hrun1, hi1, hin1, n, hn⟩ := avlDel_indexed h.toIndexed hp
    have hp1 : p ∉ t1.inorder := by
      rw [hin1]
      exact h.nodup.not_mem_erase
    have hmem1 : ∀ q, q ∈ t1.inorder ↔ q ≠ p ∧ q ∈ t.inorder := fun q => by
      rw [hin1]
      exact h.nodup.mem_erase_iff
    -- The detached node, with its new score, is ready to be inserted.
    let zn : ZNode := { z.at p with score := score }
    let tree2 := tree.write p avlInit
    let z2 : ZSet := { z with tree := tree2, root := t1.top, node := z.node.write p zn }
    have hframe : Frame tree tree2 [p] := Frame.single _ _ _
    have hi2 : Indexed z2 t1 :=
      Indexed.of_node (z := { z with tree := tree2, root := t1.top })
        ⟨hi1.root, hi1.rep.frame_single hframe hp1, hi1.balanced, hi1.sorted, hi1.data, hi1.fresh⟩
        fun q hq => Store.write_other _ _ ((hmem1 q).mp hq).1
    have hat : ∀ q, q ≠ p → z2.at q = z.at q := fun q hq => by
      simp only [ZSet.at, z2, Store.write_other _ _ hq]
    have hatp : z2.at p = zn := ZSet.at_of (Store.write_same _ _ _)
    have hpend : Pending z2 t1 p := by
      refine ⟨hp1, Store.write_same _ _ _, ⟨zn, Store.write_same _ _ _, hs⟩, h.fresh p hp, ?_⟩
      intro q hq hkey
      obtain ⟨hqp, hqt⟩ := (hmem1 q).mp hq
      have hname := tupleKey_name hkey
      rw [hat q hqp, hatp] at hname
      exact hqp (h.names q hqt p hp hname)
    obtain ⟨tree3, t3, hrun3, hi3, hin3⟩ := treeInsert_spec hi2 hpend
    have hmem3 : ∀ q, q ∈ t3.inorder ↔ q ∈ t.inorder := fun q => by
      rw [hin3, List.mem_append, List.mem_cons, List.mem_filter, List.mem_filter, hmem1]
      by_cases hqp : q = p
      · simp [hqp, hp]
      · cases z2.before (z2.keyAt p) q <;> simp [hqp]
    have hat3 : ∀ q, ({ z2 with tree := tree3, root := t3.top } : ZSet).at q = z2.at q :=
      fun _ => rfl
    have hcode : ∀ q, (z2.at q).hcode = (z.at q).hcode := fun q => by
      by_cases hqp : q = p
      · rw [hqp, hatp]
      · rw [hat q hqp]
    have hname : ∀ q, (z2.at q).name = (z.at q).name := fun q => by
      by_cases hqp : q = p
      · rw [hqp, hatp]
      · rw [hat q hqp]
    refine ⟨{ z2 with tree := tree3, root := t3.top }, t3, ?_, ⟨⟨hi3, fun q hq => ?_,
      fun q hq => ?_, fun q hq r hr he => ?_, h.hmap, ?_⟩, hmem3, hat, hname p, ?_⟩⟩
    · rw [if_neg heq, hrun1, ok_bind]
      dsimp only
      rw [Store.modify_of hn, ok_bind, Store.modify_of hnode, ok_bind]
      exact hrun3
    · rw [hmem3]
      by_cases hqp : q = p
      · rw [hqp]
        exact hp
      · refine h.alloc q ?_
        rw [← Store.write_other z.node zn hqp]
        exact hq
    · rw [hat3, hcode, hname]
      exact h.hashed q ((hmem3 q).mp hq)
    · rw [hat3, hat3, hname, hname] at he
      exact h.names q ((hmem3 q).mp hq) r ((hmem3 r).mp hr) he
    · have hperm : t.inorder.Perm t3.inorder :=
        (List.perm_ext_iff_of_nodup h.nodup hi3.nodup).mpr fun q => (hmem3 q).symm
      have hmap : t.inorder.map z.hnode =
          t.inorder.map ({ z2 with tree := tree3, root := t3.top } : ZSet).hnode :=
        List.map_congr_left fun q _ => by rw [ZSet.hnode, ZSet.hnode, hat3, hcode]
      exact (hmap ▸ h.nodes).trans (hperm.map _)
    · rw [hat3, hatp, if_neg heq]

/-- What adding a tuple with a new name does: there is one node more, at `p`. -/
structure Added (z z' : ZSet) (t t' : BinaryTree Ptr) (p : Ptr) (name : Bytes) (score : Double) :
    Prop where
  inv : ZInv z' t'
  new : p ∉ t.inorder
  mem : ∀ q, q ∈ t'.inorder ↔ q = p ∨ q ∈ t.inorder
  other : ∀ q ∈ t.inorder, z'.at q = z.at q
  data : z'.at p = ZNode.new name score

theorem zsetAdd_spec {z : ZSet} {t : BinaryTree Ptr} {name : Bytes} {score : Double}
    (h : ZInv z t) (hs : score.isNaN = false) (hname : ∀ p ∈ t.inorder, (z.at p).name ≠ name) :
    ∃ hmap z' t', hmInsert z.hmap ⟨z.brk, strHash name⟩ = .ok hmap ∧
      treeInsert { (znodeNew z name score).1 with hmap := hmap } z.brk = .ok z' ∧
      Added z z' t t' z.brk name score := by
  have hnew : z.brk ∉ t.inorder := fun hm => lt_irrefl _ (h.fresh _ hm)
  have hne : ∀ q ∈ t.inorder, q ≠ z.brk := fun q hq he => hnew (he ▸ hq)
  obtain ⟨hmap, hrun, hinv, hperm⟩ := hmInsert_spec h.hmap ⟨z.brk, strHash name⟩
  set z1 : ZSet := { (znodeNew z name score).1 with hmap := hmap } with hz1
  have hat : ∀ q ∈ t.inorder, z1.at q = z.at q := fun q hq => by
    simp only [ZSet.at, hz1, znodeNew, Store.write_other _ _ (hne q hq)]
  have hatnew : z1.at z.brk = ZNode.new name score := ZSet.at_of (Store.write_same _ _ _)
  have hi1 : Indexed z1 t := by
    refine ⟨h.root, h.rep.frame_single (Frame.single _ _ _) hnew, h.balanced, ?_, fun q hq => ?_,
      fun q hq => Nat.lt_succ_of_lt (h.fresh q hq)⟩
    · exact h.sorted.imp_of_mem fun hp hq hlt => by
        simp only [ZSet.keyAt, hat _ hp, hat _ hq]
        exact hlt
    · rw [show z1.node q = z.node q from Store.write_other _ _ (hne q hq)]
      exact h.data q hq
  have hpend : Pending z1 t z.brk := by
    refine ⟨hnew, Store.write_same _ _ _, ⟨_, Store.write_same _ _ _, hs⟩, Nat.lt_succ_self _, ?_⟩
    intro q hq hkey
    have hq' := tupleKey_name hkey
    rw [hat q hq, hatnew] at hq'
    exact hname q hq hq'
  obtain ⟨tree, t', hrun', hi', hin'⟩ := treeInsert_spec hi1 hpend
  have hmem : ∀ q, q ∈ t'.inorder ↔ q = z.brk ∨ q ∈ t.inorder := fun q => by
    rw [hin', List.mem_append, List.mem_cons, List.mem_filter, List.mem_filter]
    cases z1.before (z1.keyAt z.brk) q <;> simp
    tauto
  set z2 : ZSet := { z1 with tree := tree, root := t'.top } with hz2
  have hat2 : ∀ q, z2.at q = z1.at q := fun _ => rfl
  refine ⟨hmap, z2, t', hrun, hrun', ⟨hi', fun q hq => ?_, fun q hq => ?_, fun q hq r hr he => ?_,
    hinv, ?_⟩, hnew, hmem, hat, hatnew⟩
  · rw [hmem]
    by_cases hqn : q = z.brk
    · exact Or.inl hqn
    · refine Or.inr (h.alloc q ?_)
      rw [← Store.write_other z.node (ZNode.new name score) hqn]
      exact hq
  · rw [hat2]
    rcases (hmem q).mp hq with rfl | hq
    · rw [hatnew]
      rfl
    · rw [hat q hq]
      exact h.hashed q hq
  · rw [hat2, hat2] at he
    rcases (hmem q).mp hq with hq | hq <;> rcases (hmem r).mp hr with hr | hr
    · rw [hq, hr]
    · rw [hq, hatnew, hat r hr] at he
      exact absurd he.symm (hname r hr)
    · rw [hr, hatnew, hat q hq] at he
      exact absurd he (hname q hq)
    · rw [hat q hq, hat r hr] at he
      exact h.names q hq r hr he
  · have hperm' : (z.brk :: t.inorder).Perm t'.inorder :=
      (List.perm_ext_iff_of_nodup (List.nodup_cons.mpr ⟨hnew, h.nodup⟩) hi'.nodup).mpr fun q => by
        rw [hmem, List.mem_cons]
    have hmap : (⟨z.brk, strHash name⟩ :: t.inorder.map z.hnode) =
        (z.brk :: t.inorder).map z2.hnode := by
      rw [List.map_cons, ZSet.hnode, hat2, hatnew]
      congr 1
      exact List.map_congr_left fun q hq => by rw [ZSet.hnode, ZSet.hnode, hat2, hat q hq]
    exact (hperm.trans (h.nodes.cons _)).trans (hmap ▸ hperm'.map _)

/-- `zset_insert` updates the node of that name, or adds one and returns true. -/
theorem zsetInsert_spec {z : ZSet} {t : BinaryTree Ptr} (h : ZInv z t) (name : Bytes)
    {score : Double} (hs : score.isNaN = false) :
    ∃ z' t' b, zsetInsert z name score = .ok (z', b) ∧
      ((b = false ∧ ∃ p ∈ t.inorder, (z.at p).name = name ∧ Updated z z' t t' p score) ∨
        (b = true ∧ (∀ p ∈ t.inorder, (z.at p).name ≠ name) ∧
          ∃ p, Added z z' t t' p name score)) := by
  obtain ⟨hmap, r, hrun, hinv, hnamed⟩ := zsetLookup_spec h name
  unfold zsetInsert
  rw [hrun, ok_bind]
  cases r with
  | some p =>
    obtain ⟨z', t', hrun', hup⟩ := zsetUpdate_spec hinv hnamed.1 hs
    refine ⟨z', t', false, ?_, Or.inl ⟨rfl, p, hnamed.1, hnamed.2, hup.inv, hup.mem, hup.other,
      hup.name, hup.score⟩⟩
    dsimp only
    rw [hrun', ok_bind]
  | none =>
    obtain ⟨hmap', z', t', hrun1, hrun2, hadd⟩ := zsetAdd_spec hinv hs hnamed
    refine ⟨z', t', true, ?_, Or.inr ⟨rfl, hnamed, z.brk, hadd.inv, hadd.new, hadd.mem,
      hadd.other, hadd.data⟩⟩
    dsimp only [znodeNew] at hrun2 ⊢
    rw [Store.load_of (Store.write_same _ _ _), ok_bind, show (ZNode.new name score).hcode =
      strHash name from rfl, hrun1, ok_bind, hrun2, ok_bind]

/-- What `zset_delete` does: the node `p` is gone, and freed. -/
structure Dropped (z z' : ZSet) (t t' : BinaryTree Ptr) (p : Ptr) : Prop where
  inv : ZInv z' t'
  mem : ∀ q, q ∈ t'.inorder ↔ q ≠ p ∧ q ∈ t.inorder
  other : ∀ q, q ≠ p → z'.at q = z.at q
  freed : z'.node p = none

theorem zsetDelete_spec {z : ZSet} {t : BinaryTree Ptr} {p : Ptr} (h : ZInv z t)
    (hp : p ∈ t.inorder) :
    ∃ z' t', zsetDelete z p = .ok z' ∧ Dropped z z' t t' p := by
  have hnode := h.node_at hp
  obtain ⟨hmap, r, hrun, hinv, ha, hrem⟩ :=
    hmDelete_spec h.hmap (h.decides (z.at p).name (z.at p).hcode)
  -- The node found is the one of `p`: no other node has its name.
  have hfound : r = some (z.hnode p) := by
    cases r with
    | some n =>
      obtain ⟨q, hq, rfl⟩ := List.mem_map.mp (h.nodes.mem_iff.mp ha.1)
      rw [h.names q hq p hp ha.2.2]
    | none =>
      exact absurd rfl (ha (z.hnode p) (h.nodes.mem_iff.mpr (List.mem_map_of_mem hp)) rfl)
  subst hfound
  obtain ⟨tree, t', hrun', hi', hin', n, hn⟩ := avlDel_indexed h.toIndexed hp
  have hmem : ∀ q, q ∈ t'.inorder ↔ q ≠ p ∧ q ∈ t.inorder := fun q => by
    rw [hin']
    exact h.nodup.mem_erase_iff
  have hp' : p ∉ t'.inorder := fun hm => ((hmem p).mp hm).1 rfl
  set z' : ZSet := { z with
    hmap := hmap, tree := Function.update tree p none, root := t'.top,
    node := Function.update z.node p none } with hz'
  have hat : ∀ q, q ≠ p → z'.at q = z.at q := fun q hq => by
    simp only [ZSet.at, hz', Function.update_of_ne hq]
  refine ⟨z', t', ?_, ⟨⟨⟨rfl, ?_, hi'.balanced, ?_, fun q hq => ?_, hi'.fresh⟩, fun q hq => ?_,
    fun q hq => ?_, fun q hq r hr he => ?_, hinv, ?_⟩, hmem, hat, Function.update_self ..⟩⟩
  · unfold zsetDelete
    rw [Store.load_of hnode, ok_bind, hrun, ok_bind]
    dsimp only
    rw [check_of (show (some (z.hnode p)).isSome = true from rfl), ok_bind, hrun', ok_bind]
    unfold znodeDel
    dsimp only
    rw [Store.free_of hnode, ok_bind, Store.free_of hn, ok_bind]
  · exact hi'.rep.congr fun q hq => Function.update_of_ne ((hmem q).mp hq).1 _ _
  · exact hi'.sorted.imp_of_mem fun hq hr hlt => by
      rw [ZSet.keyAt, ZSet.keyAt, hat _ ((hmem _).mp hq).1, hat _ ((hmem _).mp hr).1]
      exact hlt
  · rw [show z'.node q = z.node q from Function.update_of_ne ((hmem q).mp hq).1 _ _]
    exact h.data q ((hmem q).mp hq).2
  · have hqp : q ≠ p := by
      rintro rfl
      exact hq (Function.update_self ..)
    rw [hmem]
    exact ⟨hqp, h.alloc q (by rwa [show z'.node q = z.node q from Function.update_of_ne hqp _ _]
      at hq)⟩
  · rw [hat q ((hmem q).mp hq).1]
    exact h.hashed q ((hmem q).mp hq).2
  · rw [hat q ((hmem q).mp hq).1, hat r ((hmem r).mp hr).1] at he
    exact h.names q ((hmem q).mp hq).2 r ((hmem r).mp hr).2 he
  · have h1 : (z.hnode p :: hmap.nodes).Perm (t.inorder.map z.hnode) :=
      (List.Perm.symm hrem).trans h.nodes
    have h2 : (t.inorder.map z.hnode).Perm (z.hnode p :: t'.inorder.map z.hnode) := by
      rw [hin', ← List.map_cons]
      exact (List.perm_cons_erase hp).map _
    have h3 : t'.inorder.map z.hnode = t'.inorder.map z'.hnode :=
      List.map_congr_left fun q hq => by
        rw [ZSet.hnode, ZSet.hnode, hat q ((hmem q).mp hq).1]
    exact h3 ▸ (h1.trans h2).cons_inv

/-! ## Queries -/

theorem seekgeLoop_spec {z : ZSet} {t : BinaryTree Ptr} (hi : Indexed z t) {score : Double}
    (hs : score.isNaN = false) (name : Bytes) {s : BinaryTree Ptr} {par found : Option Ptr}
    {fuel : Nat} (hrep : Rep z.tree par s) (hsub : ∀ q ∈ s.inorder, q ∈ t.inorder)
    (hfuel : s.height ≤ fuel) :
    seekgeLoop z score name fuel s.top found =
      .ok (lowerBound (z.before (tupleKey score name)) s found) := by
  induction s generalizing par found fuel with
  | nil => cases fuel <;> rfl
  | node y l r ihl ihr =>
    obtain ⟨hy, hl, hr⟩ := hrep
    obtain ⟨fuel, rfl⟩ : ∃ k, fuel = k + 1 := ⟨fuel - 1, by simp only [height] at hfuel; omega⟩
    simp only [height] at hfuel
    rw [top_node, seekgeLoop, zlessKey_spec hi.ordered (hsub y (by simp)) hs, ok_bind,
      Store.load_of hy,
      ok_bind, cellOf_left, cellOf_right, ihl hl (fun q hq => hsub q (by simp [hq])) (by omega),
      ihr hr (fun q hq => hsub q (by simp [hq])) (by omega)]
    rw [lowerBound, apply_ite Except.ok]
    rfl

/-- The number of nodes before the tuple. -/
def ZSet.rank (z : ZSet) (t : BinaryTree Ptr) (score : Double) (name : Bytes) : Nat :=
  t.inorder.countP (z.before (tupleKey score name))

/-- `zset_seekge` finds the node whose rank is the number of nodes before the key. -/
theorem zsetSeekge_spec {z : ZSet} {t : BinaryTree Ptr} (hi : Indexed z t) {score : Double}
    (hs : score.isNaN = false) (name : Bytes) :
    zsetSeekge z score name = .ok t.inorder[z.rank t score name]? := by
  unfold zsetSeekge
  rw [hi.root, seekgeLoop_spec hi hs name hi.rep (fun _ h => h) (by
    have := hi.height_le
    unfold ZSet.fuel
    omega), lowerBound_eq (hi.split _), ZSet.rank, getElem?_countP (hi.split _)]
  simp

/-- `znode_offset` adds to the rank. -/
theorem znodeOffset_spec {z : ZSet} {t : BinaryTree Ptr} (hi : Indexed z t)
    (hN : t.numNodes < 2 ^ 32) (i : Nat) (offset : Int) :
    znodeOffset z t.inorder[i]? offset =
      .ok (if i < t.numNodes ∧ 0 ≤ i + offset then t.inorder[(i + offset).toNat]? else none) :=
  znodeOffset_ordered hi.ordered hN i offset

/-! ## Destruction -/

/-- `tree_dispose` frees each node of the subtree, and no other. -/
theorem treeDispose_spec (fuel : Nat) {z : ZSet} {s : BinaryTree Ptr} {par : Option Ptr}
    (hrep : Rep z.tree par s) (hn : s.inorder.Nodup) (hnode : ∀ p ∈ s.inorder, z.node p ≠ none)
    (hfuel : s.height ≤ fuel) :
    ∃ z', treeDispose fuel z s.top = .ok z' ∧
      (∀ p, z'.node p = if p ∈ s.inorder then none else z.node p) ∧
      (∀ p, p ∉ s.inorder → z'.tree p = z.tree p) := by
  induction s generalizing z par fuel with
  | nil => exact ⟨z, by cases fuel <;> rfl, fun p => by simp, fun _ _ => rfl⟩
  | node y l r ihl ihr =>
    obtain ⟨hy, hl, hr⟩ := hrep
    obtain ⟨hyl, hyr, hnl, hnr, hlr⟩ := nodup_nodeOn (s := .left).mp hn
    obtain ⟨fuel, rfl⟩ : ∃ k, fuel = k + 1 := ⟨fuel - 1, by simp only [height] at hfuel; omega⟩
    simp only [height] at hfuel
    obtain ⟨z1, hrun1, hnode1, htree1⟩ :=
      ihl fuel hl hnl (fun p hp => hnode p (by simp [hp])) (by omega)
    have hr1 : Rep z1.tree (some y) r :=
      hr.congr fun p hp => htree1 p fun hpl => hlr p hpl hp
    obtain ⟨z2, hrun2, hnode2, htree2⟩ :=
      ihr fuel hr1 hnr (fun p hp => by
        rw [hnode1, if_neg fun hpl => hlr p hpl hp]
        exact hnode p (by simp [hp])) (by omega)
    have hy1 : z1.tree y = some (cellOf par .left l r) := (htree1 y hyl).trans hy
    have hy2 : z2.tree y = some (cellOf par .left l r) := (htree2 y hyr).trans hy1
    obtain ⟨c, hc⟩ : ∃ c, z2.node y = some c := by
      rw [hnode2, if_neg hyr, hnode1, if_neg hyl]
      exact Option.ne_none_iff_exists'.mp (hnode y (by simp))
    refine ⟨{ z2 with tree := Function.update z2.tree y none,
                      node := Function.update z2.node y none }, ?_, fun p => ?_, fun p hp => ?_⟩
    · rw [top_node, treeDispose, Store.load_of hy, ok_bind, cellOf_left, hrun1, ok_bind,
        Store.load_of hy1, ok_bind, cellOf_right, hrun2, ok_bind]
      unfold znodeDel
      rw [Store.free_of hc, ok_bind, Store.free_of hy2, ok_bind]
    · by_cases hpy : p = y
      · simp [hpy]
      · dsimp only
        rw [Function.update_of_ne hpy, hnode2, hnode1]
        by_cases hpr : p ∈ r.inorder
        · simp [hpr]
        · simp [hpr, hpy]
    · simp only [inorder_node, List.mem_append, List.mem_cons, not_or] at hp
      dsimp only
      rw [Function.update_of_ne hp.2.1, htree2 p hp.2.2, htree1 p hp.1]

/-- `zset_clear` frees every node of the set, each once. -/
theorem zsetClear_spec {z : ZSet} {t : BinaryTree Ptr} (h : ZInv z t) :
    ∃ z', zsetClear z = .ok z' ∧ z'.root = none ∧ ∀ p, z'.node p = none := by
  have hheight : t.height ≤ z.fuel := by
    have := h.height_le
    unfold ZSet.fuel
    omega
  obtain ⟨z', hrun, hnode, -⟩ :=
    treeDispose_spec z.fuel (z := { z with hmap := {} }) h.rep h.nodup (fun p hp => by
      rw [show ({ z with hmap := {} } : ZSet).node p = z.node p from rfl, h.node_at hp]
      simp) hheight
  refine ⟨{ z' with root := none }, ?_, rfl, fun p => ?_⟩
  · have hclear : zsetClear z = treeDispose z.fuel { z with hmap := {} } z.root >>=
        fun z => .ok { z with root := none } := rfl
    rw [← h.root] at hrun
    rw [hclear, hrun, ok_bind]
  · dsimp only
    rw [hnode]
    by_cases hp : p ∈ t.inorder
    · rw [if_pos hp]
    · rw [if_neg hp]
      by_contra hne
      exact hp (h.alloc p hne)

end Greenis
