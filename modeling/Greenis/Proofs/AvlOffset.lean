/-
  `avl_offset` is indexing into the in-order sequence.

  The loop keeps `pos`, the rank of the current node less that of the starting one. While the
  target is outside of the current subtree it climbs; once inside, it only descends. So the
  number of iterations is at most the depth of the start plus the height of the tree.
  `offsetTrace` is the loop with the list of its iterations, and `offsetStep` one of them.
-/
import Greenis.Proofs.AvlFix

namespace Greenis
open CExec BinaryTree

/-- The rank of the root of a subtree: `q` is its path and `l` its left subtree. -/
def rankOf (q : Path Ptr) (l : BinaryTree Ptr) : Nat := (before q).length + l.numNodes

theorem getElem?_rankOf (x : Ptr) (l r : BinaryTree Ptr) (q : Path Ptr) :
    (plug (node x l r) q).inorder[rankOf q l]? = some x := by
  rw [inorder_plug, inorder_node, rankOf, ← length_inorder, ← List.length_append]
  simp

theorem rankOf_lt (x : Ptr) (l r : BinaryTree Ptr) (q : Path Ptr) :
    rankOf q l + r.numNodes < (plug (node x l r) q).numNodes := by
  rw [numNodes_plug, rankOf, numNodes]
  omega

theorem numNodes_le_plug (t : BinaryTree Ptr) (q : Path Ptr) :
    t.numNodes ≤ (plug t q).numNodes := by
  rw [numNodes_plug]
  omega

theorem i64_of {x : Int} (h1 : -2 ^ 63 ≤ x) (h2 : x < 2 ^ 63) : i64 x = .ok x := if_pos ⟨h1, h2⟩

theorem toNat_cnt {n : Nat} (h : n < 2 ^ 32) : (UInt32.ofNat n).toNat = n :=
  UInt32.toNat_ofNat_of_lt' h

theorem toNat_cnt_succ {n : Nat} (h : n + 1 < 2 ^ 32) : (UInt32.ofNat n + 1).toNat = n + 1 := by
  rw [show (1 : UInt32) = UInt32.ofNat 1 from rfl, ← UInt32.ofNat_add, toNat_cnt h]

section Step

variable {m : AvlMem} {par : Option Ptr} {s : Side} {t u : BinaryTree Ptr} {x : Ptr}
  {pos offset : Int}

theorem targetRight_rep (h : Rep m par u) (hu : u.numNodes < 2 ^ 32) (h1 : -2 ^ 32 ≤ pos)
    (h2 : pos ≤ 2 ^ 32) (c : AVLNode) (hc : c.right = u.top) :
    targetRight m c pos offset = .ok (decide (pos < offset ∧ offset ≤ pos + u.numNodes)) := by
  unfold targetRight
  rw [hc]
  by_cases hlt : pos < offset
  · rw [if_pos hlt, avlCnt_rep h, ok_bind, toNat_cnt hu, i64_of (by omega) (by omega), ok_bind]
    simp [hlt]
  · rw [if_neg hlt]
    simp [hlt]

theorem targetLeft_rep (h : Rep m par u) (hu : u.numNodes < 2 ^ 32) (h1 : -2 ^ 32 ≤ pos)
    (h2 : pos ≤ 2 ^ 32) (c : AVLNode) (hc : c.left = u.top) :
    targetLeft m c pos offset = .ok (decide (offset < pos ∧ pos - u.numNodes ≤ offset)) := by
  unfold targetLeft
  rw [hc]
  by_cases hlt : offset < pos
  · rw [if_pos hlt, avlCnt_rep h, ok_bind, toNat_cnt hu, i64_of (by omega) (by omega), ok_bind]
    simp [hlt]
  · rw [if_neg hlt]
    simp [hlt]

end Step

/-- What an iteration of the loop of `avl_offset` does; `null` is the return at the root. -/
inductive Move where
  | child
  | parent
  | null
  deriving DecidableEq, Repr

/-- One iteration of the loop: the move, with the next node and its position unless it returns. -/
def offsetStep (m : AvlMem) (offset : Int) (node : Ptr) (pos : Int) :
    Exec (Move × Option (Ptr × Int)) := do
  let n ← m.load node
  let goRight ← targetRight m n pos offset
  if goRight then do
    let node ← deref n.right
    let n ← m.load node
    let c ← avlCnt m n.left
    let pos ← i64 (pos + (c + 1).toNat)
    .ok (.child, some (node, pos))
  else do
    let goLeft ← targetLeft m n pos offset
    if goLeft then do
      let node ← deref n.left
      let n ← m.load node
      let c ← avlCnt m n.right
      let pos ← i64 (pos - (c + 1).toNat)
      .ok (.child, some (node, pos))
    else
      match n.parent with
      | none => .ok (.null, none)
      | some parent => do
        let p ← m.load parent
        if p.right = some node then do
          let c ← avlCnt m n.left
          let pos ← i64 (pos - (c + 1).toNat)
          .ok (.parent, some (parent, pos))
        else do
          let c ← avlCnt m n.right
          let pos ← i64 (pos + (c + 1).toNat)
          .ok (.parent, some (parent, pos))

/-- The loop of `avl_offset`, with the list of its iterations. -/
def offsetTrace (m : AvlMem) (offset : Int) (fuel : Nat) (node : Ptr) (pos : Int) :
    Exec (Option Ptr × List Move) :=
  if offset = pos then .ok (some node, [])
  else
    match fuel with
    | 0 => .error .fuel
    | fuel + 1 => do
      let (move, next) ← offsetStep m offset node pos
      match next with
      | none => .ok (none, [move])
      | some (node, pos) => do
        let (found, moves) ← offsetTrace m offset fuel node pos
        .ok (found, move :: moves)

/-- The list of iterations is that of the loop. -/
theorem offsetLoop_eq (m : AvlMem) (offset : Int) (fuel : Nat) (node : Ptr) (pos : Int) :
    offsetLoop m offset fuel node pos =
      offsetTrace m offset fuel node pos >>= fun r => .ok r.1 := by
  induction fuel generalizing node pos with
  | zero =>
    rw [offsetLoop, offsetTrace]
    split <;> rfl
  | succ fuel ih =>
    rw [offsetLoop, offsetTrace]
    split
    · rfl
    · simp only [offsetStep, ih, bind_assoc]
      apply congrArg
      funext n
      apply congrArg
      funext goRight
      cases goRight with
      | true => simp only [if_true, bind_assoc, ok_bind]
      | false =>
        simp only [Bool.false_eq_true, if_false, bind_assoc]
        apply congrArg
        funext goLeft
        cases goLeft with
        | true => simp only [if_true, bind_assoc, ok_bind]
        | false =>
          simp only [Bool.false_eq_true, if_false]
          cases n.parent with
          | none => rfl
          | some parent =>
            simp only [bind_assoc]
            apply congrArg
            funext p
            split <;> simp only [bind_assoc, ok_bind]

theorem offsetTrace_here (m : AvlMem) (offset : Int) (fuel : Nat) (node : Ptr) :
    offsetTrace m offset fuel node offset = .ok (some node, []) := by
  cases fuel <;> simp [offsetTrace]

theorem offsetTrace_move {m : AvlMem} {offset pos pos' : Int} {fuel : Nat} {node node' : Ptr}
    {move : Move} {found : Option Ptr} {moves : List Move} (hne : offset ≠ pos)
    (hstep : offsetStep m offset node pos = .ok (move, some (node', pos')))
    (hrun : offsetTrace m offset fuel node' pos' = .ok (found, moves)) :
    offsetTrace m offset (fuel + 1) node pos = .ok (found, move :: moves) := by
  rw [offsetTrace, if_neg hne, hstep, ok_bind]
  dsimp only
  rw [hrun, ok_bind]

theorem offsetTrace_null {m : AvlMem} {offset pos : Int} {fuel : Nat} {node : Ptr}
    (hne : offset ≠ pos) (hstep : offsetStep m offset node pos = .ok (.null, none)) :
    offsetTrace m offset (fuel + 1) node pos = .ok (none, [.null]) := by
  rw [offsetTrace, if_neg hne, hstep, ok_bind]

/-- No move to a parent comes after one to a child. -/
def ClimbsFirst (moves : List Move) : Prop :=
  moves.Pairwise fun a b => a = .child → b ≠ .parent

theorem climbsFirst_parent {moves : List Move} (h : ClimbsFirst moves) :
    ClimbsFirst (.parent :: moves) :=
  List.pairwise_cons.mpr ⟨fun _ _ hc => (by cases hc), h⟩

theorem climbsFirst_children {moves : List Move} (h : ∀ move ∈ moves, move = .child) :
    ClimbsFirst moves := by
  induction moves with
  | nil => exact List.Pairwise.nil
  | cons move moves ih =>
    obtain ⟨-, hrest⟩ := List.forall_mem_cons.mp h
    refine List.pairwise_cons.mpr ⟨fun b hb _ hp => ?_, ih hrest⟩
    rw [hrest b hb] at hp
    cases hp

/-- A move to the parent, before a walk that takes up to `n` iterations. -/
theorem offsetTrace_climb {m : AvlMem} {offset pos pos' : Int} {fuel n : Nat} {node node' : Ptr}
    {found : Option Ptr} (hne : offset ≠ pos)
    (hstep : offsetStep m offset node pos = .ok (.parent, some (node', pos')))
    (hwalk : ∃ moves, offsetTrace m offset fuel node' pos' = .ok (found, moves) ∧
      ClimbsFirst moves ∧ moves.length ≤ n) :
    ∃ moves, offsetTrace m offset (fuel + 1) node pos = .ok (found, moves) ∧
      ClimbsFirst moves ∧ moves.length ≤ n + 1 := by
  obtain ⟨moves, hrun, hup, hlen⟩ := hwalk
  exact ⟨.parent :: moves, offsetTrace_move hne hstep hrun, climbsFirst_parent hup,
    Nat.succ_le_succ hlen⟩

/-- A tree in memory of fewer than 2^32 nodes, and the starting rank of a walk. -/
structure Walk (m : AvlMem) (t : BinaryTree Ptr) (start : Nat) : Prop where
  rep : Rep m none t
  nodup : t.inorder.Nodup
  small : t.numNodes < 2 ^ 32
  start_lt : start < t.numNodes

section Loop

variable {m : AvlMem} {start fuel : Nat} {x : Ptr} {l r : BinaryTree Ptr} {q : Path Ptr}
  {target : Int}

/-- The target is in the right subtree. -/
theorem offsetStep_right {y : Ptr} {a b : BinaryTree Ptr}
    (h : Walk m (plug (node x l (node y a b)) q) start) (h1 : rankOf q l < target)
    (h2 : target ≤ rankOf q l + (node y a b).numNodes) :
    offsetStep m (target - start) x (rankOf q l - start) =
      .ok (.child, some (y, rankOf (⟨.right, x, l⟩ :: q) a - start)) := by
  obtain ⟨⟨hx, hl, hr⟩, -⟩ := rep_plug_iff.mp h.rep
  obtain ⟨hy, ha, -⟩ := id hr
  have hsmall := h.small
  have hstart := h.start_lt
  have hlt := rankOf_lt x l (node y a b) q
  have hrank : (rankOf q l - start + (a.numNodes + 1 : Nat) : Int) =
      rankOf (⟨.right, x, l⟩ :: q) a - start := by
    simp only [rankOf, before, List.length_append, List.length_cons, List.length_nil,
      length_inorder]
    omega
  simp only [numNodes] at h2 hlt
  rw [offsetStep, Store.load_of hx, ok_bind,
    targetRight_rep hr (by simp only [numNodes]; omega) (by omega) (by omega) _ (cellOf_right ..),
    ok_bind, if_pos (decide_eq_true ⟨by omega, by simp only [numNodes]; omega⟩), cellOf_right,
    top_node, deref_some, ok_bind, Store.load_of hy, ok_bind, cellOf_left, avlCnt_rep ha, ok_bind,
    toNat_cnt_succ (by omega), i64_of (by omega) (by omega), ok_bind, hrank]

/-- The target is in the left subtree. -/
theorem offsetStep_left {y : Ptr} {a b : BinaryTree Ptr}
    (h : Walk m (plug (node x (node y a b) r) q) start)
    (h1 : target < rankOf q (node y a b)) (h2 : (before q).length ≤ target) :
    offsetStep m (target - start) x (rankOf q (node y a b) - start) =
      .ok (.child, some (y, rankOf (⟨.left, x, r⟩ :: q) a - start)) := by
  obtain ⟨⟨hx, hl, hr⟩, -⟩ := rep_plug_iff.mp h.rep
  obtain ⟨hy, -, hb⟩ := id hl
  have hsmall := h.small
  have hstart := h.start_lt
  have hlt := rankOf_lt x (node y a b) r q
  have hrank : (rankOf q (node y a b) - start - (b.numNodes + 1 : Nat) : Int) =
      rankOf (⟨.left, x, r⟩ :: q) a - start := by
    simp only [rankOf, before, numNodes]
    omega
  have hle : rankOf q (node y a b) = (before q).length + (a.numNodes + b.numNodes + 1) := rfl
  have hr' := numNodes_le_plug (node x (node y a b) r) q
  simp only [numNodes] at hr'
  rw [offsetStep, Store.load_of hx, ok_bind,
    targetRight_rep hr (by omega) (by omega) (by omega) _ (cellOf_right ..), ok_bind,
    if_neg (by simp only [decide_eq_true_eq]; omega),
    targetLeft_rep hl (by simp only [numNodes]; omega) (by omega) (by omega) _ (cellOf_left ..),
    ok_bind, if_pos (decide_eq_true ⟨by omega, by simp only [numNodes]; omega⟩), cellOf_left,
    top_node, deref_some, ok_bind, Store.load_of hy, ok_bind, cellOf_right, avlCnt_rep hb, ok_bind,
    toNat_cnt_succ (by omega), i64_of (by omega) (by omega), ok_bind, hrank]

/-- The target is outside of the subtree: the walk goes to the parent, or ends at the root. -/
theorem offsetStep_up (h : Walk m (plug (node x l r) q) start)
    (hout : target < (before q).length ∨ rankOf q l + r.numNodes < target) :
    offsetStep m (target - start) x (rankOf q l - start) =
      match q with
      | [] => .ok (.null, none)
      | ⟨.right, z, sib⟩ :: p => .ok (.parent, some (z, rankOf p sib - start))
      | ⟨.left, z, _⟩ :: p => .ok (.parent, some (z, rankOf p (node x l r) - start)) := by
  obtain ⟨⟨hx, hl, hr⟩, habove⟩ := rep_plug_iff.mp h.rep
  obtain ⟨-, -, hd⟩ := nodup_plug.mp h.nodup
  have hsmall := h.small
  have hstart := h.start_lt
  have hlt := rankOf_lt x l r q
  have hle : rankOf q l = (before q).length + l.numNodes := rfl
  rw [offsetStep, Store.load_of hx, ok_bind,
    targetRight_rep hr (by omega) (by omega) (by omega) _ (cellOf_right ..), ok_bind,
    if_neg (by simp only [decide_eq_true_eq]; omega),
    targetLeft_rep hl (by omega) (by omega) (by omega) _ (cellOf_left ..), ok_bind,
    if_neg (by simp only [decide_eq_true_eq]; omega), cellOf_parent]
  match q with
  | [] => rfl
  | ⟨.right, z, sib⟩ :: p =>
    obtain ⟨hz, -, -⟩ := habove
    have hrank : (rankOf (⟨.right, z, sib⟩ :: p) l - start - (l.numNodes + 1 : Nat) : Int) =
        rankOf p sib - start := by
      simp only [rankOf, before, List.length_append, List.length_cons, List.length_nil,
        length_inorder]
      omega
    rw [above_cons]
    dsimp only
    rw [Store.load_of hz, ok_bind,
      if_pos (show (cellOf (above p) .right (node x l r) sib).right = some x from rfl),
      cellOf_left, avlCnt_rep hl, ok_bind, toNat_cnt_succ (by omega),
      i64_of (by omega) (by omega), ok_bind, hrank]
  | ⟨.left, z, sib⟩ :: p =>
    obtain ⟨hz, -, -⟩ := habove
    have hrank : (rankOf (⟨.left, z, sib⟩ :: p) l - start + (r.numNodes + 1 : Nat) : Int) =
        rankOf p (node x l r) - start := by
      simp only [rankOf, before, numNodes]
      omega
    have hsib : x ∉ sib.inorder := fun hm =>
      hd x (by simp) (mem_spine_cons.mpr (Or.inr (Or.inl hm)))
    rw [above_cons]
    dsimp only
    rw [Store.load_of hz, ok_bind, cellOf_right, if_neg (top_ne hsib), cellOf_right,
      avlCnt_rep hr, ok_bind, toNat_cnt_succ (by omega), i64_of (by omega) (by omega), ok_bind,
      hrank]

end Loop

/-- A target inside of the subtree is found by descending. -/
theorem offsetTrace_inside (fuel target : Nat) {m : AvlMem} {start : Nat} {x : Ptr}
    {l r : BinaryTree Ptr} {q : Path Ptr} (h : Walk m (plug (node x l r) q) start)
    (h1 : (before q).length ≤ target) (h2 : target ≤ rankOf q l + r.numNodes)
    (hfuel : (node x l r).height ≤ fuel + 1) :
    ∃ moves, offsetTrace m (target - start) fuel x (rankOf q l - start) =
        .ok ((plug (node x l r) q).inorder[target]?, moves) ∧
      (∀ move ∈ moves, move = .child) ∧ moves.length < (node x l r).height := by
  generalize ht : node x l r = t at h hfuel ⊢
  induction t generalizing fuel x l r q with
  | nil => cases ht
  | node z a b iha ihb =>
    cases ht
    have hle : rankOf q a = (before q).length + a.numNodes := rfl
    simp only [height] at hfuel ⊢
    rcases Nat.lt_trichotomy target (rankOf q a) with hlt | heq | hgt
    · -- The left subtree is not empty.
      cases a with
      | nil => simp only [numNodes] at hle; omega
      | node y c d =>
        obtain ⟨fuel, rfl⟩ : ∃ k, fuel = k + 1 :=
          ⟨fuel - 1, by simp only [height] at hfuel; omega⟩
        have h2' : target ≤ rankOf (⟨.left, z, b⟩ :: q) c + d.numNodes := by
          simp only [rankOf, before, numNodes] at hlt ⊢
          omega
        obtain ⟨moves, hrun, hchild, hlen⟩ :=
          iha fuel (q := ⟨.left, z, b⟩ :: q) h1 h2' rfl h (by omega)
        refine ⟨.child :: moves, offsetTrace_move (by omega)
          (offsetStep_left h (by omega) (by omega)) hrun,
          List.forall_mem_cons.mpr ⟨rfl, hchild⟩, ?_⟩
        rw [List.length_cons]
        omega
    · refine ⟨[], ?_, by simp, Nat.succ_pos _⟩
      rw [heq, getElem?_rankOf, offsetTrace_here]
    · cases b with
      | nil => simp only [numNodes] at h2; omega
      | node y c d =>
        obtain ⟨fuel, rfl⟩ : ∃ k, fuel = k + 1 :=
          ⟨fuel - 1, by simp only [height] at hfuel; omega⟩
        have h1' : (before (⟨.right, z, a⟩ :: q)).length ≤ target := by
          simp only [before, List.length_append, List.length_cons, List.length_nil,
            length_inorder]
          omega
        have h2' : target ≤ rankOf (⟨.right, z, a⟩ :: q) c + d.numNodes := by
          simp only [rankOf, before, List.length_append, List.length_cons, List.length_nil,
            length_inorder, numNodes] at h2 ⊢
          omega
        obtain ⟨moves, hrun, hchild, hlen⟩ :=
          ihb fuel (q := ⟨.right, z, a⟩ :: q) h1' h2' rfl h (by omega)
        refine ⟨.child :: moves, offsetTrace_move (by omega)
          (offsetStep_right h (by omega) (by omega)) hrun,
          List.forall_mem_cons.mpr ⟨rfl, hchild⟩, ?_⟩
        rw [List.length_cons]
        omega

/-- The walk ends at the target, or returns null if there is no such rank. -/
theorem offsetTrace_rep (fuel : Nat) (target : Int) {m : AvlMem} {start : Nat} {x : Ptr}
    {l r : BinaryTree Ptr} {q : Path Ptr} (h : Walk m (plug (node x l r) q) start)
    (hfuel : q.length + (plug (node x l r) q).height ≤ fuel) :
    ∃ moves, offsetTrace m (target - start) fuel x (rankOf q l - start) =
        .ok (if 0 ≤ target then (plug (node x l r) q).inorder[target.toNat]? else none, moves) ∧
      ClimbsFirst moves ∧ moves.length ≤ q.length + (plug (node x l r) q).height := by
  induction q generalizing fuel x l r with
  | nil =>
    by_cases hin : 0 ≤ target ∧ target ≤ rankOf [] l + r.numNodes
    · obtain ⟨k, rfl⟩ : ∃ k : Nat, target = k := ⟨target.toNat, by omega⟩
      rw [if_pos (by omega), Int.toNat_natCast]
      obtain ⟨moves, hrun, hchild, hlen⟩ :=
        offsetTrace_inside fuel k h (Nat.zero_le _) (by omega) (by simp at hfuel ⊢; omega)
      exact ⟨moves, hrun, climbsFirst_children hchild, by simp at hlen ⊢; omega⟩
    · obtain ⟨fuel, rfl⟩ : ∃ k, fuel = k + 1 := ⟨fuel - 1, by simp at hfuel; omega⟩
      have hnone : (if 0 ≤ target then (plug (node x l r) []).inorder[target.toNat]? else none) =
          none := by
        by_cases h0 : 0 ≤ target
        · rw [if_pos h0]
          apply List.getElem?_eq_none
          rw [length_inorder]
          simp only [plug_nil, numNodes, rankOf, before, List.length_nil] at hin ⊢
          omega
        · rw [if_neg h0]
      rw [hnone]
      refine ⟨[.null], offsetTrace_null ?_
        (offsetStep_up h (by simp only [before, List.length_nil]; omega)),
        List.pairwise_singleton _ _, by simp⟩
      simp only [rankOf, before, List.length_nil] at hin ⊢
      omega
  | cons c p ih =>
    have hge := height_plug_ge (node x l r) (c :: p)
    simp only [List.length_cons] at hge hfuel ⊢
    by_cases hin : (before (c :: p)).length ≤ target ∧ target ≤ rankOf (c :: p) l + r.numNodes
    · obtain ⟨k, rfl⟩ : ∃ k : Nat, target = k := ⟨target.toNat, by omega⟩
      rw [if_pos (by omega), Int.toNat_natCast]
      obtain ⟨moves, hrun, hchild, hlen⟩ :=
        offsetTrace_inside fuel k h (by omega) (by omega) (by omega)
      exact ⟨moves, hrun, climbsFirst_children hchild, by omega⟩
    · obtain ⟨fuel, rfl⟩ : ∃ k, fuel = k + 1 := ⟨fuel - 1, by omega⟩
      have hne : target - start ≠ rankOf (c :: p) l - start := by
        simp only [rankOf] at hin ⊢
        omega
      have hout : target < (before (c :: p)).length ∨ rankOf (c :: p) l + r.numNodes < target := by
        omega
      have hstep := offsetStep_up h hout
      -- The parent with its two subtrees is the next tree.
      have hfuel' : p.length + (plug (c.plug (node x l r)) p).height ≤ fuel := by
        rw [plug_cons] at hfuel
        omega
      rw [plug_cons, Nat.add_right_comm]
      obtain ⟨side, z, sib⟩ := c
      cases side with
      | right =>
        exact offsetTrace_climb hne hstep (ih fuel (x := z) (l := sib) (r := node x l r) h hfuel')
      | left =>
        exact offsetTrace_climb hne hstep (ih fuel (x := z) (l := node x l r) (r := sib) h hfuel')

/-- A walk from the node of rank `i` takes fewer than `2 * height` iterations. -/
theorem offsetTrace_root (fuel : Nat) {m : AvlMem} {t : BinaryTree Ptr} {i : Nat} {x : Ptr}
    {offset : Int} (h : Rep m none t) (hn : t.inorder.Nodup) (hN : t.numNodes < 2 ^ 32)
    (hx : t.inorder[i]? = some x) (hfuel : 2 * t.height ≤ fuel + 1) :
    ∃ moves, offsetTrace m offset fuel x 0 =
        .ok (if 0 ≤ i + offset then t.inorder[(i + offset).toNat]? else none, moves) ∧
      ClimbsFirst moves ∧ moves.length < 2 * t.height := by
  obtain ⟨l, r, q, rfl⟩ := exists_plug (List.mem_of_getElem? hx)
  have hi : rankOf q l = i :=
    (List.getElem?_inj (List.getElem?_eq_some_iff.mp (getElem?_rankOf x l r q)).1 hn).mp
      ((getElem?_rankOf x l r q).trans hx.symm)
  have hlt := rankOf_lt x l r q
  have hge := height_plug_ge (node x l r) q
  simp only [height] at hge
  have hwalk : Walk m (plug (node x l r) q) i := ⟨h, hn, hN, by omega⟩
  obtain ⟨moves, hrun, hup, hlen⟩ := offsetTrace_rep fuel (i + offset) hwalk (by omega)
  rw [hi, Int.sub_self, show (i + offset - i : Int) = offset by omega] at hrun
  exact ⟨moves, hrun, hup, by omega⟩

/-- `avl_offset` from the node of rank `i` finds the node of rank `i + offset`. -/
theorem avlOffset_rep {m : AvlMem} {t : BinaryTree Ptr} {i fuel : Nat} {x : Ptr} {offset : Int}
    (h : Rep m none t) (hn : t.inorder.Nodup) (hN : t.numNodes < 2 ^ 32)
    (hx : t.inorder[i]? = some x) (hfuel : 2 * t.height ≤ fuel + 1) :
    avlOffset fuel m x offset =
      .ok (if 0 ≤ i + offset then t.inorder[(i + offset).toNat]? else none) := by
  obtain ⟨moves, hrun, -⟩ := offsetTrace_root fuel h hn hN hx hfuel
  rw [avlOffset, offsetLoop_eq, hrun, ok_bind]

end Greenis
