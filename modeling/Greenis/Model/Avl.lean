/-
  `lib/server/avl.cpp`: an intrusive AVL tree with parent pointers and subtree counts.

  `AvlMem` is the memory of the tree nodes. `height` is a `uint32_t` in the source; a balanced
  tree whose height does not fit in it has more nodes than there are addresses, so it is a `Nat`
  here. `cnt` is kept in 32 bits. Loops take an iteration budget.
-/
import Greenis.Lib.Exec
import Greenis.Lib.TreeZipper

namespace Greenis
open CExec
open BinaryTree (Side)

structure AVLNode where
  parent : Option Ptr := none
  left : Option Ptr := none
  right : Option Ptr := none
  height : Nat := 0
  cnt : UInt32 := 0
  deriving DecidableEq, Repr

abbrev AvlMem := Store AVLNode

def AVLNode.child (n : AVLNode) : Side → Option Ptr
  | .left => n.left
  | .right => n.right

def AVLNode.setChild (n : AVLNode) (side : Side) (p : Option Ptr) : AVLNode :=
  match side with
  | .left => { n with left := p }
  | .right => { n with right := p }

/-- The fields `avl_init` assigns. -/
def avlInit : AVLNode := { height := 1, cnt := 1 }

def avlHeight (m : AvlMem) : Option Ptr → Exec Nat
  | none => .ok 0
  | some p => do
    let n ← m.load p
    .ok n.height

def avlCnt (m : AvlMem) : Option Ptr → Exec UInt32
  | none => .ok 0
  | some p => do
    let n ← m.load p
    .ok n.cnt

/-- Maintain the height and cnt field. -/
def avlUpdate (m : AvlMem) (node : Ptr) : Exec AvlMem := do
  let n ← m.load node
  let lh ← avlHeight m n.left
  let rh ← avlHeight m n.right
  let lc ← avlCnt m n.left
  let rc ← avlCnt m n.right
  m.modify node fun n => { n with height := 1 + max lh rh, cnt := 1 + lc + rc }

/-- `if (node) node->parent = parent;` -/
def setParent (m : AvlMem) (node parent : Option Ptr) : Exec AvlMem :=
  match node with
  | none => .ok m
  | some p => m.modify p fun n => { n with parent := parent }

/-- `rot_left` and `rot_right` are mirror images: `node` goes down on `side`, its child on the
    other side comes up. -/
def rotate (side : Side) (m : AvlMem) (node : Ptr) : Exec (AvlMem × Ptr) := do
  let n ← m.load node
  let parent := n.parent
  let newNode ← deref (n.child side.other)
  let nn ← m.load newNode
  let inner := nn.child side
  -- node <-> inner
  let m ← m.modify node fun n => n.setChild side.other inner
  let m ← setParent m inner (some node)
  -- parent <- new_node
  let m ← m.modify newNode fun n => { n with parent := parent }
  -- new_node <-> node
  let m ← m.modify newNode fun n => n.setChild side (some node)
  let m ← m.modify node fun n => { n with parent := some newNode }
  -- auxiliary data
  let m ← avlUpdate m node
  let m ← avlUpdate m newNode
  .ok (m, newNode)

def rotLeft : AvlMem → Ptr → Exec (AvlMem × Ptr) := rotate .left

def rotRight : AvlMem → Ptr → Exec (AvlMem × Ptr) := rotate .right

/-- `avl_fix_left` and `avl_fix_right`: the subtree on `side` is taller by 2. -/
def avlFixTall (side : Side) (m : AvlMem) (node : Ptr) : Exec (AvlMem × Ptr) := do
  let n ← m.load node
  let kid ← deref (n.child side)
  let kn ← m.load kid
  let outer ← avlHeight m (kn.child side)
  let inner ← avlHeight m (kn.child side.other)
  let m ←
    (if outer < inner then do
      let (m, kid) ← rotate side m kid
      m.modify node fun n => n.setChild side (some kid)
    else .ok m)
  rotate side.other m node

def avlFixLeft : AvlMem → Ptr → Exec (AvlMem × Ptr) := avlFixTall .left

def avlFixRight : AvlMem → Ptr → Exec (AvlMem × Ptr) := avlFixTall .right

/-- `AVLNode **from`: a local variable, or a child field of a node. -/
inductive Link where
  | local
  | child (side : Side) (p : Ptr)
  deriving DecidableEq, Repr

/-- `*from = node`. The value of a local is returned by the caller. -/
def setLink (m : AvlMem) (link : Link) (node : Option Ptr) : Exec AvlMem :=
  match link with
  | .local => .ok m
  | .child side p => m.modify p fun n => n.setChild side node

/-- `parent->left == node ? &parent->left : &parent->right` -/
def childLink (m : AvlMem) (parent node : Ptr) : Exec Link := do
  let p ← m.load parent
  .ok (.child (if p.left = some node then .left else .right) parent)

/-- The incoming pointer to `node`. -/
def incoming (m : AvlMem) (parent : Option Ptr) (node : Ptr) : Exec Link :=
  match parent with
  | some parent => childLink m parent node
  | none => .ok .local

/-- Fix the height difference of 2. -/
def fixHeights (m : AvlMem) (link : Link) (node : Ptr) : Exec (AvlMem × Ptr) := do
  let n ← m.load node
  let l ← avlHeight m n.left
  let r ← avlHeight m n.right
  if l = r + 2 then do
    let (m, fixed) ← avlFixLeft m node
    let m ← setLink m link (some fixed)
    .ok (m, fixed)
  else if l + 2 = r then do
    let (m, fixed) ← avlFixRight m node
    let m ← setLink m link (some fixed)
    .ok (m, fixed)
  else .ok (m, node)

/-- One iteration of `avl_fix`: the fixed subtree, and the parent to continue at. -/
def fixStep (m : AvlMem) (node : Ptr) : Exec (AvlMem × Ptr × Option Ptr) := do
  let n ← m.load node
  let link ← incoming m n.parent node
  let m ← avlUpdate m node
  let (m, fixed) ← fixHeights m link node
  .ok (m, fixed, n.parent)

/-- Fix imbalanced nodes and maintain invariants until the root is reached. -/
def avlFix : Nat → AvlMem → Ptr → Exec (AvlMem × Ptr)
  | 0, _, _ => .error .fuel
  | fuel + 1, m, node => do
    let (m, fixed, parent) ← fixStep m node
    match parent with
    | none => .ok (m, fixed)
    | some parent => avlFix fuel m parent

/-- Detach a node where 1 of its children is empty. -/
def avlDelEasy (fuel : Nat) (m : AvlMem) (node : Ptr) : Exec (AvlMem × Option Ptr) := do
  let n ← m.load node
  check (n.left.isNone || n.right.isNone)
  let child := n.left <|> n.right
  let m ← setParent m child n.parent
  match n.parent with
  | none => .ok (m, child)
  | some parent => do
    let link ← childLink m parent node
    let m ← setLink m link child
    let (m, root) ← avlFix fuel m parent
    .ok (m, some root)

/-- `while (victim->left) victim = victim->left;` -/
def leftmost (m : AvlMem) : Nat → Ptr → Exec Ptr
  | 0, _ => .error .fuel
  | fuel + 1, victim => do
    let n ← m.load victim
    match n.left with
    | none => .ok victim
    | some left => leftmost m fuel left

/-- `victim` takes the place of `node`; `root` is the root before. -/
def swapWith (m : AvlMem) (node victim : Ptr) (root : Option Ptr) :
    Exec (AvlMem × Option Ptr) := do
  let n ← m.load node
  let m ← m.modify victim fun _ => n
  let m ← setParent m n.left (some victim)
  let m ← setParent m n.right (some victim)
  match n.parent with
  | none => .ok (m, some victim)
  | some parent => do
    let link ← childLink m parent node
    let m ← setLink m link (some victim)
    .ok (m, root)

/-- Detach a node and return the new root of the tree. -/
def avlDel (fuel : Nat) (m : AvlMem) (node : Ptr) : Exec (AvlMem × Option Ptr) := do
  let n ← m.load node
  match n.left, n.right with
  | some _, some right => do
    -- The successor of `node` has no left child.
    let victim ← leftmost m fuel right
    let (m, root) ← avlDelEasy fuel m victim
    swapWith m node victim root
  | _, _ => avlDelEasy fuel m node

/-- The result of an `int64_t` operation. -/
def i64 (x : Int) : Exec Int :=
  if -2 ^ 63 ≤ x ∧ x < 2 ^ 63 then .ok x else .error .overflow

/-- `pos < offset && pos + avl_cnt(node->right) >= offset` -/
def targetRight (m : AvlMem) (n : AVLNode) (pos offset : Int) : Exec Bool :=
  if pos < offset then do
    let c ← avlCnt m n.right
    let s ← i64 (pos + c.toNat)
    .ok (offset ≤ s)
  else .ok false

/-- `pos > offset && pos - avl_cnt(node->left) <= offset` -/
def targetLeft (m : AvlMem) (n : AVLNode) (pos offset : Int) : Exec Bool :=
  if offset < pos then do
    let c ← avlCnt m n.left
    let s ← i64 (pos - c.toNat)
    .ok (s ≤ offset)
  else .ok false

/-- The loop of `avl_offset`; one unit of the budget is one iteration. -/
def offsetLoop (m : AvlMem) (offset : Int) (fuel : Nat) (node : Ptr) (pos : Int) :
    Exec (Option Ptr) :=
  if offset = pos then .ok (some node)
  else
    match fuel with
    | 0 => .error .fuel
    | fuel + 1 => do
      let n ← m.load node
      let goRight ← targetRight m n pos offset
      if goRight then do
        let node ← deref n.right
        let n ← m.load node
        let c ← avlCnt m n.left
        let pos ← i64 (pos + (c + 1).toNat)
        offsetLoop m offset fuel node pos
      else do
        let goLeft ← targetLeft m n pos offset
        if goLeft then do
          let node ← deref n.left
          let n ← m.load node
          let c ← avlCnt m n.right
          let pos ← i64 (pos - (c + 1).toNat)
          offsetLoop m offset fuel node pos
        else
          match n.parent with
          | none => .ok none
          | some parent => do
            let p ← m.load parent
            if p.right = some node then do
              let c ← avlCnt m n.left
              let pos ← i64 (pos - (c + 1).toNat)
              offsetLoop m offset fuel parent pos
            else do
              let c ← avlCnt m n.right
              let pos ← i64 (pos + (c + 1).toNat)
              offsetLoop m offset fuel parent pos

/-- Offset into the succeeding or preceding node. -/
def avlOffset (fuel : Nat) (m : AvlMem) (node : Ptr) (offset : Int) : Exec (Option Ptr) :=
  offsetLoop m offset fuel node 0

end Greenis
