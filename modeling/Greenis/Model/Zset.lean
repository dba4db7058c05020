/-
  `lib/server/zset.cpp`: a sorted set, indexed by name in a hash map and by (score, name) in an
  AVL tree.

  A `ZNode` lies at one address: its `AVLNode` is the cell of `tree` there, its other fields that
  of `node`. A `ZSet` carries the memory of its own nodes, which nothing else points to; `malloc`
  returns the address `brk` and never one it has returned before. The number of addresses handed
  out bounds the size of the tree, and with it the iterations of every walk.
-/
import Greenis.Model.Avl
import Greenis.Model.HashTable

namespace Greenis
open CExec
open BinaryTree (Side)

/-- A `ZNode` without its tree node. -/
structure ZNode where
  hcode : UInt64
  score : Double
  name : Bytes
  deriving DecidableEq, Repr, Inhabited

structure ZSet where
  root : Option Ptr := none
  hmap : HMap Ptr := {}
  tree : AvlMem := fun _ => none
  node : Store ZNode := fun _ => none
  brk : Ptr := 0
  deriving Inhabited

/-- The iteration budget of a walk in the tree. -/
def ZSet.fuel (z : ZSet) : Nat := 2 * z.brk + 1

/-- The fields `znode_new` assigns. -/
def ZNode.new (name : Bytes) (score : Double) : ZNode :=
  { hcode := strHash name, score := score, name := name }

def znodeNew (z : ZSet) (name : Bytes) (score : Double) : ZSet × Ptr :=
  ({ z with
      tree := z.tree.write z.brk avlInit
      node := z.node.write z.brk (ZNode.new name score)
      brk := z.brk + 1 }, z.brk)

def znodeDel (z : ZSet) (node : Ptr) : Exec ZSet := do
  let cells ← z.node.free node
  let tree ← z.tree.free node
  .ok { z with tree := tree, node := cells }

/-- `memcmp(a, b, n)`: reading past the end of either is a fault. -/
def memcmp : Bytes → Bytes → Nat → Exec Int
  | _, _, 0 => .ok 0
  | x :: a, y :: b, n + 1 => if x = y then memcmp a b n else .ok (x.toNat - y.toNat)
  | _, _, _ + 1 => .error .bounds

/-- Compare by the (score, name) tuple. -/
def zless (zl : ZNode) (score : Double) (name : Bytes) : Exec Bool :=
  if !zl.score.eq score then .ok (zl.score.lt score)
  else do
    let rv ← memcmp zl.name name (min zl.name.length name.length)
    if rv ≠ 0 then .ok (rv < 0) else .ok (zl.name.length < name.length)

def zlessKey (z : ZSet) (lhs : Ptr) (score : Double) (name : Bytes) : Exec Bool := do
  let zl ← z.node.load lhs
  zless zl score name

def zlessNode (z : ZSet) (lhs rhs : Ptr) : Exec Bool := do
  let zr ← z.node.load rhs
  zlessKey z lhs zr.score zr.name

/-- The search of `tree_insert`: the node to insert under, and the incoming pointer. -/
def insertPoint (z : ZSet) (node : Ptr) :
    Nat → Option Ptr → Option Ptr → Link → Exec (Option Ptr × Link)
  | _, none, parent, from' => .ok (parent, from')
  | 0, some _, _, _ => .error .fuel
  | fuel + 1, some cur, _, _ => do
    let less ← zlessNode z node cur
    let side := if less then Side.left else Side.right
    let n ← z.tree.load cur
    insertPoint z node fuel (n.child side) (some cur) (.child side cur)

/-- Insert into the AVL tree. -/
def treeInsert (z : ZSet) (node : Ptr) : Exec ZSet := do
  let (parent, from') ← insertPoint z node z.fuel z.root none .local
  let tree ← setLink z.tree from' (some node)
  let tree ← tree.modify node fun n => { n with parent := parent }
  let (tree, root) ← avlFix z.fuel tree node
  .ok { z with tree := tree, root := some root }

/-- Update the score of an existing node. -/
def zsetUpdate (z : ZSet) (node : Ptr) (score : Double) : Exec ZSet := do
  let zn ← z.node.load node
  if zn.score.eq score then .ok z
  else do
    -- detach the tree node
    let (tree, root) ← avlDel z.fuel z.tree node
    let tree ← tree.modify node fun _ => avlInit
    -- reinsert it
    let cells ← z.node.modify node fun zn => { zn with score := score }
    treeInsert { z with tree := tree, root := root, node := cells } node

/-- The comparison of a lookup by name. -/
def hcmp (z : ZSet) (name : Bytes) (node : HNode Ptr) : Exec Bool := do
  let zn ← z.node.load node.owner
  if zn.name.length ≠ name.length then .ok false
  else do
    let rv ← memcmp zn.name name zn.name.length
    .ok (rv == 0)

/-- Look up by name. -/
def zsetLookup (z : ZSet) (name : Bytes) : Exec (ZSet × Option Ptr) :=
  if z.root.isNone then .ok (z, none)
  else do
    let (hmap, found) ← hmLookup z.hmap (strHash name) (hcmp z name)
    .ok ({ z with hmap := hmap }, found.map HNode.owner)

/-- Add a new (score, name) tuple, or update the score of the existing tuple. -/
def zsetInsert (z : ZSet) (name : Bytes) (score : Double) : Exec (ZSet × Bool) := do
  let (z, node) ← zsetLookup z name
  match node with
  | some node => do
    let z ← zsetUpdate z node score
    .ok (z, false)
  | none => do
    let (z, node) := znodeNew z name score
    let zn ← z.node.load node
    let hmap ← hmInsert z.hmap ⟨node, zn.hcode⟩
    let z ← treeInsert { z with hmap := hmap } node
    .ok (z, true)

/-- Delete a node. -/
def zsetDelete (z : ZSet) (node : Ptr) : Exec ZSet := do
  let zn ← z.node.load node
  -- remove from the hashtable
  let (hmap, found) ← hmDelete z.hmap zn.hcode (hcmp z zn.name)
  check found.isSome
  -- remove from the tree
  let (tree, root) ← avlDel z.fuel z.tree node
  znodeDel { z with hmap := hmap, tree := tree, root := root } node

/-- The loop of `zset_seekge`. -/
def seekgeLoop (z : ZSet) (score : Double) (name : Bytes) :
    Nat → Option Ptr → Option Ptr → Exec (Option Ptr)
  | _, none, found => .ok found
  | 0, some _, _ => .error .fuel
  | fuel + 1, some node, found => do
    let less ← zlessKey z node score name
    let n ← z.tree.load node
    if less then seekgeLoop z score name fuel n.right found
    else seekgeLoop z score name fuel n.left (some node)

/-- Find the first (score, name) tuple that is >= key. -/
def zsetSeekge (z : ZSet) (score : Double) (name : Bytes) : Exec (Option Ptr) :=
  seekgeLoop z score name z.fuel z.root none

/-- Offset into the succeeding or preceding node. -/
def znodeOffset (z : ZSet) (node : Option Ptr) (offset : Int) : Exec (Option Ptr) :=
  match node with
  | none => .ok none
  | some node => avlOffset z.fuel z.tree node offset

def treeDispose : Nat → ZSet → Option Ptr → Exec ZSet
  | _, z, none => .ok z
  | 0, _, some _ => .error .fuel
  | fuel + 1, z, some node => do
    let n ← z.tree.load node
    let z ← treeDispose fuel z n.left
    let n ← z.tree.load node
    let z ← treeDispose fuel z n.right
    znodeDel z node

/-- Destroy the zset. -/
def zsetClear (z : ZSet) : Exec ZSet := do
  let z := { z with hmap := hmClear z.hmap }
  let z ← treeDispose z.fuel z z.root
  .ok { z with root := none }

end Greenis
