/-
  `lib/server/heap.cpp`: an array min-heap whose items keep, through a pointer, the index they
  stand at.

  `ref` names the `size_t` cell an item points to; `Heap.idx` is the memory of these cells.
  A cell that holds `(size_t)-1` is `none`: no array has an item at that index.
-/
import Greenis.Lib.Exec

namespace Greenis
open CExec

structure HeapItem (ρ : Type) where
  val : UInt64
  ref : ρ
  deriving DecidableEq, Repr

/-- The array `a`, and the cells its items refer to. -/
structure Heap (ρ : Type) where
  a : List (HeapItem ρ) := []
  idx : ρ → Option Nat := fun _ => none

def heapParent (i : Nat) : Nat := (i + 1) / 2 - 1

def heapLeft (i : Nat) : Nat := i * 2 + 1

def heapRight (i : Nat) : Nat := i * 2 + 2

variable {ρ : Type} [DecidableEq ρ]

/-- `a[pos] = t; *a[pos].ref = pos;` -/
def Heap.put (h : Heap ρ) (pos : Nat) (t : HeapItem ρ) : Exec (Heap ρ) :=
  if pos < h.a.length then
    .ok { a := h.a.set pos t, idx := Function.update h.idx t.ref (some pos) }
  else .error .bounds

/-- The loop of `heap_up`. -/
def upLoop (t : HeapItem ρ) : Nat → Heap ρ → Nat → Exec (Heap ρ × Nat)
  | 0, _, _ => .error .fuel
  | fuel + 1, h, pos =>
    if 0 < pos then do
      let p ← index h.a (heapParent pos)
      if p.val > t.val then do
        let h ← h.put pos p
        upLoop t fuel h (heapParent pos)
      else .ok (h, pos)
    else .ok (h, pos)

def heapUp (h : Heap ρ) (pos : Nat) : Exec (Heap ρ) := do
  let t ← index h.a pos
  let (h, pos) ← upLoop t (pos + 1) h pos
  h.put pos t

/-- `if (kid < len && a[kid].val < min_val)`: the new `min_pos` and `min_val`. -/
def smaller (a : List (HeapItem ρ)) (len kid : Nat) (min : Nat × UInt64) : Exec (Nat × UInt64) :=
  if kid < len then do
    let k ← index a kid
    .ok (if k.val < min.2 then (kid, k.val) else min)
  else .ok min

/-- The loop of `heap_down`. -/
def downLoop (t : HeapItem ρ) (len : Nat) : Nat → Heap ρ → Nat → Exec (Heap ρ × Nat)
  | 0, _, _ => .error .fuel
  | fuel + 1, h, pos => do
    let m ← smaller h.a len (heapLeft pos) (pos, t.val)
    let m ← smaller h.a len (heapRight pos) m
    if m.1 = pos then .ok (h, pos)
    else do
      let kid ← index h.a m.1
      let h ← h.put pos kid
      downLoop t len fuel h m.1

def heapDown (h : Heap ρ) (pos len : Nat) : Exec (Heap ρ) := do
  let t ← index h.a pos
  let (h, pos) ← downLoop t len (len + 1) h pos
  h.put pos t

def heapUpdate (h : Heap ρ) (pos len : Nat) : Exec (Heap ρ) :=
  if 0 < pos then do
    let p ← index h.a (heapParent pos)
    let t ← index h.a pos
    if p.val > t.val then heapUp h pos else heapDown h pos len
  else heapDown h pos len

/-- `a[pos] = a.back(); a.pop_back();`, then put the moved item in its place. -/
def heapDelete (h : Heap ρ) (pos : Nat) : Exec (Heap ρ) := do
  let _ ← index h.a pos
  let back ← deref h.a.getLast?
  let h := { h with a := (h.a.set pos back).dropLast }
  if pos < h.a.length then heapUpdate h pos h.a.length else .ok h

def heapUpsert (h : Heap ρ) (pos : Option Nat) (t : HeapItem ρ) : Exec (Heap ρ) :=
  match pos.filter (· < h.a.length) with
  | some pos => heapUpdate { h with a := h.a.set pos t } pos (h.a.set pos t).length
  | none => heapUpdate { h with a := h.a ++ [t] } h.a.length (h.a ++ [t]).length

end Greenis
