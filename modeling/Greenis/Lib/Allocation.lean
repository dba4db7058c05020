/-
  How many cells of a memory are allocated.

  `m.used` is the set of addresses that are allocated. It is counted by a list that has each of them
  once, and so is a finite set whose members are the names of such cells (`card_eq_length`).
-/
import Mathlib.Data.Finset.Card
import Mathlib.Data.Set.Card
import Greenis.Lib.Exec

namespace CExec

theorem card_eq_length {ι κ : Type} [DecidableEq κ] {xs : List ι} {s : Finset κ} (f : ι → κ)
    (hn : xs.Nodup) (hinj : ∀ x ∈ xs, ∀ y ∈ xs, f x = f y → x = y)
    (hmem : ∀ k, k ∈ s ↔ ∃ x ∈ xs, f x = k) : s.card = xs.length := by
  have hs : s = (xs.map f).toFinset := Finset.ext fun k => by
    rw [hmem, List.mem_toFinset, List.mem_map]
  rw [hs, List.toFinset_card_of_nodup (hn.map_on fun x hx y hy => hinj x hx y hy), List.length_map]

namespace Store

variable {α : Type} {m : Store α} {xs : List Ptr}

/-- The addresses that are allocated. -/
def used (m : Store α) : Set Ptr := {p | m p ≠ none}

theorem mem_used {p : Ptr} : p ∈ m.used ↔ m p ≠ none := Iff.rfl

theorem encard_used (hn : xs.Nodup) (hmem : ∀ p, p ∈ m.used ↔ p ∈ xs) :
    m.used.encard = xs.length := by
  have hused : m.used = (xs.toFinset : Set Ptr) := Set.ext fun p => by
    rw [hmem, Finset.mem_coe, List.mem_toFinset]
  rw [hused, Set.encard_coe_eq_coe_finsetCard, List.toFinset_card_of_nodup hn]

end Store

end CExec
