/-
  Finite maps by their lookups.
-/
import Mathlib.Data.Finmap

namespace Finmap

variable {α β : Type} [DecidableEq α]

/-- A function that is defined on listed keys only is the lookup of a finite map. -/
theorem exists_lookup_eq (ks : List α) : ∀ f : α → Option β, (∀ k, f k ≠ none → k ∈ ks) →
    ∃ m : Finmap fun _ : α => β, ∀ k, m.lookup k = f k := by
  induction ks with
  | nil =>
    intro f hf
    refine ⟨∅, fun k => ?_⟩
    rw [lookup_empty]
    by_contra hne
    exact List.not_mem_nil (hf k (Ne.symm hne))
  | cons k ks ih =>
    intro f hf
    obtain ⟨m, hm⟩ := ih (Function.update f k none) fun j hj => by
      by_cases hjk : j = k
      · rw [hjk, Function.update_self] at hj
        exact absurd rfl hj
      · rw [Function.update_of_ne hjk] at hj
        exact (List.mem_cons.mp (hf j hj)).resolve_left hjk
    cases hk : f k with
    | none =>
      refine ⟨m, fun j => ?_⟩
      by_cases hjk : j = k
      · rw [hm, hjk, Function.update_self, hk]
      · rw [hm, Function.update_of_ne hjk]
    | some v =>
      refine ⟨m.insert k v, fun j => ?_⟩
      by_cases hjk : j = k
      · rw [hjk, lookup_insert, hk]
      · rw [lookup_insert_of_ne _ hjk, hm, Function.update_of_ne hjk]

theorem insert_of_lookup {m : Finmap fun _ : α => β} {k : α} {v : β} (h : m.lookup k = some v) :
    m.insert k v = m := by
  refine ext_lookup fun j => ?_
  by_cases hjk : j = k
  · rw [hjk, lookup_insert, h]
  · rw [lookup_insert_of_ne _ hjk]

theorem lookup_insert_cases {m : Finmap fun _ : α => β} {k j : α} {v w : β}
    (h : (m.insert k v).lookup j = some w) : (j = k ∧ w = v) ∨ m.lookup j = some w := by
  by_cases hjk : j = k
  · rw [hjk, lookup_insert] at h
    exact Or.inl ⟨hjk, (Option.some.inj h).symm⟩
  · rw [lookup_insert_of_ne _ hjk] at h
    exact Or.inr h

theorem lookup_erase_some {m : Finmap fun _ : α => β} {k j : α} {w : β}
    (h : (m.erase k).lookup j = some w) : m.lookup j = some w := by
  by_cases hjk : j = k
  · rw [hjk, lookup_erase] at h
    cases h
  · rwa [lookup_erase_ne hjk] at h

theorem card_insert_le (m : Finmap fun _ : α => β) (k : α) (v : β) :
    (m.insert k v).keys.card ≤ m.keys.card + 1 := by
  have hsub : (m.insert k v).keys ⊆ Insert.insert k m.keys := fun j hj => by
    rw [Finset.mem_insert, mem_keys]
    exact mem_insert.mp (mem_keys.mp hj)
  exact (Finset.card_le_card hsub).trans (Finset.card_insert_le _ _)

theorem erase_of_lookup {m : Finmap fun _ : α => β} {k : α} (h : m.lookup k = none) :
    m.erase k = m := by
  refine ext_lookup fun j => ?_
  by_cases hjk : j = k
  · rw [hjk, lookup_erase, h]
  · rw [lookup_erase_ne hjk]

end Finmap
