/-
  Implicit binary heaps with one item out of place.

  `key i` is the key at index `i < n`; the parent of `i > 0` is `(i - 1) / 2`. `IsHeap` is the
  min-heap order. A sift moves one item, at index `pos`: `Except` is the order everywhere else,
  `UpHole` and `DownHole` add what the two directions need. Each direction has a step lemma
  (swap with the parent, or with the least child) and a stop lemma (`IsHeap`).
-/
import Mathlib.Order.Lattice
import Mathlib.Order.Nat

namespace BinaryHeap

variable {κ : Type} [LinearOrder κ]

def parent (i : Nat) : Nat := (i - 1) / 2

/-- `c` is a child of `p`. -/
def IsChild (c p : Nat) : Prop := 0 < c ∧ parent c = p

theorem isChild_iff {c p : Nat} : IsChild c p ↔ c = 2 * p + 1 ∨ c = 2 * p + 2 := by
  unfold IsChild parent
  omega

theorem parent_lt {i : Nat} (h : 0 < i) : parent i < i := by
  unfold parent
  omega

theorem IsChild.lt {c p : Nat} (h : IsChild c p) : p < c := h.2 ▸ parent_lt h.1

variable (key : Nat → κ) (n : Nat)

def IsHeap : Prop := ∀ i, 0 < i → i < n → key (parent i) ≤ key i

/-- Ordered away from `pos`, and also across it, from its parent to its children. -/
structure Except (pos : Nat) : Prop where
  away : ∀ i, 0 < i → i < n → i ≠ pos → parent i ≠ pos → key (parent i) ≤ key i
  across : 0 < pos → ∀ c, IsChild c pos → c < n → key (parent pos) ≤ key c

/-- What sifting up needs: `pos` is in order with its children. -/
structure UpHole (pos : Nat) : Prop extends Except key n pos where
  below : ∀ c, IsChild c pos → c < n → key pos ≤ key c

/-- What sifting down needs: `pos` is in order with its parent. -/
structure DownHole (pos : Nat) : Prop extends Except key n pos where
  above : 0 < pos → pos < n → key (parent pos) ≤ key pos

variable {key n}

theorem IsHeap.except (h : IsHeap key n) (pos : Nat) : Except key n pos where
  away i hi hn _ _ := h i hi hn
  across hpos c hc hn :=
    le_trans (h pos hpos (lt_trans hc.lt hn)) (by have := h c hc.1 hn; rwa [hc.2] at this)

/-- The root is a least key. -/
theorem IsHeap.root_le (h : IsHeap key n) : ∀ i, i < n → key 0 ≤ key i := by
  intro i
  induction i using Nat.strongRecOn with
  | ind i ih =>
    intro hi
    rcases Nat.eq_zero_or_pos i with rfl | hpos
    · exact le_refl _
    · have hp := parent_lt hpos
      exact le_trans (ih _ hp (lt_trans hp hi)) (h i hpos hi)

/-- The order away from `pos` does not look at the key of `pos`. -/
theorem Except.congr {key' : Nat → κ} {n' pos : Nat} (h : Except key n pos) (hn : n' ≤ n)
    (hk : ∀ i, i < n' → i ≠ pos → key' i = key i) : Except key' n' pos where
  away i hi hn' hne hpne := by
    have hp := parent_lt hi
    rw [hk i hn' hne, hk _ (lt_trans hp hn') hpne]
    exact h.away i hi (lt_of_lt_of_le hn' hn) hne hpne
  across hpos c hc hn' := by
    have hp := parent_lt hpos
    have hcp := hc.lt
    rw [hk c hn' (ne_of_gt hcp), hk _ (lt_trans hp (lt_trans hcp hn')) (ne_of_lt hp)]
    exact h.across hpos c hc (lt_of_lt_of_le hn' hn)

/-- `key'` is `key` with `i` and `j` swapped. -/
structure Swapped (key key' : Nat → κ) (i j : Nat) : Prop where
  left : key' i = key j
  right : key' j = key i
  other : ∀ k, k ≠ i → k ≠ j → key' k = key k

theorem Except.toUp {pos : Nat} (h : Except key n pos) (hpos : 0 < pos)
    (hlt : key pos < key (parent pos)) : UpHole key n pos where
  toExcept := h
  below c hc hn := le_trans (le_of_lt hlt) (h.across hpos c hc hn)

theorem UpHole.step {key' : Nat → κ} {pos : Nat} (h : UpHole key n pos) (hpos : 0 < pos)
    (hn : pos < n) (hlt : key pos < key (parent pos)) (hs : Swapped key key' pos (parent pos)) :
    UpHole key' n (parent pos) := by
  have hp := parent_lt hpos
  -- Everything at or below the old parent is at least the key that moves up.
  have hpp : 0 < parent pos → key (parent (parent pos)) ≤ key (parent pos) := fun h0 =>
    h.away _ h0 (lt_trans hp hn) (ne_of_lt hp) (ne_of_lt (lt_trans (parent_lt h0) hp))
  have hsib : ∀ c, IsChild c (parent pos) → c < n → c ≠ pos → key (parent pos) ≤ key c := by
    intro c hc hcn hne
    have := h.away c hc.1 hcn hne (by rw [hc.2]; exact ne_of_lt hp)
    rwa [hc.2] at this
  refine ⟨⟨?_, ?_⟩, ?_⟩
  · intro i hi hin hne hpne
    have hipos : i ≠ pos := fun e => hpne (by rw [e])
    rw [hs.other i hipos hne]
    by_cases hpi : parent i = pos
    · rw [hpi, hs.left]
      exact h.across hpos i ⟨hi, hpi⟩ hin
    · rw [hs.other _ hpi hpne]
      exact h.away i hi hin hipos hpi
  · intro h0 c hc hcn
    have hgp := parent_lt h0
    rw [hs.other _ (ne_of_lt (lt_trans hgp hp)) (ne_of_lt hgp)]
    by_cases hcp : c = pos
    · rw [hcp, hs.left]
      exact hpp h0
    · rw [hs.other c hcp (ne_of_gt hc.lt)]
      exact le_trans (hpp h0) (hsib c hc hcn hcp)
  · intro c hc hcn
    rw [hs.right]
    by_cases hcp : c = pos
    · rw [hcp, hs.left]
      exact le_of_lt hlt
    · rw [hs.other c hcp (ne_of_gt hc.lt)]
      exact le_trans (le_of_lt hlt) (hsib c hc hcn hcp)

theorem UpHole.stop {pos : Nat} (h : UpHole key n pos)
    (hs : 0 < pos → key (parent pos) ≤ key pos) : IsHeap key n := by
  intro i hi hin
  by_cases hip : i = pos
  · subst hip
    exact hs hi
  · by_cases hpi : parent i = pos
    · rw [hpi]
      exact h.below i ⟨hi, hpi⟩ hin
    · exact h.away i hi hin hip hpi

theorem DownHole.step {key' : Nat → κ} {pos m : Nat} (h : DownHole key n pos) (hm : IsChild m pos)
    (hmin : ∀ c, IsChild c pos → c < n → key m ≤ key c) (hmn : m < n) (hlt : key m < key pos)
    (hs : Swapped key key' pos m) : DownHole key' n m := by
  have hpm := hm.lt
  refine ⟨⟨?_, ?_⟩, ?_⟩
  · intro i hi hin hne hpne
    by_cases hip : i = pos
    · subst hip
      have hp := parent_lt hi
      rw [hs.left, hs.other _ (ne_of_lt hp) (ne_of_lt (lt_trans hp hpm))]
      exact h.across hi m hm hmn
    · rw [hs.other i hip hne]
      by_cases hpi : parent i = pos
      · rw [hpi, hs.left]
        exact hmin i ⟨hi, hpi⟩ hin
      · rw [hs.other _ hpi hpne]
        exact h.away i hi hin hip hpi
  · intro _ c hc hcn
    have hmc := hc.lt
    rw [hm.2, hs.left, hs.other c (ne_of_gt (lt_trans hpm hmc)) (ne_of_gt hmc)]
    have := h.away c hc.1 hcn (ne_of_gt (lt_trans hpm hmc)) (by rw [hc.2]; exact ne_of_gt hpm)
    rwa [hc.2] at this
  · intro _ _
    rw [hm.2, hs.left, hs.right]
    exact le_of_lt hlt

theorem DownHole.stop {pos : Nat} (h : DownHole key n pos)
    (hs : ∀ c, IsChild c pos → c < n → key pos ≤ key c) : IsHeap key n := by
  intro i hi hin
  by_cases hip : i = pos
  · subst hip
    exact h.above hi hin
  · by_cases hpi : parent i = pos
    · rw [hpi]
      exact hs i ⟨hi, hpi⟩ hin
    · exact h.away i hi hin hip hpi

end BinaryHeap
