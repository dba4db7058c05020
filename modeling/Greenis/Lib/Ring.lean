/-
  Circular doubly linked lists.

  `Seg m a xs z` is a path from `a` over the nodes `xs` to `z` along which `next` and `prev` are
  inverse to each other. A ring with the head `head` is such a path from `head` back to it over
  pairwise different nodes. The two changes to a ring, a node less and a node more before the head,
  both give the end of a path another target (`Seg.retarget`).
-/
import Greenis.Lib.Exec
import Mathlib.Data.List.Nodup

namespace Ring
open CExec

structure Node where
  prev : Option Ptr := none
  next : Option Ptr := none

variable {m m' : Store Node}

def nextOf (m : Store Node) (p : Ptr) : Option Ptr := (m p).bind Node.next

def prevOf (m : Store Node) (p : Ptr) : Option Ptr := (m p).bind Node.prev

/-! ## Links -/

theorem isSome_of_next {p q : Ptr} (h : nextOf m p = some q) : (m p).isSome = true := by
  obtain ⟨n, hn, -⟩ := Option.bind_eq_some_iff.mp h
  rw [hn]
  rfl

theorem isSome_of_prev {p q : Ptr} (h : prevOf m p = some q) : (m p).isSome = true := by
  obtain ⟨n, hn, -⟩ := Option.bind_eq_some_iff.mp h
  rw [hn]
  rfl

/-- What a store of one link leaves: `next'` and `prev'` are the links afterwards. -/
structure Relinked (m m' : Store Node) (next' prev' : Ptr → Option Ptr) : Prop where
  next : ∀ p, nextOf m' p = next' p
  prev : ∀ p, prevOf m' p = prev' p
  alloc : ∀ p, (m' p).isSome = (m p).isSome

theorem modify_next {q : Ptr} (h : (m q).isSome = true) (b : Ptr) :
    ∃ m', m.modify q (fun n => { n with next := some b }) = .ok m' ∧
      Relinked m m' (fun p => if p = q then some b else nextOf m p) (prevOf m) := by
  obtain ⟨n, hn⟩ := Option.isSome_iff_exists.mp h
  refine ⟨_, Store.modify_of hn _, fun p => ?_, fun p => ?_, fun p => ?_⟩
  · unfold nextOf
    rw [Store.write_apply]
    split <;> rfl
  · unfold prevOf
    rw [Store.write_apply]
    split
    · subst p
      rw [hn]
      rfl
    · rfl
  · rw [Store.write_apply]
    split
    · subst p
      rw [hn]
      rfl
    · rfl

theorem modify_prev {q : Ptr} (h : (m q).isSome = true) (b : Ptr) :
    ∃ m', m.modify q (fun n => { n with prev := some b }) = .ok m' ∧
      Relinked m m' (nextOf m) (fun p => if p = q then some b else prevOf m p) := by
  obtain ⟨n, hn⟩ := Option.isSome_iff_exists.mp h
  refine ⟨_, Store.modify_of hn _, fun p => ?_, fun p => ?_, fun p => ?_⟩
  · unfold nextOf
    rw [Store.write_apply]
    split
    · subst p
      rw [hn]
      rfl
    · rfl
  · unfold prevOf
    rw [Store.write_apply]
    split <;> rfl
  · rw [Store.write_apply]
    split
    · subst p
      rw [hn]
      rfl
    · rfl

/-! ## Paths -/

def Joined (m : Store Node) (a b : Ptr) : Prop := nextOf m a = some b ∧ prevOf m b = some a

/-- A path from `a` over `xs` to `z`. -/
def Seg (m : Store Node) : Ptr → List Ptr → Ptr → Prop
  | a, [], z => Joined m a z
  | a, x :: xs, z => Joined m a x ∧ Seg m x xs z

structure IsRing (m : Store Node) (head : Ptr) (xs : List Ptr) : Prop where
  seg : Seg m head xs head
  nodup : (head :: xs).Nodup

theorem seg_append {a p z : Ptr} {xs ys : List Ptr} :
    Seg m a (xs ++ p :: ys) z ↔ Seg m a xs p ∧ Seg m p ys z := by
  induction xs generalizing a with
  | nil => rfl
  | cons x xs ih =>
    rw [List.cons_append, Seg, Seg, ih, and_assoc]

/-- A path depends on the links of its nodes only. -/
theorem Seg.congr {a z : Ptr} {xs : List Ptr} (h : Seg m a xs z)
    (hnext : ∀ x ∈ a :: xs, nextOf m' x = nextOf m x)
    (hprev : ∀ x ∈ xs ++ [z], prevOf m' x = prevOf m x) : Seg m' a xs z := by
  induction xs generalizing a with
  | nil =>
    refine ⟨?_, ?_⟩
    · rw [hnext a List.mem_cons_self]
      exact h.1
    · rw [hprev z (List.mem_singleton_self z)]
      exact h.2
  | cons x xs ih =>
    refine ⟨⟨?_, ?_⟩, ih h.2 (fun y hy => hnext y (List.mem_cons_of_mem _ hy))
      fun y hy => hprev y (List.mem_cons_of_mem _ hy)⟩
    · rw [hnext a List.mem_cons_self]
      exact h.1.1
    · rw [hprev x List.mem_cons_self]
      exact h.1.2

/-- The last step of a path. -/
theorem Seg.exists_prev {a z : Ptr} {xs : List Ptr} (h : Seg m a xs z) :
    ∃ p ∈ a :: xs, prevOf m z = some p ∧ nextOf m p = some z := by
  induction xs generalizing a with
  | nil => exact ⟨a, List.mem_cons_self, h.2, h.1⟩
  | cons x xs ih =>
    obtain ⟨p, hp, hlinks⟩ := ih h.2
    exact ⟨p, List.mem_cons_of_mem _ hp, hlinks⟩

/-- The first step of a path. -/
theorem Seg.exists_next {a z : Ptr} {xs : List Ptr} (h : Seg m a xs z) :
    ∃ n ∈ xs ++ [z], nextOf m a = some n ∧ prevOf m n = some a := by
  cases xs with
  | nil => exact ⟨z, List.mem_singleton_self z, h⟩
  | cons x xs => exact ⟨x, List.mem_cons_self, h.1⟩

/-- The last node of a path is given another successor. -/
theorem Seg.retarget {a z n p : Ptr} {xs : List Ptr} (h : Seg m a xs z) (hp : prevOf m z = some p)
    (hnodup : (a :: xs).Nodup) (hjoin : Joined m' p n)
    (hnext : ∀ x ∈ a :: xs, x ≠ p → nextOf m' x = nextOf m x)
    (hprev : ∀ x ∈ xs, prevOf m' x = prevOf m x) : Seg m' a xs n := by
  induction xs generalizing a with
  | nil =>
    obtain rfl : a = p := Option.some.inj (h.2.symm.trans hp)
    exact hjoin
  | cons x xs ih =>
    obtain ⟨q, hq, hqz, -⟩ := h.2.exists_prev
    obtain rfl : q = p := Option.some.inj (hqz.symm.trans hp)
    have hne : a ≠ q := fun heq => (List.nodup_cons.mp hnodup).1 (heq ▸ hq)
    refine ⟨⟨?_, ?_⟩, ih h.2 (List.nodup_cons.mp hnodup).2
      (fun y hy => hnext y (List.mem_cons_of_mem _ hy))
      fun y hy => hprev y (List.mem_cons_of_mem _ hy)⟩
    · rw [hnext a List.mem_cons_self hne]
      exact h.1.1
    · rw [hprev x List.mem_cons_self]
      exact h.1.2

/-- A node occurs in its ring once. -/
theorem IsRing.not_mem {head x : Ptr} {xs ys : List Ptr} (h : IsRing m head (xs ++ x :: ys)) :
    x ∉ head :: (xs ++ ys) := by
  have hnodup := h.nodup
  rw [← List.cons_append, List.nodup_middle] at hnodup
  exact (List.nodup_cons.mp hnodup).1

theorem IsRing.isSome {head x : Ptr} {xs ys : List Ptr} (h : IsRing m head (xs ++ x :: ys)) :
    (m x).isSome = true := by
  obtain ⟨n, -, hn, -⟩ := (seg_append.mp h.seg).2.exists_next
  exact isSome_of_next hn

/-- A ring depends on the links of its nodes only. -/
theorem IsRing.congr {head : Ptr} {xs : List Ptr} (h : IsRing m head xs)
    (hnode : ∀ x ∈ head :: xs, m' x = m x) : IsRing m' head xs := by
  refine ⟨h.seg.congr (fun x hx => ?_) fun x hx => ?_, h.nodup⟩
  · rw [nextOf, hnode x hx, nextOf]
  · have hmem : x ∈ head :: xs := by
      rcases List.mem_append.mp hx with hx | hx
      · exact List.mem_cons_of_mem _ hx
      · rw [List.mem_singleton.mp hx]
        exact List.mem_cons_self
    rw [prevOf, hnode x hmem, prevOf]

/-- A node more, before the head. -/
theorem IsRing.insert {head x p : Ptr} {xs : List Ptr} (h : IsRing m head xs)
    (hx : x ∉ head :: xs) (hp : prevOf m head = some p) (hpx : Joined m' p x)
    (hxh : Joined m' x head)
    (hnext : ∀ y ∈ head :: xs, y ≠ p → nextOf m' y = nextOf m y)
    (hprev : ∀ y ∈ xs, prevOf m' y = prevOf m y) : IsRing m' head (xs ++ [x]) := by
  refine ⟨seg_append.mpr ⟨h.seg.retarget hp h.nodup hpx hnext hprev, hxh⟩, ?_⟩
  rw [← List.cons_append]
  apply List.nodup_append.mpr
  refine ⟨h.nodup, by simp, fun y hy z hz => ?_⟩
  rw [List.mem_singleton.mp hz]
  exact fun heq => hx (heq ▸ hy)

/-- A node less. -/
theorem IsRing.erase {head x p n : Ptr} {xs ys : List Ptr} (h : IsRing m head (xs ++ x :: ys))
    (hp : prevOf m x = some p) (hn : nextOf m x = some n) (hpn : Joined m' p n)
    (hnext : ∀ y ∈ head :: (xs ++ ys), y ≠ p → nextOf m' y = nextOf m y)
    (hprev : ∀ y ∈ head :: (xs ++ ys), y ≠ n → prevOf m' y = prevOf m y) :
    IsRing m' head (xs ++ ys) := by
  obtain ⟨hleft, hright⟩ := seg_append.mp h.seg
  have hnodup : (head :: (xs ++ ys)).Nodup :=
    h.nodup.sublist (((List.sublist_cons_self x ys).append_left xs).cons_cons head)
  have hnodupLeft : (head :: xs).Nodup :=
    hnodup.sublist ((List.sublist_append_left xs ys).cons_cons head)
  have hdisjoint : ∀ y ∈ head :: xs, y ∉ ys := by
    rw [← List.cons_append] at hnodup
    exact fun y hy hy' => (List.nodup_append.mp hnodup).2.2 y hy y hy' rfl
  have hmemLeft : ∀ y ∈ head :: xs, y ∈ head :: (xs ++ ys) := fun y hy => by
    rw [← List.cons_append]
    exact List.mem_append_left _ hy
  have hmemRight : ∀ y ∈ ys, y ∈ head :: (xs ++ ys) := fun y hy =>
    List.mem_cons_of_mem _ (List.mem_append_right _ hy)
  obtain ⟨q, hq, hqx, -⟩ := hleft.exists_prev
  obtain rfl : q = p := Option.some.inj (hqx.symm.trans hp)
  refine ⟨?_, hnodup⟩
  -- The path to `x` ends where the path from `x` goes on.
  have hstep : ∀ z, n = z → (∀ y ∈ xs, y ≠ z) → Seg m' head xs z := by
    rintro z rfl hz
    apply hleft.retarget hp hnodupLeft hpn
    · exact fun y hy => hnext y (hmemLeft y hy)
    · exact fun y hy => hprev y (hmemLeft y (List.mem_cons_of_mem _ hy)) (hz y hy)
  cases ys with
  | nil =>
    rw [List.append_nil]
    apply hstep head (Option.some.inj (hn.symm.trans hright.1))
    exact fun y hy heq => (List.nodup_cons.mp hnodupLeft).1 (heq ▸ hy)
  | cons v vs =>
    obtain rfl : n = v := Option.some.inj (hn.symm.trans hright.1.1)
    have hvs : ∀ y ∈ vs, y ≠ n := fun y hy heq => by
      have hvnodup := (List.nodup_append.mp (List.nodup_cons.mp hnodup).2).2.1
      exact (List.nodup_cons.mp hvnodup).1 (heq ▸ hy)
    apply seg_append.mpr
    refine ⟨hstep n rfl fun y hy heq => ?_, hright.2.congr ?_ ?_⟩
    · exact hdisjoint y (List.mem_cons_of_mem _ hy) (heq ▸ List.mem_cons_self)
    · intro y hy
      apply hnext y (hmemRight y hy)
      exact fun heq => hdisjoint q hq (heq ▸ hy)
    · intro y hy
      rcases List.mem_append.mp hy with hy | hy
      · exact hprev y (hmemRight y (List.mem_cons_of_mem _ hy)) (hvs y hy)
      · rw [List.mem_singleton.mp hy]
        apply hprev head List.mem_cons_self
        exact fun heq => hdisjoint head List.mem_cons_self (heq ▸ List.mem_cons_self)

end Ring
