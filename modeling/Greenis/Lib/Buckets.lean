/-
  Arrays of buckets: lists of lists in which every item lies in the bucket a filing function
  names. Adding an item to a bucket and taking one out change the contents (`flatten`) by
  exactly that item, and keep the filing.
-/
import Mathlib.Data.List.Perm.Basic

namespace Buckets

variable {β : Type}

/-- Every item of bucket `i` is filed under `i`. -/
def Filed (f : β → Nat) (slots : List (List β)) : Prop :=
  ∀ i ns, slots[i]? = some ns → ∀ n ∈ ns, f n = i

theorem set_split {slots : List (List β)} {i : Nat} {ns : List β} (h : slots[i]? = some ns) :
    ∃ pre post, slots = pre ++ ns :: post ∧ ∀ ns', slots.set i ns' = pre ++ ns' :: post := by
  obtain ⟨hi, hc⟩ := List.getElem?_eq_some_iff.mp h
  refine ⟨slots.take i, slots.drop (i + 1), ?_, ?_⟩
  · rw [← hc, List.getElem_cons_drop, List.take_append_drop]
  · intro ns'
    rw [List.set_eq_take_append_cons_drop, if_pos hi]

theorem flatten_set_cons {slots : List (List β)} {i : Nat} {ns : List β} (h : slots[i]? = some ns)
    (n : β) : (slots.set i (n :: ns)).flatten.Perm (n :: slots.flatten) := by
  obtain ⟨pre, post, hs, hset⟩ := set_split h
  rw [hset, hs]
  simp only [List.flatten_append, List.flatten_cons, List.cons_append]
  exact List.perm_middle

theorem perm_eraseIdx {ns : List β} {j : Nat} {n : β} (h : ns[j]? = some n) :
    ns.Perm (n :: ns.eraseIdx j) := by
  obtain ⟨hj, hn⟩ := List.getElem?_eq_some_iff.mp h
  rw [← hn]
  exact (List.getElem_cons_eraseIdx_perm hj).symm

theorem flatten_set_eraseIdx {slots : List (List β)} {i j : Nat} {ns : List β} {n : β}
    (hc : slots[i]? = some ns) (hn : ns[j]? = some n) :
    slots.flatten.Perm (n :: (slots.set i (ns.eraseIdx j)).flatten) := by
  obtain ⟨pre, post, hs, hset⟩ := set_split hc
  rw [hset, hs]
  simp only [List.flatten_append, List.flatten_cons]
  have hc' : (ns ++ post.flatten).Perm (n :: ns.eraseIdx j ++ post.flatten) :=
    (perm_eraseIdx hn).append_right _
  exact (hc'.append_left _).trans List.perm_middle

theorem Filed.set {f : β → Nat} {slots : List (List β)} (hf : Filed f slots) {i : Nat}
    {ns' : List β} (hc' : ∀ n ∈ ns', f n = i) : Filed f (slots.set i ns') := by
  intro k ns hk n hn
  by_cases hki : k = i
  · subst hki
    have hlt : k < slots.length := by
      by_contra hge
      rw [List.set_eq_of_length_le (by omega), List.getElem?_eq_none (by omega)] at hk
      cases hk
    rw [List.getElem?_set_self hlt] at hk
    cases hk
    exact hc' n hn
  · rw [List.getElem?_set_ne (Ne.symm hki)] at hk
    exact hf k ns hk n hn

theorem Filed.set_cons {f : β → Nat} {slots : List (List β)} (hf : Filed f slots) {i : Nat}
    {ns : List β} (hc : slots[i]? = some ns) {n : β} (hn : f n = i) :
    Filed f (slots.set i (n :: ns)) := by
  refine hf.set fun m hm => ?_
  rcases List.mem_cons.mp hm with rfl | hm
  · exact hn
  · exact hf i ns hc m hm

theorem Filed.set_eraseIdx {f : β → Nat} {slots : List (List β)} (hf : Filed f slots) {i : Nat}
    {ns : List β} (hc : slots[i]? = some ns) (j : Nat) : Filed f (slots.set i (ns.eraseIdx j)) :=
  hf.set fun m hm => hf i ns hc m (List.mem_of_mem_eraseIdx hm)

theorem Filed.replicate_nil (f : β → Nat) (n : Nat) : Filed f (List.replicate n []) := by
  intro i ns hi m hm
  have hc := List.eq_of_mem_replicate (List.mem_of_getElem? hi)
  subst hc
  cases hm

theorem mem_flatten_of_getElem? {slots : List (List β)} {i : Nat} {ns : List β} {n : β}
    (hc : slots[i]? = some ns) (hn : n ∈ ns) : n ∈ slots.flatten :=
  List.mem_flatten.mpr ⟨ns, List.mem_of_getElem? hc, hn⟩

/-- In a filed table an item is in the bucket it is filed under. -/
theorem Filed.mem_bucket {f : β → Nat} {slots : List (List β)} (hf : Filed f slots) {n : β}
    (hn : n ∈ slots.flatten) : ∃ ns, slots[f n]? = some ns ∧ n ∈ ns := by
  obtain ⟨ns, hc, hnc⟩ := List.mem_flatten.mp hn
  obtain ⟨i, hi⟩ := List.mem_iff_getElem?.mp hc
  exact ⟨ns, by rw [hf i ns hi n hnc]; exact hi, hnc⟩

/-- If all buckets below `k` are empty and something is stored, it is in a bucket from `k` on. -/
theorem exists_bucket_of_below_empty {slots : List (List β)} {k : Nat}
    (hk : ∀ i ns, i < k → slots[i]? = some ns → ns = []) (hne : slots.flatten ≠ []) :
    ∃ i ns, k ≤ i ∧ i < slots.length ∧ slots[i]? = some ns ∧ ns ≠ [] := by
  obtain ⟨n, hn⟩ := List.exists_mem_of_ne_nil _ hne
  obtain ⟨ns, hc, hnc⟩ := List.mem_flatten.mp hn
  obtain ⟨i, hi⟩ := List.mem_iff_getElem?.mp hc
  have hns : ns ≠ [] := List.ne_nil_of_mem hnc
  refine ⟨i, ns, ?_, (List.getElem?_eq_some_iff.mp hi).1, hi, hns⟩
  by_contra hlt
  exact hns (hk i ns (by omega) hi)

end Buckets
