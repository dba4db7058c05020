/-
  The grammar of replies.

  A value is nil, an error, a string, eight bytes of a number, or an array of values; counts and
  lengths are 32-bit fields. What `Reply.encode` yields is a value as long as no field is cut off.
  `Reaches` are the places where a reader of the grammar comes to in some bytes, and `Wraps` are the
  headers whose length leaves no room in 32 bits for the header itself.
-/
import Greenis.Spec.Reply

namespace Greenis
open LittleEndian

inductive IsValue : Bytes → Prop
  | nil : IsValue [tagNil]
  | err {code msg : Bytes} : code.length = 4 → msg.length < 2 ^ 32 →
      IsValue (tagErr :: (code ++ bytesOf 4 msg.length ++ msg))
  | str {s : Bytes} : s.length < 2 ^ 32 → IsValue (tagStr :: (bytesOf 4 s.length ++ s))
  | int {val : Bytes} : val.length = 8 → IsValue (tagInt :: val)
  | dbl {val : Bytes} : val.length = 8 → IsValue (tagDbl :: val)
  | arr {vs : List Bytes} : vs.length < 2 ^ 32 → (∀ v ∈ vs, IsValue v) →
      IsValue (tagArr :: (bytesOf 4 vs.length ++ vs.flatten))

theorem IsValue.length_pos {v : Bytes} (h : IsValue v) : 1 ≤ v.length := by
  cases h <;> exact Nat.succ_le_succ (Nat.zero_le _)

/-- Parts that take at least a byte each. -/
theorem length_le_flatten {vs : List Bytes} (h : ∀ v ∈ vs, 1 ≤ v.length) :
    vs.length ≤ vs.flatten.length := by
  induction vs with
  | nil => exact Nat.le_refl _
  | cons v vs ih =>
    have hv := h v List.mem_cons_self
    have hvs := ih fun w hw => h w (List.mem_cons_of_mem _ hw)
    rw [List.flatten_cons, List.length_append, List.length_cons]
    omega

/-- A header with a length that is too large for the sum with the size of the header. -/
inductive Wraps : Bytes → Prop
  | err {code rest : Bytes} {len : Nat} : code.length = 4 → 2 ^ 32 ≤ 9 + len → len < 2 ^ 32 →
      Wraps (tagErr :: (code ++ bytesOf 4 len ++ rest))
  | str {rest : Bytes} {len : Nat} : 2 ^ 32 ≤ 5 + len → len < 2 ^ 32 →
      Wraps (tagStr :: (bytesOf 4 len ++ rest))

/-- In `data`, a reader comes to `sub`: at the beginning, or after some values of an array that has
    more of them. -/
inductive Reaches : Bytes → Bytes → Prop
  | here (data : Bytes) : Reaches data data
  | elem {n : Nat} {vs : List Bytes} {rest sub : Bytes} : n < 2 ^ 32 → vs.length < n →
      (∀ v ∈ vs, IsValue v) → Reaches rest sub →
      Reaches (tagArr :: (bytesOf 4 n ++ (vs.flatten ++ rest))) sub

theorem Reaches.trans {data sub deep : Bytes} (h : Reaches data sub) (h' : Reaches sub deep) :
    Reaches data deep := by
  induction h with
  | here => exact h'
  | elem hn hvs hval _ ih => exact .elem hn hvs hval (ih h')

theorem Reaches.length_le {data sub : Bytes} (h : Reaches data sub) :
    sub.length ≤ data.length := by
  induction h with
  | here => exact Nat.le_refl _
  | elem _ _ _ _ ih =>
    simp only [List.length_cons, List.length_append]
    omega

/-! ## What the server encodes -/

theorem Scalar.isValue {v : Scalar} (h : v.encode.length < 2 ^ 32) : IsValue v.encode := by
  cases v with
  | nil => exact .nil
  | err code msg =>
    apply IsValue.err (length_bytesOf 4 _)
    simp only [Scalar.encode, List.length_cons, List.length_append, length_bytesOf] at h
    omega
  | str s =>
    apply IsValue.str
    simp only [Scalar.encode, List.length_cons, List.length_append, length_bytesOf] at h
    omega
  | int val => exact .int (length_bytesOf 8 _)
  | dbl val => exact .dbl (length_bytesOf 8 _)

theorem Scalar.length_pos (v : Scalar) : 1 ≤ v.encode.length := by
  cases v <;> exact Nat.succ_le_succ (Nat.zero_le _)

theorem length_encodeAll (vs : List Scalar) : vs.length ≤ (encodeAll vs).length := by
  have h : (vs.map Scalar.encode).length ≤ (vs.map Scalar.encode).flatten.length := by
    apply length_le_flatten
    intro b hb
    obtain ⟨v, -, rfl⟩ := List.mem_map.mp hb
    exact v.length_pos
  rwa [List.length_map, ← List.flatMap_def] at h

/-- A reply is a value, and the count of an array is the number of its elements. -/
theorem Reply.isValue {r : Reply} (h : r.encode.length < 2 ^ 32) : IsValue r.encode := by
  cases r with
  | one v => exact Scalar.isValue h
  | arr vs =>
    have hlen : 5 + (encodeAll vs).length < 2 ^ 32 := by
      simp only [Reply.encode, List.length_cons, List.length_append, length_bytesOf] at h
      omega
    have hcount := length_encodeAll vs
    have heach : ∀ v ∈ vs.map Scalar.encode, IsValue v := by
      intro b hb
      obtain ⟨v, hv, rfl⟩ := List.mem_map.mp hb
      apply Scalar.isValue
      have hle : v.encode.length ≤ (encodeAll vs).length := by
        unfold encodeAll
        rw [List.flatMap_def]
        exact (List.sublist_flatten_of_mem hb).length_le
      omega
    have hmap : (vs.map Scalar.encode).length < 2 ^ 32 := by
      rw [List.length_map]
      omega
    have harr := IsValue.arr hmap heach
    rw [List.length_map, ← List.flatMap_def] at harr
    exact harr

end Greenis
