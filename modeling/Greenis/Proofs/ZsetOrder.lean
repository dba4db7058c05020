/-
  `zless` is the order of the (score, name) tuples.

  The score test, the `memcmp` over the shorter name and the tie-break on the lengths decide one
  comparison of keys (`zless_spec`). The keys are in a linear order, so `zless` is a strict one on
  the nodes, and total between names that differ (`zless_lexicographic`).
-/
import Greenis.Model.Zset
import Greenis.Spec.Scores

namespace Greenis
open CExec

abbrev ZNode.key (zn : ZNode) : ℤ ×ₗ List Nat := tupleKey zn.score zn.name

/-- `memcmp` over the shorter length, with the lengths as a tie-break. -/
theorem memcmp_min (a b : Bytes) : ∃ r, memcmp a b (min a.length b.length) = .ok r ∧
    ((if r ≠ 0 then decide (r < 0) else decide (a.length < b.length)) = true ↔
      byteKey a < byteKey b) := by
  induction a generalizing b with
  | nil =>
    refine ⟨0, by cases b <;> rfl, ?_⟩
    cases b <;> simp [byteKey]
  | cons x a ih =>
    cases b with
    | nil => exact ⟨0, rfl, by simp [byteKey]⟩
    | cons y b =>
      rw [List.length_cons, List.length_cons, Nat.succ_min_succ]
      by_cases hxy : x = y
      · obtain ⟨r, hrun, hr⟩ := ih b
        refine ⟨r, by rw [memcmp, if_pos hxy, hrun], ?_⟩
        subst hxy
        simp only [byteKey] at hr
        simpa [byteKey, List.cons_lt_cons_iff] using hr
      · have hne : x.toNat ≠ y.toNat := fun h => hxy (UInt8.toNat_inj.mp h)
        refine ⟨x.toNat - y.toNat, by rw [memcmp, if_neg hxy], ?_⟩
        rw [if_pos (by omega), decide_eq_true_iff, byteKey, byteKey, List.map_cons, List.map_cons,
          List.cons_lt_cons_iff]
        omega

/-- `memcmp` of strings of one length. -/
theorem memcmp_same (a b : Bytes) (h : a.length = b.length) :
    ∃ r, memcmp a b a.length = .ok r ∧ (r = 0 ↔ a = b) := by
  induction a generalizing b with
  | nil => exact ⟨0, by cases b <;> rfl, by cases b <;> simp at h ⊢⟩
  | cons x a ih =>
    cases b with
    | nil => simp at h
    | cons y b =>
      by_cases hxy : x = y
      · obtain ⟨r, hrun, hr⟩ := ih b (by simpa using h)
        exact ⟨r, by rw [List.length_cons, memcmp, if_pos hxy, hrun], by simp [hr, hxy]⟩
      · have hne : x.toNat ≠ y.toNat := fun h => hxy (UInt8.toNat_inj.mp h)
        refine ⟨x.toNat - y.toNat, by rw [List.length_cons, memcmp, if_neg hxy], ?_⟩
        simp only [List.cons.injEq, hxy, false_and, iff_false]
        omega

theorem zless_spec {zl : ZNode} {score : Double} (name : Bytes) (hl : zl.score.isNaN = false)
    (hs : score.isNaN = false) :
    zless zl score name = .ok (decide (zl.key < tupleKey score name)) := by
  obtain ⟨r, hrun, hr⟩ := memcmp_min zl.name name
  unfold zless
  by_cases heq : zl.score.rank = score.rank
  · rw [(Binary64.eq_iff hl hs).mpr heq, if_neg (by simp), hrun, ok_bind]
    have hkey : decide (zl.key < tupleKey score name) =
        if r ≠ 0 then decide (r < 0) else decide (zl.name.length < name.length) := by
      rw [Bool.eq_iff_iff, hr, decide_eq_true_iff, tupleKey_lt]
      simp [heq]
    rw [hkey]
    split <;> rfl
  · have hne : zl.score.eq score = false := by
      rw [← Bool.not_eq_true, Binary64.eq_iff hl hs]
      exact heq
    rw [hne, if_pos (by simp)]
    congr 1
    rw [Bool.eq_iff_iff, Binary64.lt_iff hl hs, decide_eq_true_iff, tupleKey_lt]
    simp [heq]

/-! ## The order of the nodes -/

/-- The node at `p` is `zn`, and its score is a number. -/
structure ZSet.Holds (z : ZSet) (p : Ptr) (zn : ZNode) : Prop where
  load : z.node p = some zn
  number : zn.score.isNaN = false

section Order

variable {z : ZSet} {p q : Ptr} {zp zq : ZNode}

theorem zlessKey_of (hp : z.Holds p zp) {score : Double} (name : Bytes)
    (hs : score.isNaN = false) :
    zlessKey z p score name = .ok (decide (zp.key < tupleKey score name)) := by
  unfold zlessKey
  rw [Store.load_of hp.load, ok_bind, zless_spec name hp.number hs]

theorem zlessNode_of (hp : z.Holds p zp) (hq : z.Holds q zq) :
    zlessNode z p q = .ok (decide (zp.key < zq.key)) := by
  unfold zlessNode
  rw [Store.load_of hq.load, ok_bind, zlessKey_of hp zq.name hq.number]

theorem zlessNode_true (hp : z.Holds p zp) (hq : z.Holds q zq) :
    zlessNode z p q = .ok true ↔ zp.key < zq.key := by
  rw [zlessNode_of hp hq]
  simp

theorem zlessNode_false (hp : z.Holds p zp) (hq : z.Holds q zq) :
    zlessNode z p q = .ok false ↔ zq.key ≤ zp.key := by
  rw [zlessNode_of hp hq]
  simp

end Order

/-- **`zless` is the strict lexicographic order of the (score, name) tuples.** -/
theorem zless_lexicographic (z : ZSet) :
    (∀ p zp, z.Holds p zp → ∀ score name, score.isNaN = false →
      ∃ r, zlessKey z p score name = .ok r ∧
        (r = true ↔ zp.score.lt score = true ∨
          zp.score.eq score = true ∧ Precedes zp.name name)) ∧
    (∀ p q zp zq, z.Holds p zp → z.Holds q zq →
      zlessNode z p q = zlessKey z p zq.score zq.name) ∧
    (∀ p zp, z.Holds p zp → zlessNode z p p = .ok false) ∧
    (∀ p q r zp zq zr, z.Holds p zp → z.Holds q zq → z.Holds r zr →
      zlessNode z p q = .ok true → zlessNode z q r = .ok true → zlessNode z p r = .ok true) ∧
    ∀ p q zp zq, z.Holds p zp → z.Holds q zq → zp.name ≠ zq.name →
      zlessNode z p q = .ok true ∧ zlessNode z q p = .ok false ∨
        zlessNode z p q = .ok false ∧ zlessNode z q p = .ok true := by
  refine ⟨fun p zp hp score name hs => ?_, fun p q zp zq hp hq => ?_, fun p zp hp => ?_,
    fun p q r zp zq zr hp hq hr hpq hqr => ?_, fun p q zp zq hp hq hne => ?_⟩
  · refine ⟨_, zlessKey_of hp name hs, ?_⟩
    rw [decide_eq_true_iff, tupleKey_lt, byteKey_lt, Binary64.lt_iff hp.number hs,
      Binary64.eq_iff hp.number hs]
  · rw [zlessNode_of hp hq, zlessKey_of hp zq.name hq.number]
  · exact (zlessNode_false hp hp).mpr (le_refl _)
  · apply (zlessNode_true hp hr).mpr
    exact lt_trans ((zlessNode_true hp hq).mp hpq) ((zlessNode_true hq hr).mp hqr)
  · rcases lt_trichotomy zp.key zq.key with hlt | heq | hgt
    · exact Or.inl ⟨(zlessNode_true hp hq).mpr hlt, (zlessNode_false hq hp).mpr hlt.le⟩
    · exact absurd (tupleKey_name heq) hne
    · exact Or.inr ⟨(zlessNode_false hp hq).mpr hgt.le, (zlessNode_true hq hp).mpr hgt⟩

/-- The names `"a\xff"` and `"a"`, with the scores 0 and -0. -/
theorem zless_lexicographic_shorter : ∃ z : ZSet,
    z = (znodeNew (znodeNew {} [97, 255] ⟨0⟩).1 [97] ⟨0x8000000000000000⟩).1 ∧
      zlessNode z 1 0 = .ok true ∧ zlessNode z 0 1 = .ok false := by
  set z := (znodeNew (znodeNew {} [97, 255] ⟨0⟩).1 [97] ⟨0x8000000000000000⟩).1 with hz
  have h0 : z.Holds 0 (ZNode.new [97, 255] ⟨0⟩) := ⟨rfl, by decide⟩
  have h1 : z.Holds 1 (ZNode.new [97] ⟨0x8000000000000000⟩) := ⟨rfl, by decide⟩
  refine ⟨z, hz, ?_⟩
  rcases (zless_lexicographic z).2.2.2.2 1 0 _ _ h1 h0 (by decide) with h | h
  · exact h
  · exact absurd h.1 (by decide)

end Greenis
