/-
  Heap operations keep the order, the items and the back references.

  `HeapOk` is a min-heap on `val` in which the cell of the item at `i` holds `i`. In mid-flight a
  sift has a hole at `pos` for the item `t` it moves (`Hole`); the array with `t` put into the
  hole is then permuted by each step. `Reheaped` is what an operation leaves: a heap of
  given items, with no other cell written (`heapUpdate_spec`, `heapUpsert_replace`,
  `heapUpsert_append`, `heapDelete_spec`).
-/
import Mathlib.Data.List.Perm.Basic
import Greenis.Lib.BinaryHeap
import Greenis.Model.Heap

namespace Greenis
open CExec BinaryHeap

variable {ρ : Type}

/-- The key at an index. Past the end of the array it is never looked at. -/
def keyOf (a : List (HeapItem ρ)) (i : Nat) : Nat := (a[i]?.map fun t => t.val.toNat).getD 0

theorem keyOf_eq {a : List (HeapItem ρ)} {i : Nat} {t : HeapItem ρ} (h : a[i]? = some t) :
    keyOf a i = t.val.toNat := by
  simp [keyOf, h]

/-- The cell of every item holds the item's index. -/
def BackRefs (h : Heap ρ) : Prop := ∀ i t, h.a[i]? = some t → h.idx t.ref = some i

structure HeapOk (h : Heap ρ) : Prop where
  order : IsHeap (keyOf h.a) h.a.length
  back : BackRefs h

/-- The references of the items of an array. -/
def refs (a : List (HeapItem ρ)) : List ρ := a.map (·.ref)

theorem mem_refs {a : List (HeapItem ρ)} {r : ρ} : r ∈ refs a ↔ ∃ t ∈ a, t.ref = r := by
  simp [refs]

theorem refs_perm {a b : List (HeapItem ρ)} (h : a.Perm b) : (refs a).Perm (refs b) := h.map _

/-- Back references keep items from sharing a cell. -/
theorem BackRefs.nodup {h : Heap ρ} (hb : BackRefs h) : (refs h.a).Nodup := by
  refine List.pairwise_iff_getElem.mpr fun i j hi hj hij heq => ?_
  have hli : i < h.a.length := by simpa [refs] using hi
  have hlj : j < h.a.length := by simpa [refs] using hj
  have hi' := hb i h.a[i] (List.getElem?_eq_getElem hli)
  have hj' := hb j h.a[j] (List.getElem?_eq_getElem hlj)
  have href : h.a[i].ref = h.a[j].ref := by simpa [refs] using heq
  rw [href, hj'] at hi'
  exact absurd (Option.some.inj hi') (by omega)

/-- The operation left a heap of the items `items`, and wrote no cell outside of `cells`. -/
structure Reheaped (h : Heap ρ) (items : List (HeapItem ρ)) (cells : List ρ) (h' : Heap ρ) :
    Prop where
  ok : HeapOk h'
  perm : h'.a.Perm items
  frame : ∀ r, r ∉ cells → h'.idx r = h.idx r

theorem heapParent_eq {i : Nat} (h : 0 < i) : heapParent i = parent i := by
  unfold heapParent parent
  omega

theorem isChild_iff_kids {c p : Nat} : IsChild c p ↔ c = heapLeft p ∨ c = heapRight p := by
  rw [isChild_iff, heapLeft, heapRight]
  omega

variable [DecidableEq ρ]

/-! ## A hole in the array -/

/-- The item `t` is to be put at `pos`; every other item has its index in its cell. -/
structure Hole (h : Heap ρ) (pos : Nat) (t : HeapItem ρ) : Prop where
  lt : pos < h.a.length
  nodup : (refs (h.a.set pos t)).Nodup
  back : ∀ i s, i ≠ pos → h.a[i]? = some s → h.idx s.ref = some i

omit [DecidableEq ρ] in
theorem getElem?_set_hole {a : List (HeapItem ρ)} {pos : Nat} (hlt : pos < a.length)
    (t : HeapItem ρ) (i : Nat) : (a.set pos t)[i]? = if i = pos then some t else a[i]? := by
  rw [List.getElem?_set]
  by_cases h : pos = i
  · subst h; simp [hlt]
  · simp [h, Ne.symm h]

omit [DecidableEq ρ] in
theorem keyOf_set_same {a : List (HeapItem ρ)} {pos : Nat} (hlt : pos < a.length)
    (t : HeapItem ρ) : keyOf (a.set pos t) pos = t.val.toNat := by
  simp [keyOf, hlt]

omit [DecidableEq ρ] in
theorem keyOf_set_other {a : List (HeapItem ρ)} {pos i : Nat} (t : HeapItem ρ) (h : i ≠ pos) :
    keyOf (a.set pos t) i = keyOf a i := by
  simp [keyOf, List.getElem?_set_ne (Ne.symm h)]

omit [DecidableEq ρ] in
theorem Hole.ref_ne {h : Heap ρ} {pos : Nat} {t : HeapItem ρ} (hh : Hole h pos t) {i : Nat}
    {s : HeapItem ρ} (hi : i ≠ pos) (hs : h.a[i]? = some s) : s.ref ≠ t.ref := by
  intro he
  have hlt := (List.getElem?_eq_some_iff.mp hs).1
  have h1 : (refs (h.a.set pos t))[i]? = some s.ref := by
    simp [refs, List.getElem?_set_ne (Ne.symm hi), hs]
  have h2 : (refs (h.a.set pos t))[pos]? = some s.ref := by
    simp [refs, hh.lt, he]
  exact hi ((List.getElem?_inj (by simpa [refs] using hlt) hh.nodup).mp (h1.trans h2.symm))

/-- Closing the hole. -/
theorem Hole.close {h : Heap ρ} {pos : Nat} {t : HeapItem ρ} (hh : Hole h pos t)
    (horder : IsHeap (keyOf (h.a.set pos t)) h.a.length) :
    ∃ h', h.put pos t = .ok h' ∧ Reheaped h (h.a.set pos t) (refs (h.a.set pos t)) h' := by
  refine ⟨_, if_pos hh.lt, ⟨⟨by simpa using horder, ?_⟩, List.Perm.refl _, ?_⟩⟩
  · intro i s hs
    have hs' : (h.a.set pos t)[i]? = some s := hs
    rw [getElem?_set_hole hh.lt] at hs'
    by_cases hi : i = pos
    · rw [if_pos hi] at hs'
      cases hs'
      simp [hi]
    · rw [if_neg hi] at hs'
      show Function.update h.idx t.ref (some pos) s.ref = some i
      rw [Function.update_of_ne (hh.ref_ne hi hs')]
      exact hh.back i s hi hs'
  · intro r hr
    have hne : r ≠ t.ref := fun he =>
      hr (mem_refs.mpr ⟨t, List.mem_set hh.lt t, he.symm⟩)
    exact Function.update_of_ne hne _ _

/-- What one step of a sift does: the hole moves from `pos` to `q`, the item there moves back. -/
structure Moved (h : Heap ρ) (pos q : Nat) (t : HeapItem ρ) (h' : Heap ρ) : Prop where
  hole : Hole h' q t
  perm : (h'.a.set q t).Perm (h.a.set pos t)
  length : h'.a.length = h.a.length
  swap : Swapped (keyOf (h.a.set pos t)) (keyOf (h'.a.set q t)) pos q
  frame : ∀ r, r ∉ refs (h.a.set pos t) → h'.idx r = h.idx r

theorem Hole.move {h : Heap ρ} {pos q : Nat} {t s : HeapItem ρ} (hh : Hole h pos t) (hq : q ≠ pos)
    (hs : h.a[q]? = some s) : ∃ h', h.put pos s = .ok h' ∧ Moved h pos q t h' := by
  have hql := (List.getElem?_eq_some_iff.mp hs).1
  have hs' : h.a[q] = s := (List.getElem?_eq_some_iff.mp hs).2
  have hperm : ((h.a.set pos s).set q t).Perm (h.a.set pos t) := by
    have hswap := @List.set_set_perm _ (h.a.set pos t) pos q
      (by simpa using hh.lt) (by simpa using hql)
    rw [List.getElem_set_ne (Ne.symm hq), List.getElem_set_self, List.set_set, hs'] at hswap
    exact hswap
  have hplt : pos < ((h.a.set pos s).set q t).length := by simpa using hh.lt
  refine ⟨{ a := h.a.set pos s, idx := Function.update h.idx s.ref (some pos) }, if_pos hh.lt,
    ⟨by simpa using hql, ?_, ?_⟩, hperm, by simp, ⟨?_, ?_, ?_⟩, ?_⟩
  · exact (refs_perm hperm).nodup_iff.mpr hh.nodup
  · intro i u hi hu
    have hu' : (h.a.set pos s)[i]? = some u := hu
    rw [getElem?_set_hole hh.lt] at hu'
    by_cases hip : i = pos
    · rw [if_pos hip] at hu'
      cases hu'
      simp [hip]
    · rw [if_neg hip] at hu'
      -- Another item: its cell is not the one written, since cells are distinct.
      have hne : u.ref ≠ s.ref := by
        intro he
        have h1 : (refs (h.a.set pos t))[i]? = some s.ref := by
          simp [refs, List.getElem?_set_ne (Ne.symm hip), hu', he]
        have h2 : (refs (h.a.set pos t))[q]? = some s.ref := by
          simp [refs, List.getElem?_set_ne (Ne.symm hq), hs]
        have hil := (List.getElem?_eq_some_iff.mp hu').1
        exact hi ((List.getElem?_inj (by simpa [refs] using hil) hh.nodup).mp (h1.trans h2.symm))
      show Function.update h.idx s.ref (some pos) u.ref = some i
      rw [Function.update_of_ne hne]
      exact hh.back i u hip hu'
  · show keyOf ((h.a.set pos s).set q t) pos = keyOf (h.a.set pos t) q
    rw [keyOf_set_other t (Ne.symm hq), keyOf_set_same hh.lt, keyOf_set_other t hq, keyOf_eq hs]
  · show keyOf ((h.a.set pos s).set q t) q = keyOf (h.a.set pos t) pos
    rw [keyOf_set_same (by simpa using hql), keyOf_set_same hh.lt]
  · intro k hkp hkq
    show keyOf ((h.a.set pos s).set q t) k = keyOf (h.a.set pos t) k
    rw [keyOf_set_other t hkq, keyOf_set_other s hkp, keyOf_set_other t hkp]
  · intro r hr
    have hne : r ≠ s.ref := fun he => hr (mem_refs.mpr ⟨s, by
      have : (h.a.set pos t)[q]? = some s := by rw [List.getElem?_set_ne (Ne.symm hq), hs]
      exact List.mem_of_getElem? this, he.symm⟩)
    exact Function.update_of_ne hne _ _

/-- A finished sift from `h` with a hole at `pos` leaves a hole at `pos'` that only needs closing. -/
structure Sifted (h : Heap ρ) (pos : Nat) (t : HeapItem ρ) (h' : Heap ρ) (pos' : Nat) : Prop where
  hole : Hole h' pos' t
  perm : (h'.a.set pos' t).Perm (h.a.set pos t)
  order : IsHeap (keyOf (h'.a.set pos' t)) h'.a.length
  frame : ∀ r, r ∉ refs (h.a.set pos t) → h'.idx r = h.idx r

omit [DecidableEq ρ] in
theorem Moved.sifted {h h1 h' : Heap ρ} {pos q pos' : Nat} {t : HeapItem ρ}
    (hm : Moved h pos q t h1) (hs : Sifted h1 q t h' pos') : Sifted h pos t h' pos' where
  hole := hs.hole
  perm := hs.perm.trans hm.perm
  order := hs.order
  frame r hr := by
    have hr1 : r ∉ refs (h1.a.set q t) := fun hmem =>
      hr ((refs_perm hm.perm).subset hmem)
    rw [hs.frame r hr1, hm.frame r hr]

theorem Sifted.close {h h' : Heap ρ} {pos pos' : Nat} {t : HeapItem ρ}
    (hs : Sifted h pos t h' pos') :
    ∃ h'', h'.put pos' t = .ok h'' ∧
      Reheaped h (h.a.set pos t) (refs (h.a.set pos t)) h'' := by
  obtain ⟨h'', hrun, hr⟩ := hs.hole.close hs.order
  refine ⟨h'', hrun, hr.ok, hr.perm.trans hs.perm, fun r hmem => ?_⟩
  have hmem' : r ∉ refs (h'.a.set pos' t) := fun hm => hmem ((refs_perm hs.perm).subset hm)
  rw [hr.frame r hmem', hs.frame r hmem]

/-! ## The sifts -/

theorem upLoop_spec (t : HeapItem ρ) : ∀ (fuel : Nat) (h : Heap ρ) (pos : Nat), pos < fuel →
    Hole h pos t → UpHole (keyOf (h.a.set pos t)) h.a.length pos →
    ∃ h' pos', upLoop t fuel h pos = .ok (h', pos') ∧ Sifted h pos t h' pos'
  | 0, _, _, hf, _, _ => absurd hf (Nat.not_lt_zero _)
  | fuel + 1, h, pos, hf, hh, hu => by
    unfold upLoop
    by_cases hpos : 0 < pos
    · rw [if_pos hpos, heapParent_eq hpos]
      have hp := parent_lt hpos
      have hpl : parent pos < h.a.length := lt_trans hp hh.lt
      have hget := List.getElem?_eq_getElem hpl
      rw [index_of_lt hpl, ok_bind]
      have hkp : keyOf (h.a.set pos t) (parent pos) = h.a[parent pos].val.toNat := by
        rw [keyOf_set_other t (ne_of_lt hp), keyOf_eq hget]
      by_cases hgt : h.a[parent pos].val > t.val
      · rw [if_pos hgt]
        obtain ⟨h1, hput, hm⟩ := hh.move (ne_of_lt hp) hget
        have hlt : keyOf (h.a.set pos t) pos < keyOf (h.a.set pos t) (parent pos) := by
          rw [keyOf_set_same hh.lt, hkp]
          exact UInt64.lt_iff_toNat_lt.mp hgt
        have hu1 := hu.step hpos hh.lt hlt hm.swap
        rw [← hm.length] at hu1
        obtain ⟨h', pos', hrun, hs⟩ := upLoop_spec t fuel h1 (parent pos) (by omega) hm.hole hu1
        rw [hput, ok_bind]
        exact ⟨h', pos', hrun, hm.sifted hs⟩
      · rw [if_neg hgt]
        refine ⟨h, pos, rfl, hh, List.Perm.refl _, hu.stop fun _ => ?_, fun _ _ => rfl⟩
        rw [keyOf_set_same hh.lt, hkp]
        exact UInt64.le_iff_toNat_le.mp (UInt64.not_lt.mp hgt)
    · rw [if_neg hpos]
      exact ⟨h, pos, rfl, hh, List.Perm.refl _, hu.stop fun h0 => absurd h0 hpos, fun _ _ => rfl⟩

/-- The candidate `m` is `pos`, or a kid of `pos` with a smaller key; `m.2` is its key. -/
structure Candidate (v : List (HeapItem ρ)) (pos : Nat) (m : Nat × UInt64) : Prop where
  kid : m.1 = pos ∨ (IsChild m.1 pos ∧ m.1 < v.length ∧ keyOf v m.1 < keyOf v pos)
  key : keyOf v m.1 = m.2.toNat

omit [DecidableEq ρ] in
theorem smaller_spec {a : List (HeapItem ρ)} {pos kid : Nat} {t : HeapItem ρ} {m : Nat × UInt64}
    (hkid : IsChild kid pos) (hm : Candidate (a.set pos t) pos m) :
    ∃ m', smaller a a.length kid m = .ok m' ∧ Candidate (a.set pos t) pos m' ∧
      keyOf (a.set pos t) m'.1 ≤ keyOf (a.set pos t) m.1 ∧
      (kid < a.length → keyOf (a.set pos t) m'.1 ≤ keyOf (a.set pos t) kid) := by
  unfold smaller
  by_cases hlt : kid < a.length
  · have hk : keyOf (a.set pos t) kid = a[kid].val.toNat := by
      rw [keyOf_set_other t (ne_of_gt hkid.lt), keyOf_eq (List.getElem?_eq_getElem hlt)]
    rw [if_pos hlt, index_of_lt hlt, ok_bind]
    by_cases hval : a[kid].val < m.2
    · rw [if_pos hval]
      have hlt' : keyOf (a.set pos t) kid < keyOf (a.set pos t) m.1 := by
        rw [hk, hm.key]
        exact UInt64.lt_iff_toNat_lt.mp hval
      have hpos : keyOf (a.set pos t) m.1 ≤ keyOf (a.set pos t) pos := by
        rcases hm.kid with he | ⟨_, _, hlt⟩
        · rw [he]
        · exact le_of_lt hlt
      exact ⟨_, rfl, ⟨Or.inr ⟨hkid, by simpa using hlt, lt_of_lt_of_le hlt' hpos⟩, hk⟩,
        le_of_lt hlt', fun _ => le_refl _⟩
    · rw [if_neg hval]
      refine ⟨m, rfl, hm, le_refl _, fun _ => ?_⟩
      rw [hk, hm.key]
      exact UInt64.le_iff_toNat_le.mp (UInt64.not_lt.mp hval)
  · rw [if_neg hlt]
    exact ⟨m, rfl, hm, le_refl _, fun h => absurd h hlt⟩

theorem downLoop_spec (t : HeapItem ρ) (len : Nat) : ∀ (fuel : Nat) (h : Heap ρ) (pos : Nat),
    len < fuel + pos → h.a.length = len → Hole h pos t →
    DownHole (keyOf (h.a.set pos t)) h.a.length pos →
    ∃ h' pos', downLoop t len fuel h pos = .ok (h', pos') ∧ Sifted h pos t h' pos'
  | 0, h, pos, hf, hlen, hh, _ => absurd hh.lt (by omega)
  | fuel + 1, h, pos, hf, hlen, hh, hd => by
    have hroot : Candidate (h.a.set pos t) pos (pos, t.val) :=
      ⟨Or.inl rfl, keyOf_set_same hh.lt t⟩
    obtain ⟨m1, hm1, hc1, _, hl1⟩ := smaller_spec (isChild_iff_kids.mpr (Or.inl rfl)) hroot
    obtain ⟨m2, hm2, hc2, hle2, hl2⟩ := smaller_spec (isChild_iff_kids.mpr (Or.inr rfl)) hc1
    -- `m2` is least among `pos` and its kids.
    have hmin : ∀ c, IsChild c pos → c < h.a.length →
        keyOf (h.a.set pos t) m2.1 ≤ keyOf (h.a.set pos t) c := by
      intro c hc hcl
      rcases isChild_iff_kids.mp hc with rfl | rfl
      · exact le_trans hle2 (hl1 hcl)
      · exact hl2 hcl
    unfold downLoop
    rw [← hlen, hm1, ok_bind, hm2, ok_bind]
    by_cases hstop : m2.1 = pos
    · rw [if_pos hstop]
      refine ⟨h, pos, rfl, hh, List.Perm.refl _, hd.stop fun c hc hcl => ?_, fun _ _ => rfl⟩
      have := hmin c hc hcl
      rwa [hstop] at this
    · rw [if_neg hstop]
      obtain ⟨hkid, hkl, hlt⟩ := hc2.kid.resolve_left hstop
      have hkl' : m2.1 < h.a.length := by simpa using hkl
      have hget := List.getElem?_eq_getElem hkl'
      obtain ⟨h1, hput, hm⟩ := hh.move hstop hget
      have hd1 := hd.step hkid hmin hkl' hlt hm.swap
      rw [← hm.length] at hd1
      have hkidlt := hkid.lt
      obtain ⟨h', pos', hrun, hs⟩ := downLoop_spec t len fuel h1 m2.1 (by omega)
        (by rw [hm.length, hlen]) hm.hole hd1
      rw [index_of_lt hkl', ok_bind, hput, ok_bind, hlen]
      exact ⟨h', pos', hrun, hm.sifted hs⟩

/-! ## The operations -/

/-- An array in which only the item at `pos` may be out of order, or have a wrong cell. -/
structure Displaced (h : Heap ρ) (pos : Nat) (t : HeapItem ρ) : Prop where
  hole : Hole h pos t
  item : h.a[pos]? = some t
  except : Except (keyOf h.a) h.a.length pos

omit [DecidableEq ρ] in
theorem set_getElem? {a : List (HeapItem ρ)} {pos : Nat} {t : HeapItem ρ} (h : a[pos]? = some t) :
    a.set pos t = a := by
  obtain ⟨hlt, rfl⟩ := List.getElem?_eq_some_iff.mp h
  exact List.set_getElem_self hlt

theorem heapUp_spec {h : Heap ρ} {pos : Nat} {t : HeapItem ρ} (hd : Displaced h pos t)
    (hu : UpHole (keyOf h.a) h.a.length pos) :
    ∃ h', heapUp h pos = .ok h' ∧ Reheaped h h.a (refs h.a) h' := by
  have hset := set_getElem? hd.item
  obtain ⟨h1, pos', hrun, hs⟩ :=
    upLoop_spec t (pos + 1) h pos (Nat.lt_succ_self pos) hd.hole (by rw [hset]; exact hu)
  obtain ⟨h', hput, hr⟩ := hs.close
  unfold heapUp
  rw [index_of_getElem? hd.item, ok_bind, hrun, ok_bind]
  rw [hset] at hr
  exact ⟨h', hput, hr⟩

theorem heapDown_spec {h : Heap ρ} {pos : Nat} {t : HeapItem ρ} (hd : Displaced h pos t)
    (hdown : DownHole (keyOf h.a) h.a.length pos) :
    ∃ h', heapDown h pos h.a.length = .ok h' ∧ Reheaped h h.a (refs h.a) h' := by
  have hset := set_getElem? hd.item
  obtain ⟨h1, pos', hrun, hs⟩ :=
    downLoop_spec t h.a.length (h.a.length + 1) h pos (by omega) rfl hd.hole
      (by rw [hset]; exact hdown)
  obtain ⟨h', hput, hr⟩ := hs.close
  unfold heapDown
  rw [index_of_getElem? hd.item, ok_bind, hrun, ok_bind]
  rw [hset] at hr
  exact ⟨h', hput, hr⟩

/-- One of the two sifts repairs a displaced item. -/
theorem heapUpdate_spec {h : Heap ρ} {pos : Nat} {t : HeapItem ρ} (hd : Displaced h pos t) :
    ∃ h', heapUpdate h pos h.a.length = .ok h' ∧ Reheaped h h.a (refs h.a) h' := by
  unfold heapUpdate
  by_cases hpos : 0 < pos
  · have hp := parent_lt hpos
    have hpl : parent pos < h.a.length := lt_trans hp hd.hole.lt
    rw [if_pos hpos, heapParent_eq hpos, index_of_lt hpl, ok_bind, index_of_getElem? hd.item,
      ok_bind]
    have hkp := keyOf_eq (List.getElem?_eq_getElem hpl)
    have hkt := keyOf_eq hd.item
    by_cases hgt : h.a[parent pos].val > t.val
    · rw [if_pos hgt]
      refine heapUp_spec hd (hd.except.toUp hpos ?_)
      rw [hkp, hkt]
      exact UInt64.lt_iff_toNat_lt.mp hgt
    · rw [if_neg hgt]
      refine heapDown_spec hd ⟨hd.except, fun _ _ => ?_⟩
      rw [hkp, hkt]
      exact UInt64.le_iff_toNat_le.mp (UInt64.not_lt.mp hgt)
  · rw [if_neg hpos]
    exact heapDown_spec hd ⟨hd.except, fun h0 => absurd h0 hpos⟩

/-- Replacing the item at `pos` by one that refers to the same cell. -/
theorem heapUpsert_replace {h : Heap ρ} (hok : HeapOk h) {pos : Nat} {old t : HeapItem ρ}
    (hold : h.a[pos]? = some old) (href : t.ref = old.ref) :
    ∃ h', heapUpsert h (some pos) t = .ok h' ∧
      Reheaped h (t :: h.a.eraseIdx pos) (refs h.a) h' := by
  obtain ⟨hlt, hold'⟩ := List.getElem?_eq_some_iff.mp hold
  have hrefs : refs (h.a.set pos t) = refs h.a := by
    have hself : h.a.set pos h.a[pos] = h.a := List.set_getElem_self hlt
    unfold refs
    rw [List.map_set, href, ← hold', ← List.map_set, hself]
  have hd : Displaced { h with a := h.a.set pos t } pos t := by
    refine ⟨⟨by simpa using hlt, ?_, ?_⟩, by simp [hlt], ?_⟩
    · rw [List.set_set, hrefs]
      exact hok.back.nodup
    · intro i s hi hs
      have hs' : (h.a.set pos t)[i]? = some s := hs
      rw [List.getElem?_set_ne (Ne.symm hi)] at hs'
      exact hok.back i s hs'
    · exact (hok.order.except pos).congr (by simp) fun i _ hi => keyOf_set_other t hi
  obtain ⟨h', hrun, hr⟩ := heapUpdate_spec hd
  refine ⟨h', ?_, hr.ok, hr.perm.trans (List.set_perm_cons_eraseIdx hlt t), ?_⟩
  · unfold heapUpsert
    rw [Option.filter_some, if_pos (by simpa using hlt)]
    exact hrun
  · intro r hmem
    exact hr.frame r (by rw [hrefs]; exact hmem)

/-- Adding an item whose cell no item refers to. -/
theorem heapUpsert_append {h : Heap ρ} (hok : HeapOk h) (pos : Option Nat)
    (hpos : ∀ i, pos = some i → h.a.length ≤ i) {t : HeapItem ρ} (hnew : t.ref ∉ refs h.a) :
    ∃ h', heapUpsert h pos t = .ok h' ∧ Reheaped h (t :: h.a) (t.ref :: refs h.a) h' := by
  have hlen : (h.a ++ [t]).length = h.a.length + 1 := by simp
  have hd : Displaced { h with a := h.a ++ [t] } h.a.length t := by
    refine ⟨⟨by simp, ?_, ?_⟩, by simp, ?_⟩
    · rw [set_getElem? (by simp)]
      have hn : (refs h.a ++ [t.ref]).Nodup :=
        List.nodup_append.mpr ⟨hok.back.nodup, by simp, by
          intro a ha b hb hab
          rw [List.mem_singleton.mp hb] at hab
          exact hnew (hab ▸ ha)⟩
      simpa [refs] using hn
    · intro i s hi hs
      have hs' : (h.a ++ [t])[i]? = some s := hs
      have hil := (List.getElem?_eq_some_iff.mp hs').1
      rw [List.getElem?_append_left (by omega)] at hs'
      exact hok.back i s hs'
    · -- The new leaf has no kids, and the rest is the heap there was.
      have hk : ∀ i, i < h.a.length → keyOf (h.a ++ [t]) i = keyOf h.a i := fun i hi => by
        simp [keyOf, List.getElem?_append_left hi]
      refine ⟨fun i hi0 hi hne hpne => ?_, fun _ c hc hcl => ?_⟩
      · have hi' : i < h.a.length := by simp at hi; omega
        have hp := parent_lt hi0
        show keyOf (h.a ++ [t]) (parent i) ≤ keyOf (h.a ++ [t]) i
        rw [hk i hi', hk _ (lt_trans hp hi')]
        exact hok.order i hi0 hi'
      · have hcl' : c < h.a.length + 1 := by simpa using hcl
        exact absurd hc.lt (by omega)
  obtain ⟨h', hrun, hr⟩ := heapUpdate_spec hd
  refine ⟨h', ?_, hr.ok, hr.perm.trans (List.perm_append_singleton t h.a), ?_⟩
  · have hfilter : pos.filter (fun i => decide (i < h.a.length)) = none := by
      cases pos with
      | none => rfl
      | some i =>
        have := hpos i rfl
        rw [Option.filter_some, if_neg (by simpa using this)]
    unfold heapUpsert
    rw [hfilter]
    exact hrun
  · intro r hmem
    refine hr.frame r fun hm => hmem ?_
    obtain ⟨s, hs, rfl⟩ := mem_refs.mp hm
    rcases List.mem_append.mp hs with hs | hs
    · exact List.mem_cons_of_mem _ (mem_refs.mpr ⟨s, hs, rfl⟩)
    · rw [List.mem_singleton.mp hs]
      exact List.mem_cons_self

theorem heapDelete_spec {h : Heap ρ} (hok : HeapOk h) {pos : Nat} (hlt : pos < h.a.length) :
    ∃ h', heapDelete h pos = .ok h' ∧
      Reheaped h (h.a.eraseIdx pos) (refs (h.a.eraseIdx pos)) h' := by
  obtain ⟨init, back, hsplit⟩ : ∃ init back, h.a = init ++ [back] :=
    ⟨_, _, (List.dropLast_append_getLast (List.ne_nil_of_length_pos (by omega))).symm⟩
  have hlen : h.a.length = init.length + 1 := by rw [hsplit]; simp
  have hlast : h.a.getLast? = some back := by rw [hsplit]; simp
  have hback : h.a[init.length]? = some back := by rw [hsplit]; simp
  unfold heapDelete
  rw [index_of_lt hlt, ok_bind, hlast, deref_some, ok_bind]
  dsimp only
  by_cases hend : pos < init.length
  · -- The last item replaces the deleted one.
    have harr : (h.a.set pos back).dropLast = init.set pos back := by
      rw [hsplit, List.set_append_left _ _ hend, List.dropLast_concat]
    have herase : (init.set pos back).Perm (h.a.eraseIdx pos) := by
      rw [hsplit, List.eraseIdx_append_of_lt_length hend]
      exact (List.set_perm_cons_eraseIdx hend back).trans
        (List.perm_append_singleton back _).symm
    have hget : ∀ i, i < init.length → h.a[i]? = init[i]? := fun i hi => by
      rw [hsplit, List.getElem?_append_left hi]
    rw [harr, if_pos (by simpa using hend)]
    have hnodup : (refs (init.set pos back)).Nodup := by
      refine (refs_perm herase).nodup_iff.mpr ?_
      exact hok.back.nodup.sublist ((List.eraseIdx_sublist h.a pos).map _)
    have hd : Displaced { h with a := init.set pos back } pos back := by
      refine ⟨⟨by simpa using hend, by rw [List.set_set]; exact hnodup, ?_⟩, by simp [hend], ?_⟩
      · intro i s hi hs
        have hs' : (init.set pos back)[i]? = some s := hs
        rw [List.getElem?_set_ne (Ne.symm hi)] at hs'
        have hil := (List.getElem?_eq_some_iff.mp hs').1
        exact hok.back i s (by rw [hget i hil]; exact hs')
      · refine (hok.order.except pos).congr (by simp; omega) fun i hi hne => ?_
        have hi' : i < init.length := by simpa using hi
        show keyOf (init.set pos back) i = keyOf h.a i
        rw [keyOf_set_other back hne]
        simp [keyOf, hget i hi']
    obtain ⟨h', hrun, hr⟩ := heapUpdate_spec hd
    exact ⟨h', hrun, hr.ok, hr.perm.trans herase, fun r hmem =>
      hr.frame r fun hm => hmem ((refs_perm herase).subset hm)⟩
  · have hpos : pos = init.length := by omega
    have harr : (h.a.set pos back).dropLast = init := by
      rw [hpos, set_getElem? hback, hsplit, List.dropLast_concat]
    have herase : h.a.eraseIdx pos = init := by
      rw [hsplit, hpos, List.eraseIdx_append_of_length_le (le_refl _)]
      simp
    rw [harr, if_neg hend, herase]
    refine ⟨_, rfl, ⟨?_, ?_⟩, List.Perm.refl _, fun _ _ => rfl⟩
    · have hk : ∀ i, i < init.length → keyOf init i = keyOf h.a i := fun i hi => by
        simp [keyOf, hsplit, List.getElem?_append_left hi]
      intro i hi0 hi
      have hi' : i < init.length := hi
      have hp := parent_lt hi0
      show keyOf init (parent i) ≤ keyOf init i
      rw [hk i hi', hk _ (lt_trans hp hi')]
      exact hok.order i hi0 (by omega)
    · intro i s hs
      have hs' : init[i]? = some s := hs
      have hil := (List.getElem?_eq_some_iff.mp hs').1
      exact hok.back i s (by rw [hsplit, List.getElem?_append_left hil]; exact hs')

/-! ## All operations -/

/-- **Every operation keeps the heap, its items and their back references.** An item is replaced,
    added or removed, each remaining item's cell holds its index, and no other cell is written. -/
theorem heap_operations {h : Heap ρ} (hok : HeapOk h) :
    (∀ pos old t, h.a[pos]? = some old → t.ref = old.ref →
      ∃ h', heapUpsert h (some pos) t = .ok h' ∧
      Reheaped h (t :: h.a.eraseIdx pos) (refs h'.a) h') ∧
    (∀ pos t, (∀ i, pos = some i → h.a.length ≤ i) → t.ref ∉ refs h.a →
      ∃ h', heapUpsert h pos t = .ok h' ∧ Reheaped h (t :: h.a) (refs h'.a) h') ∧
    ∀ pos, pos < h.a.length → ∃ h', heapDelete h pos = .ok h' ∧
      Reheaped h (h.a.eraseIdx pos) (refs h'.a) h' := by
  refine ⟨fun pos old t hold href => ?_, fun pos t hpos hnew => ?_, fun pos hlt => ?_⟩
  · obtain ⟨hlt, rfl⟩ := List.getElem?_eq_some_iff.mp hold
    obtain ⟨h', hrun, hr⟩ := heapUpsert_replace hok hold href
    refine ⟨h', hrun, hr.ok, hr.perm, fun r hr' => hr.frame r fun hm => hr' ?_⟩
    -- The replaced item referred to the same cell.
    have hcells : (refs h'.a).Perm (refs h.a) := by
      have hold := (List.getElem_cons_eraseIdx_perm hlt).map HeapItem.ref
      rw [List.map_cons, ← href, ← List.map_cons] at hold
      exact (refs_perm hr.perm).trans hold
    exact hcells.mem_iff.mpr hm
  · obtain ⟨h', hrun, hr⟩ := heapUpsert_append hok pos hpos hnew
    exact ⟨h', hrun, hr.ok, hr.perm, fun r hr' => hr.frame r fun hm =>
      hr' ((refs_perm hr.perm).mem_iff.mpr hm)⟩
  · obtain ⟨h', hrun, hr⟩ := heapDelete_spec hok hlt
    exact ⟨h', hrun, hr.ok, hr.perm, fun r hr' => hr.frame r fun hm =>
      hr' ((refs_perm hr.perm).mem_iff.mpr hm)⟩

/-- The root of a heap of three items is deleted. -/
theorem heap_operations_root : ∃ h' : Heap Nat,
    heapDelete { a := [⟨1, 0⟩, ⟨5, 1⟩, ⟨3, 2⟩], idx := some } 0 = .ok h' ∧
      h'.a.Perm [⟨5, 1⟩, ⟨3, 2⟩] := by
  have hok : HeapOk { a := [⟨1, 0⟩, ⟨5, 1⟩, ⟨3, 2⟩], idx := some : Heap Nat } := by
    refine ⟨fun i hi0 hi => ?_, fun i t hi => ?_⟩
    · match i, hi0, hi with
      | 1, _, _ => decide
      | 2, _, _ => decide
    · match i, hi with
      | 0, hi => cases hi; rfl
      | 1, hi => cases hi; rfl
      | 2, hi => cases hi; rfl
  obtain ⟨h', hrun, hr⟩ := (heap_operations hok).2.2 0 (by decide)
  exact ⟨h', hrun, hr.perm⟩

end Greenis
