/-
  The load factor of a hash map.

  Each operation migrates `kRehashingWork` nodes, so that the older table is gone long before as
  many nodes have been inserted as would fill the newer one (`Loaded`). Hence the insertion that
  reaches the threshold finds no older table (`load_factor_bounded`).
-/
import Greenis.Proofs.HashTableRuns

namespace Greenis
open CExec

variable {α : Type}

/-- The operations that will still find a node to migrate: the size of the older table in units of
    `kRehashingWork`, rounded up. -/
def HMap.turns (h : HMap α) : Nat := (h.older.size + (kRehashingWork - 1)) / kRehashingWork

/-- The number of nodes at which a migration is due. -/
def HMap.threshold (h : HMap α) : Nat := kMaxLoadFactor * (h.newer.mask + 1)

/-- The threshold is not reached, and will not be while a migration is in progress. -/
structure Loaded (h : HMap α) : Prop where
  size : hmSize h < h.threshold
  migrating : h.older.tab ≠ none → hmSize h + h.turns + 1 < h.threshold

theorem Loaded.empty : Loaded ({} : HMap α) :=
  ⟨show 0 < kMaxLoadFactor * (0 + 1) by decide, fun h => absurd rfl h⟩

/-! ## Sizes -/

theorem hDetach_size {t t' : HTab α} {f : From} {n : HNode α} (h : hDetach t f = .ok (t', n)) :
    t'.size ≤ t.size ∧ t'.mask = t.mask ∧ t.tab ≠ none := by
  obtain ⟨slots, htab, h⟩ := bind_eq_ok.mp h
  obtain ⟨chain, -, h⟩ := bind_eq_ok.mp h
  obtain ⟨node, -, h⟩ := bind_eq_ok.mp h
  cases h
  refine ⟨Nat.sub_le _ _, rfl, fun hnone => ?_⟩
  rw [hnone] at htab
  cases htab

theorem hmLookup_map {h h' : HMap α} {hcode : UInt64} {eq : HNode α → Exec Bool}
    {r : Option (HNode α)} (hrun : hmLookup h hcode eq = .ok (h', r)) :
    hmHelpRehashing h = .ok h' := by
  obtain ⟨h1, hhelp, hrun⟩ := bind_eq_ok.mp hrun
  obtain ⟨rn, -, hrun⟩ := bind_eq_ok.mp hrun
  have hsame : h1 = h' := by
    cases rn with
    | some f =>
      obtain ⟨node, -, hrun⟩ := bind_eq_ok.mp hrun
      cases hrun
      rfl
    | none =>
      obtain ⟨ro, -, hrun⟩ := bind_eq_ok.mp hrun
      cases ro with
      | some f =>
        obtain ⟨node, -, hrun⟩ := bind_eq_ok.mp hrun
        cases hrun
        rfl
      | none =>
        cases hrun
        rfl
  rw [hhelp, hsame]

/-- A deletion takes at most one node out of one of the tables. -/
theorem hmDelete_map {h h' : HMap α} {hcode : UInt64} {eq : HNode α → Exec Bool}
    {r : Option (HNode α)} (hrun : hmDelete h hcode eq = .ok (h', r)) :
    ∃ h1, hmHelpRehashing h = .ok h1 ∧ h'.newer.size ≤ h1.newer.size ∧
      h'.newer.mask = h1.newer.mask ∧ h'.older.size ≤ h1.older.size ∧
      (h'.older.tab ≠ none → h1.older.tab ≠ none) := by
  obtain ⟨h1, hhelp, hrun⟩ := bind_eq_ok.mp hrun
  obtain ⟨rn, -, hrun⟩ := bind_eq_ok.mp hrun
  refine ⟨h1, hhelp, ?_⟩
  cases rn with
  | some f =>
    obtain ⟨⟨t', n⟩, hdet, hrun⟩ := bind_eq_ok.mp hrun
    cases hrun
    obtain ⟨hsize, hmask, -⟩ := hDetach_size hdet
    exact ⟨hsize, hmask, Nat.le_refl _, id⟩
  | none =>
    obtain ⟨ro, -, hrun⟩ := bind_eq_ok.mp hrun
    cases ro with
    | some f =>
      obtain ⟨⟨t', n⟩, hdet, hrun⟩ := bind_eq_ok.mp hrun
      cases hrun
      obtain ⟨hsize, -, htab⟩ := hDetach_size hdet
      exact ⟨Nat.le_refl _, rfl, hsize, fun _ => htab⟩
    | none =>
      cases hrun
      exact ⟨Nat.le_refl _, rfl, Nat.le_refl _, id⟩

theorem HMap.Inv.older_size {h : HMap α} (hi : h.Inv) (hnone : h.older.tab = none) :
    h.older.size = 0 := by
  rcases hi.olderTab with he | hw
  · rw [he]
  · rw [hw.alloc] at hnone
    cases hnone

/-! ## Steps -/

/-- A migration leaves the map loaded if its nodes fit, and a turn is left for what is to migrate. -/
theorem hmHelpRehashing_loaded {h h' : HMap α} (hi : h.Inv) (hrun : hmHelpRehashing h = .ok h')
    (hsize : hmSize h < h.threshold)
    (hturns : 0 < h.older.size → hmSize h + h.turns < h.threshold) : Loaded h' := by
  obtain ⟨h1, hrun', hmig, hfreed, -⟩ := hmHelpRehashing_spec hi
  obtain rfl : h1 = h' := Except.ok.inj (hrun'.symm.trans hrun)
  have hsame : hmSize h1 = hmSize h := by
    rw [hmSize_eq hmig.inv, hmSize_eq hi, hmig.perm.length_eq]
  have hthreshold : h1.threshold = h.threshold := by unfold HMap.threshold; rw [hmig.mask]
  refine ⟨by rw [hsame, hthreshold]; exact hsize, fun htab => ?_⟩
  have hleft := hmig.left
  have hpos : h1.older.size ≠ 0 := fun hzero => htab (hfreed.mpr hzero)
  have hlt := hturns (by omega)
  rw [hsame, hthreshold]
  unfold HMap.turns kRehashingWork at hlt ⊢
  unfold kRehashingWork at hleft
  omega

/-- A deletion leaves a smaller map. -/
theorem Loaded.shrink {h h' : HMap α} (hl : Loaded h) (hnewer : h'.newer.size ≤ h.newer.size)
    (hmask : h'.newer.mask = h.newer.mask) (holder : h'.older.size ≤ h.older.size)
    (htab : h'.older.tab ≠ none → h.older.tab ≠ none) : Loaded h' := by
  have hsize := hl.size
  have hthreshold : h'.threshold = h.threshold := by unfold HMap.threshold; rw [hmask]
  have hle : hmSize h' ≤ hmSize h := Nat.add_le_add hnewer holder
  have hturns : h'.turns ≤ h.turns :=
    Nat.div_le_div_right (Nat.add_le_add_right holder _)
  refine ⟨by omega, fun hne => ?_⟩
  have := hl.migrating (htab hne)
  omega

theorem Loaded.lookup {h h' : HMap α} (hl : Loaded h) (hi : h.Inv) {hcode : UInt64}
    {eq : HNode α → Exec Bool} {r : Option (HNode α)} (hrun : hmLookup h hcode eq = .ok (h', r)) :
    Loaded h' := by
  refine hmHelpRehashing_loaded hi (hmLookup_map hrun) hl.size fun hpos => ?_
  have := hl.migrating fun hnone => by rw [hi.older_size hnone] at hpos; cases hpos
  omega

theorem Loaded.delete {h h' : HMap α} (hl : Loaded h) (hi : h.Inv) {hcode : UInt64}
    {eq : HNode α → Exec Bool} {r : Option (HNode α)} (hrun : hmDelete h hcode eq = .ok (h', r)) :
    Loaded h' := by
  obtain ⟨h1, hhelp, hnewer, hmask, holder, htab⟩ := hmDelete_map hrun
  refine (hmHelpRehashing_loaded hi hhelp hl.size fun hpos => ?_).shrink hnewer hmask holder htab
  have := hl.migrating fun hnone => by rw [hi.older_size hnone] at hpos; cases hpos
  omega

/-- An insertion reaches the threshold only if there is no older table. -/
theorem Loaded.insert {h h' : HMap α} (hl : Loaded h) (hi : h.Inv) {n : HNode α}
    (hrun : hmInsert h n = .ok h') : Loaded h' := by
  obtain ⟨h2, hfill, hins⟩ := hmFill_spec hi n
  rw [hmInsert_eq, hfill, ok_bind] at hrun
  have hsize : hmSize h2 = hmSize h + 1 := by
    rw [hmSize_eq hins.inv, hmSize_eq hi, hins.perm.length_eq, List.length_cons]
  have hl1 := hl.size
  refine hmHelpRehashing_loaded hins.inv hrun ?_ ?_
  all_goals unfold HMap.threshold kMaxLoadFactor at *
  · rcases hins.tables with ⟨holder, hmask, hfit⟩ | ⟨hnone, hmask, hdouble⟩
    · by_cases hnone : h.older.tab = none
      · have hfit := hfit hnone
        have hzero := hi.older_size hnone
        rw [← holder] at hzero
        unfold hmSize kMaxLoadFactor at *
        omega
      · have := hl.migrating hnone
        unfold HMap.threshold kMaxLoadFactor at this
        omega
    · omega
  · intro hpos
    rcases hins.tables with ⟨holder, hmask, hfit⟩ | ⟨hnone, hmask, hdouble⟩
    · have hne : h.older.tab ≠ none := fun hnone => by
        rw [holder, hi.older_size hnone] at hpos
        cases hpos
      have := hl.migrating hne
      unfold HMap.threshold HMap.turns kMaxLoadFactor at *
      rw [holder]
      omega
    · have hle : h2.older.size ≤ hmSize h2 := Nat.le_add_left _ _
      unfold HMap.turns kRehashingWork
      omega

/-! ## Runs -/

/-- The maps that runs of calls reach, with comparisons of any kind. -/
inductive HmRun : HMap α → Prop
  | init : HmRun {}
  | insert {h h' : HMap α} (n : HNode α) : HmRun h → n ∉ h.nodes → hmInsert h n = .ok h' → HmRun h'
  | lookup {h h' : HMap α} {r : Option (HNode α)} (hcode : UInt64) (eq : HNode α → Bool) :
      HmRun h → hmLookup h hcode (pureEq eq) = .ok (h', r) → HmRun h'
  | delete {h h' : HMap α} {r : Option (HNode α)} (hcode : UInt64) (eq : HNode α → Bool) :
      HmRun h → hmDelete h hcode (pureEq eq) = .ok (h', r) → HmRun h'

theorem HmRun.loaded {h : HMap α} (hr : HmRun h) : h.Inv ∧ Loaded h := by
  induction hr with
  | init => exact ⟨HMap.Inv.empty, Loaded.empty⟩
  | insert n _ _ hrun ih =>
    obtain ⟨h', hrun', hi, -⟩ := hmInsert_spec ih.1 n
    obtain rfl := Except.ok.inj (hrun'.symm.trans hrun)
    exact ⟨hi, ih.2.insert ih.1 hrun⟩
  | lookup hcode eq _ hrun ih =>
    obtain ⟨h', r, hrun', hmig, -⟩ := hmLookup_spec ih.1 (decides_pureEq eq hcode _)
    cases hrun'.symm.trans hrun
    exact ⟨hmig.inv, ih.2.lookup ih.1 hrun⟩
  | delete hcode eq _ hrun ih =>
    obtain ⟨h', r, hrun', hi, -⟩ := hmDelete_spec ih.1 (decides_pureEq eq hcode _)
    cases hrun'.symm.trans hrun
    exact ⟨hi, ih.2.delete ih.1 hrun⟩

/-- **The load factor stays bounded, and a migration ends before the next is due.** -/
theorem load_factor_bounded {h : HMap α} (hr : HmRun h) (halloc : h.newer.tab ≠ none) :
    (∃ k, 2 ≤ k ∧ h.newer.mask + 1 = 2 ^ k) ∧ hmSize h < kMaxLoadFactor * (h.newer.mask + 1) ∧
      (h.older.tab ≠ none → h.newer.mask + 1 = 2 * (h.older.mask + 1) ∧
        hmSize h + (h.older.size + (kRehashingWork - 1)) / kRehashingWork <
          kMaxLoadFactor * (h.newer.mask + 1) ∧
        h.newer.size + 1 < kMaxLoadFactor * (h.newer.mask + 1)) ∧
      ∀ n, ∃ h', hmInsert h n = .ok h' := by
  obtain ⟨hi, hl⟩ := hr.loaded
  refine ⟨?_, hl.size, fun htab => ?_, fun n => ?_⟩
  · rcases hi.newer with he | hw
    · rw [he] at halloc
      exact absurd rfl halloc
    · obtain ⟨k, hk⟩ := hw.pow
      exact ⟨k + 2, Nat.le_add_left 2 k, hk⟩
  · have hmig := hl.migrating htab
    have hle : h.newer.size ≤ hmSize h := Nat.le_add_right _ _
    have hnext : h.newer.size + 1 < h.threshold := by omega
    rcases hi.older with he | ⟨-, -, hm⟩
    · rw [he] at htab
      exact absurd rfl htab
    · exact ⟨by omega, Nat.lt_of_succ_lt hmig, hnext⟩
  · obtain ⟨h', hrun, -⟩ := hmInsert_spec hi n
    exact ⟨h', hrun⟩

/-- Inserting one node after another. -/
theorem HmRun.inserts {h : HMap α} (hr : HmRun h) (ns : List (HNode α))
    (hn : (ns ++ h.nodes).Nodup) :
    ∃ h', ns.foldlM hmInsert h = .ok h' ∧ HmRun h' ∧ h'.nodes.Perm (ns ++ h.nodes) := by
  induction ns generalizing h with
  | nil => exact ⟨h, rfl, hr, List.Perm.refl _⟩
  | cons n ns ih =>
    obtain ⟨hmem, hn⟩ := List.nodup_cons.mp hn
    obtain ⟨h1, hrun, -, hperm⟩ := hmInsert_spec hr.loaded.1 n
    have hperm1 : (ns ++ h1.nodes).Perm (n :: (ns ++ h.nodes)) :=
      (hperm.append_left ns).trans List.perm_middle
    obtain ⟨h2, hrun2, hr2, hperm2⟩ := ih
      (.insert n hr (fun hm => hmem (List.mem_append_right _ hm)) hrun)
      (hperm1.nodup_iff.mpr (List.nodup_cons.mpr ⟨hmem, hn⟩))
    refine ⟨h2, ?_, hr2, hperm2.trans hperm1⟩
    rw [List.foldlM_cons, hrun]
    exact hrun2

/-- In the middle of a migration, which has moved 128 of 256 nodes: the newer table has 64 slots, and
    room for 512 nodes. -/
theorem load_factor_bounded_migrating : ∃ h : HMap Nat,
    (firstNodes 256).foldlM hmInsert {} = .ok h ∧ h.older.size = 128 ∧
      h.newer.mask + 1 = 2 * (h.older.mask + 1) ∧ hmSize h + 1 < 512 ∧ h.newer.size + 1 < 512 ∧
      ∃ h', hmInsert h ⟨256, 256⟩ = .ok h' := by
  obtain ⟨h, hrun, hr, -⟩ := HmRun.init.inserts (firstNodes 256)
    (by simpa [HMap.nodes] using nodup_firstNodes 256)
  have hsizes := migrating_sizes
  rw [hrun, ok_bind] at hsizes
  simp only [Except.ok.injEq, Prod.mk.injEq] at hsizes
  obtain ⟨hsize, -, hmask⟩ := hsizes
  have halloc : h.newer.tab ≠ none := fun hnone => by
    rcases hr.loaded.1.newer with he | hw
    · rw [he] at hmask
      cases hmask
    · rw [hw.alloc] at hnone
      cases hnone
  have htab : h.older.tab ≠ none := fun hnone => by
    rw [hr.loaded.1.older_size hnone] at hsize
    cases hsize
  obtain ⟨-, -, hmigrating, hnext⟩ := load_factor_bounded hr halloc
  obtain ⟨hdouble, hload, hnewer⟩ := hmigrating htab
  rw [hmask] at hload hnewer
  rw [hsize] at hload
  exact ⟨h, hrun, hsize, hdouble, hload, hnewer, hnext ⟨256, 256⟩⟩

end Greenis
