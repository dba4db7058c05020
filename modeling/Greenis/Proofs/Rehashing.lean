/-
  The cost of rehashing.

  A call of the map may skip any number of empty slots, and the call that starts a migration
  allocates a table. The work of a whole run is still linear in the insertions alone, with lookups
  and deletions for free (`rehashing_amortized`): an insertion into a table that is half full or more
  puts three units aside, and they pay for the table to come, its nodes, and the slots of the older
  one.
-/
import Mathlib.Data.List.Induction
import Greenis.Lib.Trace
import Greenis.Proofs.HashTableLoad

namespace Greenis
open CExec LTS

variable {α : Type}

/-! ## Work -/

/-- The loop of `hm_help_rehashing`, with the number of its iterations. -/
def helpTicks : Nat → HMap α → Nat → Exec (HMap α × Nat)
  | 0, _, _ => .error .fuel
  | fuel + 1, hmap, nwork => do
    match ← helpStep hmap nwork with
    | none => .ok (hmap, 0)
    | some (hmap, nwork) => do
      let (hmap, ticks) ← helpTicks fuel hmap nwork
      .ok (hmap, ticks + 1)

theorem helpLoop_ticks (fuel : Nat) (h : HMap α) (nwork : Nat) :
    helpLoop fuel h nwork = helpTicks fuel h nwork >>= fun r => .ok r.1 := by
  induction fuel generalizing h nwork with
  | zero => rfl
  | succ fuel ih =>
    rw [helpLoop_succ, helpTicks, bind_assoc]
    apply congrArg
    funext next
    cases next with
    | none => rfl
    | some next =>
      dsimp only
      rw [ih, bind_assoc]
      rfl

/-- The iterations of a call of `hm_help_rehashing`. -/
def helpWork (hmap : HMap α) : Exec Nat := do
  let (_, ticks) ← helpTicks (kRehashingWork + (hmap.older.tab.getD []).length + 1) hmap 0
  .ok ticks

/-- The slots of both tables. -/
def HMap.numSlots (h : HMap α) : Nat := h.newer.slots.length + h.older.slots.length

/-- A call of the map, with its work: the slots it allocates, and the iterations of the loop. -/
inductive HmEvent (α : Type) where
  | insert (node : HNode α) (slots ticks : Nat)
  | lookup (hcode : UInt64) (eq : HNode α → Bool) (ticks : Nat)
  | delete (hcode : UInt64) (eq : HNode α → Bool) (ticks : Nat)

def HmEvent.work : HmEvent α → Nat
  | .insert _ slots ticks => slots + ticks
  | .lookup _ _ ticks => ticks
  | .delete _ _ ticks => ticks

def HmEvent.isInsert : HmEvent α → Bool
  | .insert _ _ _ => true
  | _ => false

inductive HmStep : HMap α → HmEvent α → HMap α → Prop
  | insert {h h2 h' : HMap α} {n : HNode α} {ticks : Nat} : hmInsert h n = .ok h' →
      hmFill h n = .ok h2 → helpWork h2 = .ok ticks →
      HmStep h (.insert n (h2.numSlots - h.numSlots) ticks) h'
  | lookup {h h' : HMap α} {hcode : UInt64} {eq : HNode α → Bool} {r : Option (HNode α)}
      {ticks : Nat} : hmLookup h hcode (pureEq eq) = .ok (h', r) → helpWork h = .ok ticks →
      HmStep h (.lookup hcode eq ticks) h'
  | delete {h h' : HMap α} {hcode : UInt64} {eq : HNode α → Bool} {r : Option (HNode α)}
      {ticks : Nat} : hmDelete h hcode (pureEq eq) = .ok (h', r) → helpWork h = .ok ticks →
      HmStep h (.delete hcode eq ticks) h'

/-! ## The potential -/

/-- What has been put aside: a unit for each node to migrate and each slot to pass, three for each
    node over half of the threshold, and the first table. -/
def HMap.potential (h : HMap α) : Nat :=
  h.older.size + (h.older.slots.length - h.migratePos) +
    3 * (hmSize h - kMaxLoadFactor / 2 * (h.newer.mask + 1)) + if h.newer.mask = 0 then 4 else 0

/-- Each iteration is paid for. -/
theorem helpTicks_potential {fuel nwork ticks : Nat} {h h' : HMap α} (hi : h.Inv)
    (hrun : helpTicks fuel h nwork = .ok (h', ticks)) :
    h'.Inv ∧ ticks + h'.potential ≤ h.potential := by
  induction fuel generalizing h nwork ticks with
  | zero => cases hrun
  | succ fuel ih =>
    rw [helpTicks] at hrun
    by_cases hgo : nwork < kRehashingWork ∧ h.older.size > 0
    · obtain ⟨h1, ns, hstep, hmoved, hcase, hslots, -⟩ := helpStep_spec hi hgo.1 hgo.2
      rw [hstep, ok_bind] at hrun
      obtain ⟨⟨h2, ticks2⟩, hrest, hrun⟩ := bind_eq_ok.mp hrun
      cases hrun
      obtain ⟨hi', hpays⟩ := ih hmoved.inv hrest
      refine ⟨hi', ?_⟩
      obtain ⟨ho, -, -, hu⟩ := hi.migrating hgo.2
      have hle := hu.le_mask
      have hlen := ho.length
      have hsize : hmSize h1 = hmSize h := by
        rw [hmSize_eq hmoved.inv, hmSize_eq hi]
        exact (hmoved.migrated hi (k := ns.length) (by have := hmoved.size hi; omega)).perm.length_eq
      have hone : h1.older.size + (h1.older.slots.length - h1.migratePos) + 1 =
          h.older.size + (h.older.slots.length - h.migratePos) := by
        have hsz := hmoved.size hi
        rcases hcase with ⟨rfl, hpos⟩ | ⟨hns, hpos⟩
        · rw [List.length_nil] at hsz
          omega
        · omega
      have hpot : h1.potential + 1 = h.potential := by
        unfold HMap.potential
        rw [hsize, hmoved.mask]
        omega
      omega
    · have hstop : helpStep h nwork = .ok none := if_neg hgo
      rw [hstop, ok_bind] at hrun
      cases hrun
      exact ⟨hi, Nat.le_of_eq (Nat.zero_add _)⟩

/-- `hm_help_rehashing` lives on what has been put aside. -/
theorem hmHelpRehashing_potential {h h' : HMap α} {ticks : Nat} (hi : h.Inv)
    (hrun : hmHelpRehashing h = .ok h') (hwork : helpWork h = .ok ticks) :
    ticks + h'.potential ≤ h.potential := by
  obtain ⟨⟨h1, ticks'⟩, hticks, hwork⟩ := bind_eq_ok.mp hwork
  cases hwork
  obtain ⟨-, hpays⟩ := helpTicks_potential hi hticks
  unfold hmHelpRehashing at hrun
  rw [helpLoop_ticks, hticks, ok_bind, ok_bind] at hrun
  dsimp only at hrun
  split at hrun
  · next hfree =>
    cases hrun
    have hdrop : ({ h1 with older := {} } : HMap α).potential ≤ h1.potential := by
      unfold HMap.potential hmSize
      rw [hfree.1, slots_empty, List.length_nil, Nat.zero_sub]
      dsimp only
      omega
    omega
  · cases hrun
    exact hpays

theorem exists_helpWork {h : HMap α} (hi : h.Inv) : ∃ ticks, helpWork h = .ok ticks := by
  obtain ⟨h', hrun, -⟩ := hmHelpRehashing_spec hi
  unfold hmHelpRehashing at hrun
  rw [helpLoop_ticks, bind_assoc] at hrun
  obtain ⟨r, hticks, -⟩ := bind_eq_ok.mp hrun
  refine ⟨r.2, ?_⟩
  unfold helpWork
  rw [hticks]
  rfl

/-- A deletion takes nothing from what has been put aside but its migration. -/
theorem hmDelete_tables {h h' : HMap α} {hcode : UInt64} {eq : HNode α → Exec Bool}
    {r : Option (HNode α)} (hrun : hmDelete h hcode eq = .ok (h', r)) :
    ∃ h1, hmHelpRehashing h = .ok h1 ∧ h'.potential ≤ h1.potential := by
  -- A table that a node is taken from keeps its slots.
  have hdetach : ∀ {t t' : HTab α} {f : From} {n : HNode α}, hDetach t f = .ok (t', n) →
      t'.size ≤ t.size ∧ t'.mask = t.mask ∧ t'.slots.length = t.slots.length := by
    intro t t' f n hdet
    obtain ⟨hsize, hmask, -⟩ := hDetach_size hdet
    obtain ⟨slots, htab, hdet⟩ := bind_eq_ok.mp hdet
    obtain ⟨chain, -, hdet⟩ := bind_eq_ok.mp hdet
    obtain ⟨node, -, hdet⟩ := bind_eq_ok.mp hdet
    cases hdet
    refine ⟨hsize, hmask, ?_⟩
    have htab : t.tab = some slots := by
      cases htab' : t.tab with
      | none =>
        rw [htab'] at htab
        cases htab
      | some slots' =>
        rw [htab'] at htab
        cases htab
        rfl
    unfold HTab.slots
    rw [htab, Option.getD_some, Option.getD_some, List.length_set]
  obtain ⟨h1, hhelp, hrun⟩ := bind_eq_ok.mp hrun
  obtain ⟨rn, -, hrun⟩ := bind_eq_ok.mp hrun
  refine ⟨h1, hhelp, ?_⟩
  unfold HMap.potential hmSize
  cases rn with
  | some f =>
    obtain ⟨⟨t', n⟩, hdet, hrun⟩ := bind_eq_ok.mp hrun
    cases hrun
    obtain ⟨hsize, hmask, hslots⟩ := hdetach hdet
    dsimp only
    rw [hmask]
    omega
  | none =>
    obtain ⟨ro, -, hrun⟩ := bind_eq_ok.mp hrun
    cases ro with
    | some f =>
      obtain ⟨⟨t', n⟩, hdet, hrun⟩ := bind_eq_ok.mp hrun
      cases hrun
      obtain ⟨hsize, hmask, hslots⟩ := hdetach hdet
      dsimp only
      rw [hslots]
      omega
    | none =>
      cases hrun
      exact Nat.le_refl _

/-! ## Insertions -/

/-- The map `h2` after the first part of an insertion into `h`: the node is in the newer table `t`,
    allocated if it was not; or that table was full, and has become the older one. -/
structure Grown (h h2 : HMap α) (t : HTab α) : Prop where
  wf : t.Wf
  size : t.size = h.newer.size + 1
  mask : (h.newer.mask = 0 ∧ h.older = {} ∧ t.mask = 3) ∨ t.mask = h.newer.mask
  next : h2 = { h with newer := t } ∨
    (h.older = {} ∧ (t.mask + 1) * kMaxLoadFactor ≤ t.size ∧ h2.older = t ∧ h2.newer.Wf ∧
      h2.newer.size = 0 ∧ h2.newer.mask + 1 = (t.mask + 1) * 2 ∧ h2.migratePos = 0)

theorem hmFill_grown {h h2 : HMap α} (hi : h.Inv) {n : HNode α} (hrun : hmFill h n = .ok h2) :
    ∃ t, Grown h h2 t := by
  obtain ⟨t0, halloc, hrun⟩ := bind_eq_ok.mp hrun
  obtain ⟨t, hins, hrun⟩ := bind_eq_ok.mp hrun
  -- The newer table, allocated if it was not.
  obtain ⟨hw0, hsize0, hmask0⟩ : t0.Wf ∧ t0.size = h.newer.size ∧
      ((h.newer.mask = 0 ∧ h.older = {} ∧ t0.mask = 3) ∨ t0.mask = h.newer.mask) := by
    rcases hi.newer with he | hw
    · rw [he] at halloc
      obtain ⟨t', hinit, hw, hmask, hnil⟩ := hInit_spec (α := α) 0
      obtain rfl : t' = t0 := ok_unique hinit halloc
      have holder : h.older = {} := by
        rcases hi.older with ho | ⟨-, hw, -⟩
        · exact ho
        · have := hw.alloc
          rw [he] at this
          cases this
      rw [he, hw.size, hnil]
      exact ⟨hw, rfl, Or.inl ⟨rfl, holder, by omega⟩⟩
    · rw [hw.alloc] at halloc
      cases halloc
      exact ⟨hw, rfl, Or.inr rfl⟩
  obtain ⟨t', hins', hw, hmask, hperm⟩ := hInsert_spec hw0 n
  obtain rfl := ok_unique hins' hins
  have hsize : t'.size = h.newer.size + 1 := by
    rw [hw.size, hperm.length_eq, List.length_cons, ← hw0.size, hsize0]
  refine ⟨t', hw, hsize, hmask ▸ hmask0, ?_⟩
  dsimp only at hrun
  split at hrun
  · next htrig =>
    obtain ⟨hnone, hfull⟩ := htrig
    have holder : h.older = {} := by
      rcases hi.olderTab with ho | hw
      · exact ho
      · rw [hw.alloc] at hnone
        cases hnone
    obtain ⟨k, hk⟩ := hw.pow
    obtain ⟨new, hnew, hnewWf, hnewMask, hnewNil⟩ := hInit_spec (α := α) (k + 1)
    have hpow : (t'.mask + 1) * 2 = 2 ^ (k + 1 + 2) := by
      rw [hk, show k + 1 + 2 = (k + 2) + 1 by omega, Nat.pow_succ 2 (k + 2)]
    unfold hmTriggerRehashing at hrun
    rw [check_of hnone, ok_bind] at hrun
    dsimp only at hrun
    rw [hpow, hnew, ok_bind] at hrun
    cases hrun
    refine Or.inr ⟨holder, hfull, rfl, hnewWf, ?_, hnewMask.trans hpow.symm, rfl⟩
    rw [hnewWf.size, hnewNil, List.length_nil]
  · cases hrun
    exact Or.inl rfl

/-- The first part of an insertion puts three units aside, or pays for the tables. -/
theorem hmFill_potential {h h2 : HMap α} (hi : h.Inv) (hl : Loaded h) {n : HNode α}
    (hrun : hmFill h n = .ok h2) :
    h2.numSlots - h.numSlots + h2.potential ≤ h.potential + 3 := by
  obtain ⟨t, hg⟩ := hmFill_grown hi hrun
  have hsize := hg.size
  have hlen := hg.wf.length
  have hnz := hg.wf.mask_ne_zero
  have hload := hl.size
  have hold : h.newer.mask = 0 ∨ h.newer.slots.length = h.newer.mask + 1 := by
    rcases hi.newer with he | hw
    · rw [he]
      exact Or.inl rfl
    · exact Or.inr hw.length
  unfold HMap.threshold at hload
  unfold HMap.numSlots HMap.potential
  rcases hg.next with rfl | ⟨holder, hfull, holder2, hwf2, hsize2, hmask2, hpos2⟩
  · unfold hmSize kMaxLoadFactor at *
    dsimp only
    rcases hg.mask with ⟨hzero, holder, hmask⟩ | hmask
    · rw [holder, slots_empty, hmask, hzero, if_pos rfl, if_neg (by decide)]
      simp only [List.length_nil]
      omega
    · rw [if_neg hnz, if_neg (hmask ▸ hnz)]
      omega
  · have hlen2 := hwf2.length
    have hnz2 := hwf2.mask_ne_zero
    unfold hmSize kMaxLoadFactor at *
    rw [holder, slots_empty] at *
    rw [holder2, hsize2, hpos2, if_neg hnz2]
    simp only [List.length_nil]
    rcases hg.mask with ⟨hzero, -, hmask⟩ | hmask
    · omega
    · rw [if_neg (hmask ▸ hnz)]
      omega

/-! ## Runs -/

/-- Three units for an insertion, and none for the other calls. -/
def HmEvent.credit (e : HmEvent α) : Nat := if e.isInsert then 3 else 0

theorem HmStep.pays {h h' : HMap α} {e : HmEvent α} (hi : h.Inv ∧ Loaded h)
    (hstep : HmStep h e h') :
    (h'.Inv ∧ Loaded h') ∧ e.work + h'.potential ≤ h.potential + e.credit := by
  obtain ⟨hi, hl⟩ := hi
  cases hstep with
  | @insert h2 _ n ticks hrun hfill hwork =>
    obtain ⟨_, hrun', hi', -⟩ := hmInsert_spec hi n
    obtain rfl := ok_unique hrun hrun'
    refine ⟨⟨hi', hl.insert hi hrun⟩, ?_⟩
    have hput := hmFill_potential hi hl hfill
    obtain ⟨_, hfill', hfilled⟩ := hmFill_spec hi n
    obtain rfl := ok_unique hfill hfill'
    rw [hmInsert_eq, hfill, ok_bind] at hrun
    have hpays := hmHelpRehashing_potential hfilled.inv hrun hwork
    show h2.numSlots - h.numSlots + ticks + h'.potential ≤ h.potential + 3
    omega
  | @lookup _ hcode eq r ticks hrun hwork =>
    obtain ⟨h'', r', hrun', hmig, -⟩ := hmLookup_spec hi (decides_pureEq eq hcode _)
    cases ok_unique hrun' hrun
    exact ⟨⟨hmig.inv, hl.lookup hi hrun⟩,
      hmHelpRehashing_potential hi (hmLookup_map hrun) hwork⟩
  | @delete _ hcode eq r ticks hrun hwork =>
    obtain ⟨h'', r', hrun', hi', -⟩ := hmDelete_spec hi (decides_pureEq eq hcode _)
    cases ok_unique hrun' hrun
    refine ⟨⟨hi', hl.delete hi hrun⟩, ?_⟩
    obtain ⟨h1, hhelp, hshrunk⟩ := hmDelete_tables hrun
    exact (Nat.add_le_add_left hshrunk _).trans (hmHelpRehashing_potential hi hhelp hwork)

/-- The calls that insert. -/
def numInserts (es : List (HmEvent α)) : Nat := es.countP HmEvent.isInsert

theorem sum_credit (es : List (HmEvent α)) : (es.map HmEvent.credit).sum = 3 * numInserts es := by
  induction es with
  | nil => rfl
  | cons e es ih =>
    unfold numInserts at *
    rw [List.map_cons, List.sum_cons, ih, List.countP_cons]
    unfold HmEvent.credit
    split
    · omega
    · omega

theorem run_pays {h : HMap α} {es : List (HmEvent α)} (hrun : Run HmStep {} es h) :
    (h.Inv ∧ Loaded h) ∧ (es.map HmEvent.work).sum + h.potential ≤ 4 + 3 * numInserts es := by
  rw [← sum_credit]
  exact hrun.amortized (I := fun h : HMap α => h.Inv ∧ Loaded h)
    (fun _ _ _ hi hstep => hstep.pays hi) ⟨HMap.Inv.empty, Loaded.empty⟩

/-- The next insertion. -/
theorem HmStep.exists_insert {h : HMap α} (hi : h.Inv) (n : HNode α) : ∃ slots ticks h',
    HmStep h (.insert n slots ticks) h' ∧ hmInsert h n = .ok h' ∧ h'.Inv := by
  obtain ⟨h2, hfill, hfilled⟩ := hmFill_spec hi n
  obtain ⟨h', hins, hi', -⟩ := hmInsert_spec hi n
  obtain ⟨ticks, hwork⟩ := exists_helpWork hfilled.inv
  exact ⟨_, ticks, h', .insert hins hfill hwork, hins, hi'⟩

/-- **Rehashing is paid for by insertions.** In every run of calls, the slots that are allocated and
    the iterations of the loop of `hm_help_rehashing` are no more than three times the insertions,
    and the first table; lookups and deletions cost nothing on the whole. And a run can go on with
    any call. -/
theorem rehashing_amortized {h : HMap α} {es : List (HmEvent α)} (hrun : Run HmStep {} es h) :
    (es.map HmEvent.work).sum ≤ 3 * numInserts es + 4 ∧
      (∀ n, ∃ slots ticks h', HmStep h (.insert n slots ticks) h') ∧
      ∀ hcode eq, (∃ ticks h', HmStep h (.lookup hcode eq ticks) h') ∧
        ∃ ticks h', HmStep h (.delete hcode eq ticks) h' := by
  obtain ⟨⟨hi, -⟩, hsum⟩ := run_pays hrun
  obtain ⟨ticks, hwork⟩ := exists_helpWork hi
  refine ⟨by omega, fun n => ?_, fun hcode eq => ⟨?_, ?_⟩⟩
  · obtain ⟨slots, ticks, h', hstep, -⟩ := HmStep.exists_insert hi n
    exact ⟨slots, ticks, h', hstep⟩
  · obtain ⟨h', r, hlookup, -⟩ := hmLookup_spec hi (decides_pureEq eq hcode _)
    exact ⟨ticks, h', .lookup hlookup hwork⟩
  · obtain ⟨h', r, hdelete, -⟩ := hmDelete_spec hi (decides_pureEq eq hcode _)
    exact ⟨ticks, h', .delete hdelete hwork⟩

/-- Inserting one node after another. -/
theorem exists_insert_run {h : HMap α} (hi : h.Inv) (ns : List (HNode α)) :
    ∃ es h', Run HmStep h es h' ∧ ns.foldlM hmInsert h = .ok h' ∧ numInserts es = ns.length ∧
      h'.Inv := by
  induction ns using List.reverseRecOn with
  | nil => exact ⟨[], h, .refl h, rfl, rfl, hi⟩
  | append_singleton ns n ih =>
    obtain ⟨es, h1, hrun, hfold, hnum, hi1⟩ := ih
    obtain ⟨slots, ticks, h2, hstep, hins, hi2⟩ := HmStep.exists_insert hi1 n
    refine ⟨_, h2, hrun.snoc hstep, ?_, ?_, hi2⟩
    · rw [List.foldlM_append, hfold]
      exact (bind_pure _).trans hins
    · unfold numInserts at *
      rw [List.countP_append, hnum, List.length_append]
      rfl

/-- What the call after the 256th insertion has to do: 128 nodes to move, and 16 slots to pass. -/
theorem migrating_work : ((firstNodes 256).foldlM hmInsert {} >>= helpWork : Exec Nat) = .ok 144 := by
  decide +kernel

/-- 256 insertions, and the lookup that ends the fourth migration. -/
theorem rehashing_amortized_migrating : ∃ (h h' : HMap Nat) (es : List (HmEvent Nat)),
    Run HmStep {} es h ∧ numInserts es = 256 ∧ h.older.size = 128 ∧
      HmStep h (.lookup 7 (fun _ => false) 144) h' ∧
      (es.map HmEvent.work).sum + 144 ≤ 772 := by
  obtain ⟨es, h, hrun, hfold, hnum, hi⟩ := exists_insert_run HMap.Inv.empty (firstNodes 256)
  have hsizes := migrating_sizes
  rw [hfold, ok_bind] at hsizes
  have hwork := migrating_work
  rw [hfold, ok_bind] at hwork
  obtain ⟨h', r, hlookup, -⟩ := hmLookup_spec hi (decides_pureEq (fun _ => false) 7 _)
  have hstep : HmStep h (.lookup 7 (fun _ => false) 144) h' := .lookup hlookup hwork
  have hsum := (rehashing_amortized (hrun.snoc hstep)).1
  have hlookups : numInserts (es ++ [.lookup 7 (fun _ => false) 144]) = 256 := by
    rw [numInserts, List.countP_append]
    exact hnum.trans (length_firstNodes 256)
  rw [hlookups, List.map_append, List.sum_append] at hsum
  exact ⟨h, h', es, hrun, hnum.trans (length_firstNodes 256),
    congrArg Prod.fst (Except.ok.inj hsizes), hstep, hsum⟩

end Greenis
