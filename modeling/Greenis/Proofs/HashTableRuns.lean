/-
  Progressive rehashing is invisible: over any run of calls on a map that starts empty, the map
  is the bag of the nodes inserted and not yet deleted.

  `HmReached h S` is a map a run reaches together with that bag, kept from the calls and their
  answers alone. `hmap_is_bag` says what the map then holds and what every further call does.
-/
import Mathlib.Data.Multiset.Filter
import Greenis.Proofs.HashTable

namespace Greenis
open CExec

variable {α : Type} [DecidableEq α]

/-- The comparison of a call, for a key that is already captured. -/
abbrev pureEq (eq : HNode α → Bool) : HNode α → Exec Bool := fun n => .ok (eq n)

/-- The comparison relates the key only to nodes of the key's hash code. -/
def Respects (hcode : UInt64) (eq : HNode α → Bool) : Prop := ∀ n, eq n = true → n.hcode = hcode

/-- The bag after a deletion that answered `r`. -/
def bagDelete (S : Multiset (HNode α)) : Option (HNode α) → Multiset (HNode α)
  | some n => S.erase n
  | none => S

/-- The maps that runs of calls reach, each with the bag of nodes inserted and not deleted. -/
inductive HmReached : HMap α → Multiset (HNode α) → Prop where
  | init : HmReached {} 0
  | insert {h h' : HMap α} {S : Multiset (HNode α)} (n : HNode α) : HmReached h S → n ∉ S →
      hmInsert h n = .ok h' → HmReached h' (n ::ₘ S)
  | lookup {h h' : HMap α} {S : Multiset (HNode α)} {r : Option (HNode α)} (hcode : UInt64)
      (eq : HNode α → Bool) : HmReached h S → Respects hcode eq →
      hmLookup h hcode (pureEq eq) = .ok (h', r) → HmReached h' S
  | delete {h h' : HMap α} {S : Multiset (HNode α)} {r : Option (HNode α)} (hcode : UInt64)
      (eq : HNode α → Bool) : HmReached h S → Respects hcode eq →
      hmDelete h hcode (pureEq eq) = .ok (h', r) → HmReached h' (bagDelete S r)
  | foreach {σ : Type} {h : HMap α} {S : Multiset (HNode α)} (f : HNode α → σ → Exec (Bool × σ))
      (s s' : σ) : HmReached h S → hmForeach h f s = .ok s' → HmReached h S

/-- The map `h` stores the bag `S`. -/
structure Stores (h : HMap α) (S : Multiset (HNode α)) : Prop where
  inv : h.Inv
  bag : (h.nodes : Multiset (HNode α)) = S
  nodup : h.nodes.Nodup

omit [DecidableEq α] in
theorem decides_pureEq (eq : HNode α → Bool) (hcode : UInt64) (ns : List (HNode α)) :
    Decides (pureEq eq) (fun n => eq n = true) hcode ns :=
  fun n _ _ => ⟨eq n, rfl, Iff.rfl⟩

/-- The answer of a lookup, in terms of the bag. -/
def BagAnswer (S : Multiset (HNode α)) (eq : HNode α → Bool) : Option (HNode α) → Prop
  | some n => n ∈ S ∧ eq n = true
  | none => ∀ n ∈ S, eq n = false

omit [DecidableEq α] in
theorem Stores.bagAnswer {h : HMap α} {S : Multiset (HNode α)} (hs : Stores h S) {hcode : UInt64}
    {eq : HNode α → Bool} (hr : Respects hcode eq) {r : Option (HNode α)}
    (ha : Answer h.nodes (fun n => eq n = true) hcode r) : BagAnswer S eq r := by
  rw [← hs.bag]
  cases r with
  | some n => exact ⟨ha.1, ha.2.2⟩
  | none =>
    intro n hn
    by_contra he
    have he' : eq n = true := by simpa using he
    exact ha n hn (hr n he') he'

omit [DecidableEq α] in
theorem Stores.insert {h : HMap α} {S : Multiset (HNode α)} (hs : Stores h S) {n : HNode α}
    (hn : n ∉ S) : ∃ h', hmInsert h n = .ok h' ∧ Stores h' (n ::ₘ S) := by
  obtain ⟨h', hrun, hi, hp⟩ := hmInsert_spec hs.inv n
  have hmem : n ∉ h.nodes := fun hm => hn (by rw [← hs.bag]; exact hm)
  refine ⟨h', hrun, hi, ?_, hp.nodup_iff.mpr (List.nodup_cons.mpr ⟨hmem, hs.nodup⟩)⟩
  rw [← hs.bag, Multiset.cons_coe]
  exact Multiset.coe_eq_coe.mpr hp

omit [DecidableEq α] in
theorem Stores.lookup {h : HMap α} {S : Multiset (HNode α)} (hs : Stores h S) {hcode : UInt64}
    {eq : HNode α → Bool} (hr : Respects hcode eq) :
    ∃ h' r, hmLookup h hcode (pureEq eq) = .ok (h', r) ∧ Stores h' S ∧ BagAnswer S eq r := by
  obtain ⟨h', r, hrun, hmig, ha⟩ := hmLookup_spec hs.inv (decides_pureEq eq hcode _)
  refine ⟨h', r, hrun, ⟨hmig.inv, ?_, hmig.perm.nodup_iff.mpr hs.nodup⟩, hs.bagAnswer hr ha⟩
  rw [← hs.bag]
  exact Multiset.coe_eq_coe.mpr hmig.perm

theorem Stores.delete {h : HMap α} {S : Multiset (HNode α)} (hs : Stores h S) {hcode : UInt64}
    {eq : HNode α → Bool} (hr : Respects hcode eq) :
    ∃ h' r, hmDelete h hcode (pureEq eq) = .ok (h', r) ∧ Stores h' (bagDelete S r) ∧
      BagAnswer S eq r := by
  obtain ⟨h', r, hrun, hi, ha, hrem⟩ := hmDelete_spec hs.inv (decides_pureEq eq hcode _)
  refine ⟨h', r, hrun, ?_, hs.bagAnswer hr ha⟩
  cases r with
  | some n =>
    have hp : h.nodes.Perm (n :: h'.nodes) := hrem
    refine ⟨hi, ?_, (List.nodup_cons.mp (hp.nodup_iff.mp hs.nodup)).2⟩
    have hbag : S = n ::ₘ (h'.nodes : Multiset (HNode α)) := by
      rw [← hs.bag, Multiset.cons_coe]
      exact Multiset.coe_eq_coe.mpr hp
    rw [bagDelete, hbag, Multiset.erase_cons_head]
  | none =>
    have hp : h'.nodes.Perm h.nodes := hrem
    refine ⟨hi, ?_, hp.nodup_iff.mpr hs.nodup⟩
    rw [bagDelete, ← hs.bag]
    exact Multiset.coe_eq_coe.mpr hp

theorem HmReached.stores {h : HMap α} {S : Multiset (HNode α)} (hr : HmReached h S) :
    Stores h S := by
  induction hr with
  | init => exact ⟨HMap.Inv.empty, rfl, List.nodup_nil⟩
  | insert n _ hn hrun ih =>
    obtain ⟨h', hrun', hs⟩ := ih.insert hn
    cases ok_unique hrun hrun'
    exact hs
  | lookup hcode eq _ hresp hrun ih =>
    obtain ⟨h', r, hrun', hs, _⟩ := ih.lookup hresp
    cases ok_unique hrun hrun'
    exact hs
  | delete hcode eq _ hresp hrun ih =>
    obtain ⟨h', r, hrun', hs, _⟩ := ih.delete hresp
    cases ok_unique hrun hrun'
    exact hs
  | foreach _ _ _ _ _ ih => exact ih

/-- **Progressive rehashing is invisible.** Whatever calls led to the map `h`, it stores the
    nodes inserted and not deleted, each in one chain of one of its two tables, and every
    further call returns and acts as on that bag. -/
theorem hmap_is_bag {h : HMap α} {S : Multiset (HNode α)} (hr : HmReached h S) :
    ((h.newer.nodes ++ h.older.nodes : List (HNode α)) : Multiset (HNode α)) = S ∧
    (h.newer.nodes ++ h.older.nodes).Nodup ∧
    hmSize h = S.card ∧
    (∀ n, n ∉ S → ∃ h', hmInsert h n = .ok h' ∧ (h'.nodes : Multiset (HNode α)) = n ::ₘ S) ∧
    (∀ hcode eq, Respects hcode eq → ∃ h' r, hmLookup h hcode (pureEq eq) = .ok (h', r) ∧
      BagAnswer S eq r ∧ (h'.nodes : Multiset (HNode α)) = S) ∧
    (∀ hcode eq, Respects hcode eq → ∃ h' r, hmDelete h hcode (pureEq eq) = .ok (h', r) ∧
      BagAnswer S eq r ∧ (h'.nodes : Multiset (HNode α)) = bagDelete S r) ∧
    (∃ ns : List (HNode α), (ns : Multiset (HNode α)) = S ∧
      ∀ (σ : Type) (f : HNode α → σ → Exec (Bool × σ)) (g : σ → HNode α → σ),
        (∀ n ∈ S, ∀ s, f n s = .ok (true, g s n)) →
        ∀ s, hmForeach h f s = .ok (ns.foldl g s)) := by
  have hs := hr.stores
  refine ⟨hs.bag, hs.nodup, ?_, fun n hn => ?_, fun hcode eq hresp => ?_, fun hcode eq hresp => ?_,
    h.nodes, hs.bag, fun σ f g hf s => ?_⟩
  · rw [hmSize_eq hs.inv, ← hs.bag]
    rfl
  · obtain ⟨h', hrun, hs'⟩ := hs.insert hn
    exact ⟨h', hrun, hs'.bag⟩
  · obtain ⟨h', r, hrun, hs', ha⟩ := hs.lookup hresp
    exact ⟨h', r, hrun, ha, hs'.bag⟩
  · obtain ⟨h', r, hrun, hs', ha⟩ := hs.delete hresp
    exact ⟨h', r, hrun, ha, hs'.bag⟩
  · rw [hmForeach_eq hs.inv, chainForeach_visits fun n hn => hf n (by rw [← hs.bag]; exact hn)]
    rfl

/-- Inserting one node after another. -/
theorem HmReached.inserts {h : HMap α} {S : Multiset (HNode α)} (hr : HmReached h S)
    {ns : List (HNode α)} (hnodup : ns.Nodup) (hnew : ∀ n ∈ ns, n ∉ S) :
    ∃ h', ns.foldlM hmInsert h = .ok h' ∧ HmReached h' (ns + S) := by
  induction ns generalizing h S with
  | nil => exact ⟨h, rfl, by simpa using hr⟩
  | cons n ns ih =>
    obtain ⟨hn, hnodup⟩ := List.nodup_cons.mp hnodup
    obtain ⟨h1, hrun, -⟩ := hr.stores.insert (hnew n List.mem_cons_self)
    obtain ⟨h2, hrun2, hr2⟩ := ih (hr.insert n (hnew n List.mem_cons_self) hrun) hnodup
      fun m hm hin => (Multiset.mem_cons.mp hin).elim (fun heq => hn (heq ▸ hm))
        (hnew m (List.mem_cons_of_mem n hm))
    refine ⟨h2, by rw [List.foldlM_cons, hrun]; exact hrun2, ?_⟩
    have hbag : (↑(n :: ns) + S : Multiset (HNode α)) = ↑ns + n ::ₘ S := by
      rw [← Multiset.cons_coe, Multiset.cons_add, Multiset.add_cons]
    rwa [hbag]

/-- The nodes from 0 on, each with itself as its hash code. -/
def firstNodes (n : Nat) : List (HNode Nat) := (List.range n).map fun i => ⟨i, i.toUInt64⟩

theorem nodup_firstNodes (n : Nat) : (firstNodes n).Nodup :=
  List.nodup_range.map fun _ _ h => congrArg HNode.owner h

theorem length_firstNodes (n : Nat) : (firstNodes n).length = n := by
  rw [firstNodes, List.length_map, List.length_range]

/-- The 256th insertion starts a migration and moves a half of the nodes. -/
theorem migrating_sizes : ((firstNodes 256).foldlM hmInsert {} >>= fun h =>
    Except.ok (h.older.size, h.older.mask, h.newer.mask) : Exec (Nat × Nat × Nat)) =
      .ok (128, 31, 63) := by
  decide +kernel

/-- A deletion, a lookup and a walk in the middle of a migration: 256 nodes are inserted, and half
    of them have moved when the node 200 is deleted. -/
theorem hmap_is_bag_migrating : ∃ (h h' : HMap Nat) (eq : HNode Nat → Bool),
    (firstNodes 256).foldlM hmInsert {} = .ok h ∧ h.older.size = 128 ∧ hmSize h = 256 ∧
      hmDelete h 200 (pureEq eq) = .ok (h', some ⟨200, 200⟩) ∧ hmSize h' = 255 ∧
      (∃ h'', hmLookup h' 200 (pureEq eq) = .ok (h'', none)) ∧
      hmForeach h' (fun _ k => .ok (true, k + 1)) 0 = .ok 255 := by
  obtain ⟨h, hrun, hr⟩ := HmReached.init.inserts (nodup_firstNodes 256)
    fun n _ => Multiset.notMem_zero n
  have hsizes := migrating_sizes
  rw [hrun, ok_bind] at hsizes
  rw [Multiset.add_zero] at hr
  set eq : HNode Nat → Bool := fun n => decide (n = ⟨200, 200⟩) with heq
  have hresp : Respects 200 eq := fun n hn => by rw [of_decide_eq_true hn]
  have hmem : (⟨200, 200⟩ : HNode Nat) ∈ (↑(firstNodes 256) : Multiset (HNode Nat)) :=
    Multiset.mem_coe.mpr (List.mem_map.mpr ⟨200, List.mem_range.mpr (by decide), rfl⟩)
  have hbag : (↑(firstNodes 256) : Multiset (HNode Nat)).Nodup :=
    Multiset.coe_nodup.mpr (nodup_firstNodes 256)
  obtain ⟨-, -, hsize, -, -, hdelete, -⟩ := hmap_is_bag hr
  rw [Multiset.coe_card, length_firstNodes] at hsize
  obtain ⟨h', r, hdel, hanswer, -⟩ := hdelete 200 eq hresp
  obtain rfl : r = some ⟨200, 200⟩ := by
    cases r with
    | some n => exact congrArg some (of_decide_eq_true hanswer.2)
    | none => exact absurd (hanswer _ hmem) (by simp [heq])
  -- From here on the bag has 255 nodes.
  obtain ⟨-, -, hsize', -, hlookup, -, ns, hns, hwalk⟩ :=
    hmap_is_bag (hr.delete 200 eq hresp hdel)
  have hcard : (bagDelete (↑(firstNodes 256) : Multiset (HNode Nat))
      (some ⟨200, 200⟩)).card = 255 := by
    rw [bagDelete, Multiset.card_erase_of_mem hmem, Multiset.coe_card, length_firstNodes]
    rfl
  obtain ⟨h'', r, hlook, hanswer, -⟩ := hlookup 200 eq hresp
  obtain rfl : r = none := by
    cases r with
    | none => rfl
    | some n =>
      obtain rfl : n = ⟨200, 200⟩ := of_decide_eq_true hanswer.2
      have hgone := Multiset.Nodup.notMem_erase (a := ⟨200, 200⟩) hbag
      exact absurd hanswer.1 hgone
  refine ⟨h, h', eq, hrun, congrArg Prod.fst (Except.ok.inj hsizes), hsize, hdel,
    hsize'.trans hcard, ⟨h'', hlook⟩, ?_⟩
  rw [hwalk Nat (fun _ k => .ok (true, k + 1)) (fun k _ => k + 1) (fun _ _ _ => rfl) 0,
    List.foldl_add_const, Nat.zero_add, Nat.one_mul, ← Multiset.coe_card, hns, hcard]

end Greenis
