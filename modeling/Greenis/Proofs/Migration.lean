/-
  A call of `hm_help_rehashing` stays inside of the older table, and ends.

  The loop bounds the nodes it moves and not `migrate_pos`. That each of its reads is in bounds
  follows from the counter: while `older.size` is positive, a slot from `migrate_pos` on holds a
  node (`HMap.Unmigrated`), whatever deletions took from the table in the meantime. The iterations
  keep the invariant of the map, so this holds at every head of the loop (`LoopHead`).
-/
import Greenis.Proofs.HashTableLoad

namespace Greenis
open CExec Buckets

variable {α : Type}

/-- The maps on which the operations of a run call `hm_help_rehashing`: an insertion calls it last,
    the other operations first. -/
inductive Helping : HMap α → Prop
  | call {h : HMap α} : HmRun h → Helping h
  | insert {h g : HMap α} (n : HNode α) : HmRun h → n ∉ h.nodes → hmFill h n = .ok g → Helping g

/-- The states at the head of the loop, in a call on `h`. -/
inductive LoopHead (h : HMap α) : HMap α → Nat → Prop
  | enter : LoopHead h h 0
  | next {g g' : HMap α} {nwork nwork' : Nat} : LoopHead h g nwork →
      helpStep g nwork = .ok (some (g', nwork')) → LoopHead h g' nwork'

theorem Helping.inv {h : HMap α} (hc : Helping h) : h.Inv := by
  cases hc with
  | call hr => exact hr.loaded.1
  | insert n hr _ hrun =>
    obtain ⟨g, hrun', hfilled⟩ := hmFill_spec hr.loaded.1 n
    cases ok_unique hrun' hrun
    exact hfilled.inv

theorem LoopHead.inv {h g : HMap α} {nwork : Nat} (hi : h.Inv) (hg : LoopHead h g nwork) :
    g.Inv := by
  induction hg with
  | enter => exact hi
  | @next g g' nwork nwork' _ hrun ih =>
    by_cases hgo : nwork < kRehashingWork ∧ 0 < g.older.size
    · obtain ⟨g1, ns, hrun', hmoved, -⟩ := helpStep_spec ih hgo.1 hgo.2
      cases ok_unique hrun' hrun
      exact hmoved.inv
    · rw [helpStep, if_neg hgo] at hrun
      cases hrun

/-- A node of a table is in the chain of its slot. -/
theorem HTab.Wf.mem_chain {t : HTab α} (hw : t.Wf) {n : HNode α} (hn : n ∈ t.nodes) :
    ∃ slots chain, t.tab = some slots ∧ slots[n.hcode.toNat &&& t.mask]? = some chain ∧
      n ∈ chain := by
  obtain ⟨chain, hc, hmem⟩ := hw.filed.mem_bucket hn
  exact ⟨t.slots, chain, hw.alloc, hc, hmem⟩

/-- **`hm_help_rehashing` is total and stays inside of the older table.** -/
theorem help_rehashing_total {h : HMap α} (hc : Helping h) :
    (∀ g nwork, LoopHead h g nwork → 0 < g.older.size →
      (∀ i ns, i < g.migratePos → g.older.slots[i]? = some ns → ns = []) ∧
      (∃ i ns, g.migratePos ≤ i ∧ i ≤ g.older.mask ∧ g.older.slots[i]? = some ns ∧ ns ≠ []) ∧
      ∃ slots, g.older.tab = some slots ∧ slots.length = g.older.mask + 1 ∧
        g.migratePos ≤ g.older.mask) ∧
    ∃ h' moved, hmHelpRehashing h = .ok h' ∧
      moved.length = min kRehashingWork h.older.size ∧
      h.older.nodes.Perm (moved ++ h'.older.nodes) ∧
      h'.newer.nodes.Perm (moved ++ h.newer.nodes) ∧
      h'.newer.mask = h.newer.mask ∧
      (∀ n ∈ moved, ∃ slots chain, h'.newer.tab = some slots ∧
        slots[n.hcode.toNat &&& h'.newer.mask]? = some chain ∧ n ∈ chain) ∧
      (h'.older.tab = none ↔ h'.older.size = 0) := by
  refine ⟨fun g nwork hg hsize => ?_, ?_⟩
  · obtain ⟨ho, -, -, hu⟩ := (hg.inv hc.inv).migrating hsize
    exact ⟨hu.below, hu.ahead, _, ho.alloc, ho.length, hu.le_mask⟩
  · obtain ⟨h', moved, hrun, hmoved, hlen, htab, -⟩ := hmHelpRehashing_rehashed hc.inv
    refine ⟨h', moved, hrun, hlen, hmoved.older, hmoved.newer, hmoved.mask, fun n hn => ?_, htab⟩
    have hmem : n ∈ h'.newer.nodes := hmoved.newer.mem_iff.mpr (List.mem_append_left _ hn)
    rcases hmoved.inv.newer with he | hw
    · rw [he] at hmem
      cases hmem
    · exact hw.mem_chain hmem

/-- The insertion of the node 31 after those from 0 to 30 starts a migration, and all 32 move. -/
theorem help_rehashing_total_first : ∃ h g : HMap Nat,
    ((List.range 31).map fun i => ⟨i, i.toUInt64⟩).foldlM hmInsert {} = .ok h ∧
      hmFill h ⟨31, 31⟩ = .ok g ∧
      ∃ h' moved, hmHelpRehashing g = .ok h' ∧ moved.length = 32 ∧
        g.older.nodes.Perm (moved ++ h'.older.nodes) := by
  set ns : List (HNode Nat) := (List.range 31).map fun i => ⟨i, i.toUInt64⟩
  obtain ⟨h, hrun, hr, hperm⟩ := HmRun.init.inserts ns (by decide)
  have hn : (⟨31, 31⟩ : HNode Nat) ∉ h.nodes := fun hm =>
    absurd (hperm.mem_iff.mp hm) (by decide)
  have hsize : (ns.foldlM hmInsert {} >>= fun h => hmFill h ⟨31, 31⟩ >>= fun g =>
      Except.ok g.older.size) = .ok 32 := rfl
  rw [hrun, ok_bind] at hsize
  obtain ⟨g, hfill, hsize⟩ := bind_eq_ok.mp hsize
  obtain ⟨h', moved, hhelp, hlen, holder, -⟩ := (help_rehashing_total (.insert _ hr hn hfill)).2
  rw [Except.ok.inj hsize] at hlen
  exact ⟨h, g, hrun, hfill, h', moved, hhelp, hlen, holder⟩

end Greenis
