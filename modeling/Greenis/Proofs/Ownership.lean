/-
  Timers and entries in every state of a run.

  The heap and the `heap_idx` of the entries point at each other, one item to one linked entry
  (`ttl_ownership`). An entry is linked, then perhaps handed to the thread pool, then freed, and
  never goes back: `KData.stage` only grows. Handing over or freeing twice would need a stage
  twice, and freeing what is freed is a fault, which no step of a run meets.
-/
import Greenis.Proofs.KeyspaceRuns

namespace Greenis
open CExec LTS

variable {strtod : Strtod} {g : KData}

/-- The heap of timers and the linked entries point at each other. -/
structure TimersOwned (g : KData) : Prop where
  order : ∀ i t p, 0 < i → g.heap.a[i]? = some t → g.heap.a[heapParent i]? = some p →
    p.val ≤ t.val
  item : ∀ i t, g.heap.a[i]? = some t → t.ref ∈ g.linked ∧ g.heap.idx t.ref = some i
  distinct : ∀ (i j : Nat) (t u : HeapItem Ptr), g.heap.a[i]? = some t → g.heap.a[j]? = some u →
    t.ref = u.ref → i = j
  timed : ∀ p ∈ g.linked, ∀ i, g.heap.idx p = some i → ∃ t, g.heap.a[i]? = some t ∧ t.ref = p
  untimed : ∀ p ∈ g.linked, g.heap.idx p = none → ∀ t ∈ g.heap.a, t.ref ≠ p

theorem KInv.timersOwned (h : KInv g) : TimersOwned g := by
  have hback := h.ttl.ok.back
  refine ⟨fun i t p hi ht hp => ?_, fun i t ht => ⟨h.ttl.owned t (List.mem_of_getElem? ht),
    hback i t ht⟩, fun i j t u ht hu he => ?_, fun p hp i hi => mem_refs_of_idx h.ttl hp hi,
    fun p _ hi t ht he => not_mem_refs_of_idx h.ttl.ok hi (mem_refs.mpr ⟨t, ht, he⟩)⟩
  · have hle := h.ttl.ok.order i hi (List.getElem?_eq_some_iff.mp ht).1
    rw [← heapParent_eq hi, keyOf_eq ht, keyOf_eq hp] at hle
    exact UInt64.le_iff_toNat_le.mpr hle
  · have hi := hback i t ht
    rw [he, hback j u hu] at hi
    exact (Option.some.inj hi).symm

/-- Each entry is in one place: the hash table, the queue of the thread pool, or nowhere. -/
structure EntriesOwned (g : KData) : Prop where
  linked : ∀ p ∈ g.linked, g.entry p ≠ none ∧ p < g.brk ∧ p ∉ g.pool
  linkedOnce : g.linked.Nodup
  queued : ∀ p ∈ g.pool, g.entry p ≠ none ∧ p < g.brk ∧ p ∉ g.linked ∧ ∀ t ∈ g.heap.a, t.ref ≠ p
  queuedOnce : g.pool.Nodup
  freed : ∀ p, g.stage p = 3 → g.entry p = none ∧ ∀ t ∈ g.heap.a, t.ref ≠ p

theorem KInv.entriesOwned (h : KInv g) : EntriesOwned g := by
  have hout : ∀ p, p ∉ g.linked → ∀ t ∈ g.heap.a, t.ref ≠ p := fun p hp t ht he =>
    hp (he ▸ h.ttl.owned t ht)
  refine ⟨fun p hp => ⟨?_, h.lt_brk hp, fun hq => (h.pool.queued p hq).1 hp⟩, h.db.nodup,
    fun p hp => ?_, h.pool.nodup, fun p hp => ?_⟩
  · rw [(h.db.entry_at hp).1]
    simp
  · obtain ⟨hl, e, he, -⟩ := h.pool.queued p hp
    have hne : g.entry p ≠ none := by rw [he]; simp
    exact ⟨hne, (h.pool.alloc p hne).1, hl, hout p hl⟩
  · unfold KData.stage at hp
    have hl : p ∉ g.linked := fun hm => by simp [hm] at hp
    have hq : p ∉ g.pool := fun hm => by simp [hl, hm] at hp
    refine ⟨?_, hout p hl⟩
    by_contra hne
    exact (h.pool.alloc p hne).2.elim hl hq

/-- **Timers and entries stay in step.** In every state a run reaches, the heap and the linked
    entries point at each other and each entry is in one place; whatever happens next returns, so
    that no index is out of range, no assertion fails and nothing is freed twice; and no entry goes
    back in its life. -/
theorem ttl_ownership {ls : List KEvent} {s : KState} (hrun : Run (KStep strtod) {} ls s) :
    TimersOwned s.data ∧ EntriesOwned s.data ∧
      (∀ now cmd out, cmd[0]? ≠ some (ascii "zquery") →
        ∃ res, doRequest strtod s.data now cmd out = .ok res) ∧
      (∀ now, ∃ g, processTtl s.data now = .ok g) ∧ (∃ g, poolWork s.data = .ok g) ∧
      ∀ ls' s', Run (KStep strtod) s ls' s' → ∀ p, s.data.stage p ≤ s'.data.stage p := by
  have h := (run_keeps KInv.empty hrun).1
  obtain ⟨a, ha⟩ := exists_refines h
  refine ⟨h.timersOwned, h.entriesOwned, fun now cmd out hcmd => ?_, fun now => ?_, ?_,
    fun ls' s' hrun' p => (run_keeps h hrun').2.stage_le h p⟩
  · exact (doRequest_spec strtod ha now cmd out).returns (specified_of_name hcmd a)
  · obtain ⟨g, -, hg, -⟩ := processTtl_spec ha now
    exact ⟨g, hg⟩
  · obtain ⟨g, hg, -⟩ := poolWork_refines ha
    exact ⟨g, hg⟩

/-- A key with a timer. -/
theorem ttl_ownership_timed : ∃ s : KState, TimersOwned s.data ∧ s.data.heap.a ≠ [] := by
  obtain ⟨ls, s, hrun, -, -, h⟩ := exists_run (fun _ => (⟨0⟩, 0))
    [[ascii "set", [107], [118]], [ascii "pexpire", [107], ascii "1"]] (by
      intro cmd hcmd a
      simp only [List.mem_cons, List.not_mem_nil, or_false] at hcmd
      rcases hcmd with rfl | rfl <;> trivial)
  refine ⟨s, (ttl_ownership hrun).1, fun hnil => ?_⟩
  have hnone := h.noneBefore (t := 2) fun first hf => by
    rw [hnil] at hf
    cases hf
  exact absurd (hnone [107] ⟨.str [118], some 1⟩ 1 rfl rfl) (by decide)

end Greenis
