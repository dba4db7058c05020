/-
  A timeout of zero, and what the timers then do.

  `process_timers` makes progress exactly if a timer it looks at is before the clock reading
  (`processTimers_progress`). `next_timer_ms` returns 0 also for a timer at the clock reading, and
  for one whose distance is cut to 0. So the event loop may spin for a millisecond
  (`zero_timeout_spins`), and nothing else lets it spin (`zero_timeout_progress`).
-/
import Greenis.Proofs.PollTimeout

namespace Greenis
open CExec LTS Ring

/-- A connection has been closed, or a key has been removed. -/
def Progress (g g' : GData) : Prop :=
  (∃ p c, g.conns p = some c ∧ g'.conns p = none) ∨
    ∃ key, g.kv.find key ≠ none ∧ g'.kv.find key = none

section

variable {g g' : GData} {a a' : Keyspace} {ys : List Ptr} {clock : UInt64}

/-- A connection is closed if the one that has been idle for the longest time is expired. -/
theorem closes_iff (h : Listed g ys) (horder : Chronological g ys clock) {now : UInt64}
    (h' : Listed g' (ys.dropWhile (g.expired now)))
    (hconns : ∀ p ∈ ys.dropWhile (g.expired now), g'.conns p = g.conns p) :
    (∃ p c, g.conns p = some c ∧ g'.conns p = none) ↔
      ∃ p c, g.Idlest p c ∧ c.lastActiveMs + kIdleTimeoutMs < now := by
  cases ys with
  | nil =>
    have hnone : ∀ p c, g.conns p ≠ some c := fun p c hp =>
      absurd ((h.conn p).mpr ⟨c, hp⟩) List.not_mem_nil
    exact iff_of_false (fun ⟨p, c, hp, _⟩ => hnone p c hp) fun ⟨p, c, hp, _⟩ => hnone p c hp.1
  | cons q ys =>
    obtain ⟨d, hq⟩ := (h.conn q).mp List.mem_cons_self
    have hidlest := horder.idlest h hq
    have hexpired := expired_iff hq now
    by_cases hdue : d.lastActiveMs + kIdleTimeoutMs < now
    · rw [List.dropWhile_cons_of_pos (hexpired.mpr hdue)] at h'
      refine iff_of_true ⟨q, d, hq, ?_⟩ ⟨q, d, hidlest, hdue⟩
      -- What is left of the list is a part of the rest.
      cases hq' : g'.conns q with
      | none => rfl
      | some e =>
        have hmem := (List.dropWhile_sublist _).mem ((h'.conn q).mpr ⟨e, hq'⟩)
        have hnodup := (List.nodup_cons.mp h.ring.nodup).2
        exact absurd hmem (List.nodup_cons.mp hnodup).1
    · rw [List.dropWhile_cons_of_neg fun htrue => hdue (hexpired.mp htrue)] at hconns
      refine iff_of_false (fun ⟨p, c, hp, hgone⟩ => ?_) fun ⟨p, c, hp, hlt⟩ => hdue ?_
      · rw [hconns p ((h.conn p).mpr ⟨c, hp⟩), hp] at hgone
        cases hgone
      · rwa [UInt64.le_antisymm (hidlest.2 p c hp.1) (hp.2 q d hq)]

/-- A key is removed if one is due. -/
theorem removes_iff {kv kv' : KData} (ha : Refines kv a) (ha' : Refines kv' a') {now n : Nat}
    (hpass : Keyspace.Pass now (n + 1) a a') :
    (∃ key, kv.find key ≠ none ∧ kv'.find key = none) ↔
      ∃ key e, a.expiryAt key = some e ∧ e < now := by
  constructor
  · rintro ⟨key, hfind, hgone⟩
    have hkey : key ∈ a.keys \ a'.keys := by
      rw [Finset.mem_sdiff, Finmap.mem_keys, Finmap.mem_keys]
      obtain ⟨p, hp⟩ := Option.ne_none_iff_exists'.mp hfind
      obtain ⟨item, hitem⟩ := ha.found hp
      refine ⟨Finmap.mem_of_lookup_eq_some hitem.lookup, ?_⟩
      exact Finmap.lookup_eq_none.mp (ha'.missing hgone)
    exact ⟨key, Keyspace.mem_due.mp (hpass.due key hkey)⟩
  · rintro ⟨key, e, he⟩
    have hdue : 0 < (a.due now).card := Finset.card_pos.mpr ⟨key, Keyspace.mem_due.mpr ⟨e, he⟩⟩
    have hcount := hpass.count
    obtain ⟨k, hk⟩ := Finset.card_pos.mp (show 0 < (a.keys \ a'.keys).card by omega)
    rw [Finset.mem_sdiff, Finmap.mem_keys, Finmap.mem_keys] at hk
    refine ⟨k, fun hnone => ?_, ?_⟩
    · exact Finmap.lookup_eq_none.mp (ha.missing hnone) hk.1
    · cases hfind : kv'.find k with
      | none => rfl
      | some p =>
        obtain ⟨item, hitem⟩ := ha'.found hfind
        exact absurd (Finmap.mem_of_lookup_eq_some hitem.lookup) hk.2

/-- The first timer is the least, if there is one. -/
theorem FirstTimer.eq_of_isLeast {next : UInt64} (h : FirstTimer g a next) (ha : Refines g.kv a)
    {d : Nat} (hd : IsLeast (timers g a) d) : d = next.toNat := by
  have hle := h.le d hd.1
  rcases h.mem with hnone | hmem
  · have hlt : d < 2 ^ 64 := by
      rcases hd.1 with ⟨p, c, -, hsum⟩ | ⟨key, hkey⟩
      · rw [hsum]
        exact UInt64.toNat_lt _
      · exact ha.expiryAt_lt hkey
    have hmax : next.toNat = 2 ^ 64 - 1 := by rw [hnone]; rfl
    omega
  · exact Nat.le_antisymm (hd.2 hmem) hle

/-- **`process_timers` acts on the timers before the clock reading.** -/
theorem processTimers_progress (h : Listed g ys) (horder : Chronological g ys clock)
    (ha : Refines g.kv a) (now : UInt64) :
    ∃ g', processTimers g now = .ok g' ∧ (Progress g g' ↔ ∃ d ∈ timers g a, d < now.toNat) := by
  obtain ⟨g', a', hrun, h', hconns, ha', hexpires⟩ := processTimers_refines h ha now
  refine ⟨g', hrun, ?_⟩
  rw [Progress, closes_iff h horder h' hconns, removes_iff ha ha' hexpires.exact]
  constructor
  · rintro (⟨p, c, hp, hlt⟩ | ⟨key, e, he, hlt⟩)
    · exact ⟨_, Or.inl ⟨p, c, hp, rfl⟩, UInt64.lt_iff_toNat_lt.mp hlt⟩
    · exact ⟨e, Or.inr ⟨key, he⟩, hlt⟩
  · rintro ⟨d, ⟨p, c, hp, hd⟩ | ⟨key, he⟩, hlt⟩
    · rw [hd] at hlt
      exact Or.inl ⟨p, c, hp, UInt64.lt_iff_toNat_lt.mpr hlt⟩
    · exact Or.inr ⟨key, d, he, hlt⟩

/-- The timeout is zero for a timer that is not after `now`, and for one whose distance is cut to
    zero. -/
theorem timeoutFor_eq_zero (next now : UInt64) : timeoutFor next now = 0 ↔
    next.toNat ≠ 2 ^ 64 - 1 ∧ (next.toNat - now.toNat) % 2 ^ 32 = 0 := by
  have hmax : next = -1 ↔ next.toNat = 2 ^ 64 - 1 := UInt64.toNat_inj.symm
  unfold timeoutFor
  by_cases hnone : next = -1
  · rw [if_pos hnone]
    exact iff_of_false (by decide) fun h => h.1 (hmax.mp hnone)
  · rw [if_neg hnone]
    by_cases hdue : next ≤ now
    · rw [if_pos hdue]
      have hle := UInt64.le_iff_toNat_le.mp hdue
      refine iff_of_true rfl ⟨fun h => hnone (hmax.mpr h), ?_⟩
      rw [Nat.sub_eq_zero_of_le hle, Nat.zero_mod]
    · have hlt := UInt64.lt_iff_toNat_lt.mp (UInt64.not_le.mp hdue)
      have hsub : (next - now).toNat = next.toNat - now.toNat :=
        UInt64.toNat_sub_of_le _ _ (UInt64.le_iff_toNat_le.mpr hlt.le)
      rw [if_neg hdue, ← UInt32.toNat_inj, UInt64.toNat_toUInt32, hsub]
      exact ⟨fun h => ⟨fun heq => hnone (hmax.mpr heq), h⟩, And.right⟩

end

/-! ## Runs -/

/-- **When a timeout of zero makes progress.** In every state a run reaches, and at every clock
    reading, a timeout of zero means progress exactly if the first timer is before the clock
    reading or is none, or its distance is not cut to zero. -/
theorem zero_timeout_progress {strtod : Strtod} {es : List LoopEvent} {s : TimedState}
    (hrun : Run (TimedStep strtod) {} es s) {a : Keyspace} (ha : Refines s.loop.data.kv a)
    (now : UInt64) :
    ∃ ms g', nextTimerMs s.loop.data now = .ok ms ∧ processTimers s.loop.data now = .ok g' ∧
      ((ms = 0 → Progress s.loop.data g') ↔ ∀ d, IsLeast (timers s.loop.data a) d →
        d < now.toNat ∨ d = 2 ^ 64 - 1 ∨ (d - now.toNat) % 2 ^ 32 ≠ 0) := by
  obtain ⟨ys, h, -, horder⟩ := run_chronological hrun
  obtain ⟨next, htimer, hfirst⟩ := nextTimerMs_first h.listed horder ha now
  obtain ⟨g', hpass, hprogress⟩ := processTimers_progress h.listed horder ha now
  refine ⟨_, g', htimer, hpass, ?_⟩
  rw [hprogress, timeoutFor_eq_zero]
  constructor
  · intro h0 d hd
    have heq := hfirst.eq_of_isLeast ha hd
    by_contra hcond
    obtain ⟨e, he, hlt⟩ := h0 (by omega)
    have := hd.2 he
    omega
  · rintro hcond ⟨hne, hcut⟩
    have hmem : next.toNat ∈ timers s.loop.data a :=
      hfirst.mem.resolve_left fun hnone => hne (by rw [hnone]; rfl)
    refine ⟨next.toNat, hmem, ?_⟩
    have := hcond next.toNat ⟨hmem, hfirst.le⟩
    omega

/-- The client that has been accepted at 0 is the only timer. -/
theorem oneClient_timers : timers oneClient ∅ = {5000} := by
  apply Set.eq_singleton_iff_unique_mem.mpr
  refine ⟨Or.inl ⟨1, _, ⟨rfl, fun q d hq => UInt64.zero_le⟩, rfl⟩, ?_⟩
  rintro d (⟨p, c, hp, hd⟩ | ⟨key, hkey⟩)
  · by_cases hone : p = 1
    · subst hone
      cases hp.1
      exact hd
    · have hnone := (Store.write_other (fun _ => none) _ hone).symm.trans hp.1
      cases hnone
  · cases hkey

/-- The client is closed at 5001. -/
theorem zero_timeout_progress_late : ∃ (s : TimedState) (g' : GData), s.loop.phase = .poll ∧
    nextTimerMs s.loop.data 5001 = .ok 0 ∧ processTimers s.loop.data 5001 = .ok g' ∧
    Progress s.loop.data g' := by
  have hrun := run_oneClient fun _ => (⟨0⟩, 0)
  obtain ⟨ms, g', hms, hpass, hiff⟩ := zero_timeout_progress hrun Refines.empty 5001
  cases ok_unique hms rfl
  refine ⟨_, g', rfl, hms, hpass, hiff.mpr (fun d hd => Or.inl ?_) rfl⟩
  rw [oneClient_timers] at hd
  rw [Set.mem_singleton_iff.mp hd.1]
  decide

/-- `poll` does not wait at 5000, and no timer fires. -/
theorem zero_timeout_spins : ¬ ∀ (strtod : Strtod) (es : List LoopEvent) (s : TimedState)
    (now : UInt64), Run (TimedStep strtod) {} es s → s.loop.phase = .poll → s.clock ≤ now →
    nextTimerMs s.loop.data now = .ok 0 →
    ∃ g', processTimers s.loop.data now = .ok g' ∧ Progress s.loop.data g' := by
  intro h
  have hrun := run_oneClient fun _ => (⟨0⟩, 0)
  obtain ⟨ys, hsteady, -, horder⟩ := run_chronological hrun
  obtain ⟨g1, hrun1, hiff⟩ := processTimers_progress hsteady.listed horder Refines.empty 5000
  obtain ⟨g', hpass, hprogress⟩ := h _ _ _ 5000 hrun rfl (by decide) rfl
  cases ok_unique hrun1 hpass
  obtain ⟨d, hd, hlt⟩ := hiff.mp hprogress
  rw [oneClient_timers] at hd
  rw [Set.mem_singleton_iff.mp hd] at hlt
  exact absurd hlt (by decide)

end Greenis
