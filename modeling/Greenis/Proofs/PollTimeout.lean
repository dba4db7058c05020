/-
  How long `poll` waits.

  The next timer is the first of the idle list or the root of the heap, and is due before all
  others (`nextTimerMs_spec`). The time until then is cut to 32 bits and read as signed, so `poll`
  waits forever for a timer that is, say, three billion milliseconds away
  (`poll_timeout_oversleeps`). It wakes up in time if the cut is not negative, and only then
  (`poll_timeout_exact`).
-/
import Greenis.Proofs.IdleList
import Greenis.Proofs.TtlPass

namespace Greenis
open CExec LTS Ring

/-- The times at which a connection has been idle for too long or a key expires. -/
def deadlines (g : GData) (a : Keyspace) : Set Nat :=
  { d | (∃ p c, g.conns p = some c ∧ d = c.lastActiveMs.toNat + kIdleTimeoutMs.toNat) ∨
    ∃ key, a.expiryAt key = some d }

/-- `poll` waits up to the first deadline, and forever if there is none. -/
structure Punctual (g : GData) (a : Keyspace) (now : UInt64) (timeout : Int32) : Prop where
  bounds : ∀ d, IsLeast (deadlines g a) d →
    0 ≤ timeout.toInt ∧ timeout.toInt ≤ max 0 ((d : Int) - now.toNat)
  forever : timeout.toInt < 0 → deadlines g a = ∅

/-! ## The next timer -/

section

variable {g : GData} {a : Keyspace}

/-- Expiry times are 64-bit numbers. -/
theorem Refines.expiryAt_lt {g : KData} (h : Refines g a) {key : Bytes} {e : Nat}
    (he : a.expiryAt key = some e) : e < 2 ^ 64 := by
  obtain ⟨item, hitem, hexp⟩ := Keyspace.expiryAt_eq_some.mp he
  cases hf : g.find key with
  | none =>
    rw [h.missing hf] at hitem
    cases hitem
  | some p =>
    obtain ⟨item', hl⟩ := h.found hf
    obtain rfl : item = item' := Option.some.inj (hitem.symm.trans hl.lookup)
    obtain ⟨v, -, rfl⟩ := Option.map_eq_some_iff.mp (hl.expiry.trans hexp)
    exact v.toNat_lt

/-- The first deadline is the number `next`, and if there is none it is the largest number. -/
structure NextTimer (g : GData) (a : Keyspace) (next : UInt64) : Prop where
  le : ∀ d ∈ deadlines g a, next.toNat ≤ d
  mem : next = -1 ∨ next.toNat ∈ deadlines g a

/-- The deadline of the connection that is the first in the list. -/
def idleTimer (first : Option (Ptr × Conn)) : UInt64 :=
  match first with
  | none => -1
  | some (_, conn) => conn.lastActiveMs + kIdleTimeoutMs

/-- The connection at `p` has been idle for the longest time. -/
def GData.Idlest (g : GData) (p : Ptr) (c : Conn) : Prop :=
  g.conns p = some c ∧ ∀ q d, g.conns q = some d → c.lastActiveMs ≤ d.lastActiveMs

/-- The timers that are looked at: of the connection that has been idle for the longest time, cut to
    64 bits, and of the keys. -/
def timers (g : GData) (a : Keyspace) : Set Nat :=
  { d | (∃ p c, g.Idlest p c ∧ d = (c.lastActiveMs + kIdleTimeoutMs).toNat) ∨
    ∃ key, a.expiryAt key = some d }

/-- `next` is the first of the timers that are looked at. -/
structure FirstTimer (g : GData) (a : Keyspace) (next : UInt64) : Prop where
  le : ∀ d ∈ timers g a, next.toNat ≤ d
  mem : next = -1 ∨ next.toNat ∈ timers g a

theorem Chronological.idlest {q : Ptr} {ys : List Ptr} {clock : UInt64} {c : Conn}
    (horder : Chronological g (q :: ys) clock) (h : Listed g (q :: ys)) (hq : g.conns q = some c) :
    g.Idlest q c := by
  refine ⟨hq, fun p d hp => ?_⟩
  rw [← active_of hq, ← active_of hp]
  rcases List.mem_cons.mp ((h.conn p).mpr ⟨d, hp⟩) with rfl | hmem
  · exact UInt64.le_refl _
  · exact (List.pairwise_cons.mp horder.order).1 _ (List.mem_map_of_mem hmem)

theorem idleFirst_spec {ys : List Ptr} {clock : UInt64} (h : Listed g ys)
    (horder : Chronological g ys clock) :
    ∃ first, idleFirst g = .ok first ∧ (first = none ∧ (∀ p, g.conns p = none) ∨
      ∃ p c, first = some (p, c) ∧ g.Idlest p c) := by
  cases ys with
  | nil =>
    refine ⟨none, idleFirst_nil h, Or.inl ⟨rfl, fun p => ?_⟩⟩
    cases hp : g.conns p with
    | none => rfl
    | some c => exact absurd ((h.conn p).mpr ⟨c, hp⟩) List.not_mem_nil
  | cons q ys =>
    obtain ⟨c, hq⟩ := (h.conn q).mp List.mem_cons_self
    exact ⟨some (q, c), idleFirst_cons h hq, Or.inr ⟨q, c, rfl, horder.idlest h hq⟩⟩

/-- The timeout for a timer that is due at `next`. -/
def timeoutFor (next now : UInt64) : UInt32 :=
  if next = -1 then -1 else if next ≤ now then 0 else (next - now).toUInt32

/-- The earlier of the timer at the root of the heap and another one. -/
def earlierTimer (root : Option (HeapItem Ptr)) (next : UInt64) : UInt64 :=
  match root with
  | some t => if t.val < next then t.val else next
  | none => next

theorem nextTimerMs_first {ys : List Ptr} {clock : UInt64} (h : Listed g ys)
    (horder : Chronological g ys clock) (ha : Refines g.kv a) (now : UInt64) :
    ∃ next, nextTimerMs g now = .ok (timeoutFor next now) ∧ FirstTimer g a next := by
  obtain ⟨first, hfirst, hidle⟩ := idleFirst_spec h horder
  set next := earlierTimer g.kv.heap.a[0]? (idleTimer first) with hnext
  have hrun : nextTimerMs g now = .ok (timeoutFor next now) := by
    unfold nextTimerMs
    rw [hfirst, ok_bind, timeoutFor, apply_ite Except.ok, apply_ite Except.ok, hnext]
    rfl
  have hroot : next.toNat ≤ (idleTimer first).toNat ∧
      ∀ t ∈ g.kv.heap.a[0]?, next.toNat ≤ t.val.toNat := by
    rw [hnext]
    cases g.kv.heap.a[0]? with
    | none => exact ⟨Nat.le_refl _, fun t ht => by cases ht⟩
    | some t =>
      rw [earlierTimer]
      by_cases hlt : t.val < idleTimer first
      · rw [if_pos hlt]
        refine ⟨Nat.le_of_lt (UInt64.lt_iff_toNat_lt.mp hlt), fun t' ht => ?_⟩
        cases ht
        exact Nat.le_refl _
      · rw [if_neg hlt]
        refine ⟨Nat.le_refl _, fun t' ht => ?_⟩
        cases ht
        exact UInt64.le_iff_toNat_le.mp (UInt64.not_lt.mp hlt)
  refine ⟨next, hrun, ?_, ?_⟩
  · rintro d (⟨p, c, hp, hd⟩ | ⟨key, hkey⟩)
    · rcases hidle with ⟨-, hnone⟩ | ⟨q, e, hsome, hq⟩
      · exact absurd ((hnone p).symm.trans hp.1) (by simp)
      · have heq : e.lastActiveMs = c.lastActiveMs :=
          UInt64.le_antisymm (hq.2 p c hp.1) (hp.2 q e hq.1)
        have hle := hroot.1
        rw [hsome, idleTimer, heq, ← hd] at hle
        exact hle
    · obtain ⟨item, hitem, hexp⟩ := Keyspace.expiryAt_eq_some.mp hkey
      exact ha.noneBefore hroot.2 key item d hitem hexp
  · -- The number is taken from the heap or from the list.
    have hconn : next = idleTimer first → next = -1 ∨ next.toNat ∈ timers g a := by
      intro heq
      rcases hidle with ⟨hnone, -⟩ | ⟨p, c, hsome, hp⟩
      · left
        rw [heq, hnone, idleTimer]
      · right
        rw [heq, hsome]
        exact Or.inl ⟨p, c, hp, rfl⟩
    cases hheap : g.kv.heap.a[0]? with
    | none => exact hconn (by rw [hnext, hheap, earlierTimer])
    | some t =>
      by_cases hlt : t.val < idleTimer first
      · obtain ⟨v, hv⟩ := ha.item_of_heap (List.mem_of_getElem? hheap)
        refine Or.inr (Or.inr ⟨_, Keyspace.expiryAt_eq_some.mpr ⟨_, hv, ?_⟩⟩)
        rw [hnext, hheap, earlierTimer, if_pos hlt]
      · apply hconn
        rw [hnext, hheap, earlierTimer, if_neg hlt]

/-- While no deadline is cut to 64 bits, the first timer that is looked at is the first of all. -/
theorem FirstTimer.next {ys : List Ptr} {clock next : UInt64} (hfirst : FirstTimer g a next)
    (h : Listed g ys) (horder : Chronological g ys clock)
    (hclock : clock.toNat + kIdleTimeoutMs.toNat < 2 ^ 64) : NextTimer g a next := by
  have hsum : ∀ p c, g.conns p = some c → (c.lastActiveMs + kIdleTimeoutMs).toNat =
      c.lastActiveMs.toNat + kIdleTimeoutMs.toNat := by
    intro p c hp
    have hpast := horder.past p ((h.conn p).mpr ⟨c, hp⟩)
    rw [active_of hp] at hpast
    exact deadline_toNat hpast hclock
  refine ⟨?_, hfirst.mem.imp_right ?_⟩
  · rintro d (⟨p, c, hp, rfl⟩ | hkey)
    · obtain ⟨first, -, ⟨-, hnone⟩ | ⟨q, e, -, hq⟩⟩ := idleFirst_spec h horder
      · rw [hnone p] at hp
        cases hp
      · have hle := hfirst.le _ (Or.inl ⟨q, e, hq, rfl⟩)
        rw [hsum q e hq.1] at hle
        have := UInt64.le_iff_toNat_le.mp (hq.2 p c hp)
        omega
    · exact hfirst.le d (Or.inr hkey)
  · rintro (⟨p, c, hp, heq⟩ | hkey)
    · exact Or.inl ⟨p, c, hp.1, by rw [heq, hsum p c hp.1]⟩
    · exact Or.inr hkey

theorem nextTimerMs_spec {ys : List Ptr} {clock : UInt64} (h : Listed g ys)
    (horder : Chronological g ys clock) (hclock : clock.toNat + kIdleTimeoutMs.toNat < 2 ^ 64)
    (ha : Refines g.kv a) (now : UInt64) :
    ∃ next, nextTimerMs g now = .ok (timeoutFor next now) ∧ NextTimer g a next := by
  obtain ⟨next, hrun, hfirst⟩ := nextTimerMs_first h horder ha now
  exact ⟨next, hrun, hfirst.next h horder hclock⟩

theorem NextTimer.isLeast {next : UInt64} (h : NextTimer g a next) (hne : next ≠ -1) :
    IsLeast (deadlines g a) next.toNat := ⟨h.mem.resolve_left hne, h.le⟩

/-! ## Narrowing -/

/-- A number of milliseconds, cut to 32 bits and read as signed. -/
theorem toInt_timeout (ms : UInt64) : ms.toUInt32.toInt32.toInt =
    if ms.toNat % 2 ^ 32 < 2 ^ 31 then ((ms.toNat % 2 ^ 32 : Nat) : Int)
    else ((ms.toNat % 2 ^ 32 : Nat) : Int) - 2 ^ 32 := by
  have hcut : ms.toUInt32.toBitVec.toNat = ms.toNat % 2 ^ 32 := UInt64.toNat_toUInt32 ms
  have hsigned : ms.toUInt32.toInt32.toInt = ms.toUInt32.toBitVec.toInt := rfl
  rw [hsigned, BitVec.toInt_eq_toNat_cond, hcut]
  by_cases hlow : ms.toNat % 2 ^ 32 < 2 ^ 31
  · rw [if_pos hlow, if_pos (by omega)]
  · rw [if_neg hlow, if_neg (by omega)]
    rfl

/-- The first deadline is near enough for its distance from `now` to be cut to a number that is not
    negative. -/
def Near (g : GData) (a : Keyspace) (now : UInt64) : Prop :=
  ∀ d, IsLeast (deadlines g a) d →
    d ≠ 2 ^ 64 - 1 ∧ (d ≤ now.toNat ∨ (d - now.toNat) % 2 ^ 32 < 2 ^ 31)

theorem exists_isLeast {S : Set Nat} (h : S.Nonempty) : ∃ d, IsLeast S d := by
  classical
  exact ⟨Nat.find h, Nat.find_spec h, fun _ hx => Nat.find_min' h hx⟩

/-- Without a timer, or with one at the largest number, `poll` waits forever. -/
theorem punctual_forever (h : NextTimer g a (-1)) (hlt : ∀ d ∈ deadlines g a, d < 2 ^ 64)
    (now : UInt64) : Punctual g a now (-1) ↔ Near g a now := by
  have hlast : ∀ d, IsLeast (deadlines g a) d → d = 2 ^ 64 - 1 := fun d hd => by
    have hle := h.le d hd.1
    have hmax : (-1 : UInt64).toNat = 2 ^ 64 - 1 := rfl
    have := hlt d hd.1
    omega
  constructor
  · intro hp d hd
    exact absurd (hp.bounds d hd).1 (by decide)
  · intro hnear
    refine ⟨fun d hd => absurd (hlast d hd) (hnear d hd).1, fun _ => ?_⟩
    apply Set.not_nonempty_iff_eq_empty.mp
    intro hne
    obtain ⟨d, hd⟩ := exists_isLeast hne
    exact (hnear d hd).1 (hlast d hd)

/-- With a timer, what the distance is cut to decides. -/
theorem punctual_timer {next : UInt64} (h : NextTimer g a next) (hne : next ≠ -1) (now : UInt64) :
    Punctual g a now (timeoutFor next now).toInt32 ↔ Near g a now := by
  have hleast := h.isLeast hne
  have hmax : next.toNat ≠ 2 ^ 64 - 1 := fun heq => hne (UInt64.toNat_inj.mp heq)
  unfold timeoutFor
  rw [if_neg hne]
  by_cases hdue : next ≤ now
  · rw [if_pos hdue]
    refine iff_of_true ⟨fun d _ => ⟨by decide, le_max_left _ _⟩, fun hneg => ?_⟩ fun d hd => ?_
    · exact absurd hneg (by decide)
    · rw [hd.unique hleast]
      exact ⟨hmax, Or.inl (UInt64.le_iff_toNat_le.mp hdue)⟩
  · have hlt := UInt64.lt_iff_toNat_lt.mp (UInt64.not_le.mp hdue)
    have hsub : (next - now).toNat = next.toNat - now.toNat :=
      UInt64.toNat_sub_of_le _ _ (UInt64.le_iff_toNat_le.mpr hlt.le)
    have hcut := toInt_timeout (next - now)
    rw [hsub] at hcut
    have hmod := Nat.mod_le (next.toNat - now.toNat) (2 ^ 32)
    rw [if_neg hdue]
    by_cases hlow : (next.toNat - now.toNat) % 2 ^ 32 < 2 ^ 31
    · rw [if_pos hlow] at hcut
      refine iff_of_true ⟨fun d hd => ?_, fun hneg => ?_⟩ fun d hd => ?_
      · rw [hd.unique hleast, hcut]
        omega
      · rw [hcut] at hneg
        omega
      · rw [hd.unique hleast]
        exact ⟨hmax, Or.inr hlow⟩
    · rw [if_neg hlow] at hcut
      refine iff_of_false (fun hp => ?_) fun hnear => ?_
      · have hpos := (hp.bounds _ hleast).1
        have hbound := Nat.mod_lt (next.toNat - now.toNat) (Nat.two_pow_pos 32)
        rw [hcut] at hpos
        omega
      · rcases (hnear _ hleast).2 with hle | hlow'
        · omega
        · exact hlow hlow'

end

/-! ## Runs -/

/-- **When `poll` oversleeps no timer.** In every state a run reaches, the timeout is not negative
    and not after the first deadline exactly if the distance to that deadline, cut to 32 bits, is
    less than 2^31. -/
theorem poll_timeout_exact {strtod : Strtod} {es : List LoopEvent} {s : TimedState}
    (hrun : Run (TimedStep strtod) {} es s)
    (hclock : s.clock.toNat + kIdleTimeoutMs.toNat < 2 ^ 64) {a : Keyspace}
    (ha : Refines s.loop.data.kv a) (now : UInt64) :
    ∃ timeout, pollTimeout s.loop.data now = .ok timeout ∧
      (Punctual s.loop.data a now timeout ↔ ∀ d, IsLeast (deadlines s.loop.data a) d →
        d ≠ 2 ^ 64 - 1 ∧ (d ≤ now.toNat ∨ (d - now.toNat) % 2 ^ 32 < 2 ^ 31)) := by
  obtain ⟨ys, h, -, horder⟩ := run_chronological hrun
  obtain ⟨next, htimer, hnext⟩ := nextTimerMs_spec h.listed horder hclock ha now
  refine ⟨(timeoutFor next now).toInt32, ?_, ?_⟩
  · unfold pollTimeout
    rw [htimer, ok_bind]
  · by_cases hne : next = -1
    · subst hne
      apply punctual_forever hnext
      rintro d (⟨p, c, hp, rfl⟩ | ⟨key, hkey⟩)
      · have hpast := horder.past p ((h.listed.conn p).mpr ⟨c, hp⟩)
        rw [active_of hp] at hpast
        have := UInt64.le_iff_toNat_le.mp hpast
        omega
      · exact ha.expiryAt_lt hkey
    · exact punctual_timer hnext hne now

/-- A client has been accepted at 0. -/
theorem poll_timeout_exact_idle : ∃ s : TimedState, s.loop.phase = .poll ∧
    pollTimeout s.loop.data 10 = .ok 4990 ∧ Punctual s.loop.data ∅ 10 4990 := by
  have hrun := run_oneClient fun _ => (⟨0⟩, 0)
  obtain ⟨timeout, htimeout, hiff⟩ := poll_timeout_exact hrun (by decide) Refines.empty 10
  cases htimeout
  refine ⟨_, rfl, rfl, hiff.mpr fun d hd => ?_⟩
  have hle : d ≤ 5000 := hd.2 (Or.inl ⟨1, _, rfl, rfl⟩)
  have hnow : (10 : UInt64).toNat = 10 := rfl
  rw [hnow]
  omega

/-- `set k v`, and a TTL of three billion milliseconds. -/
def farTimer : Bytes := frame (encodeCmd [ascii "set", ascii "k", ascii "v"]) ++
  frame (encodeCmd [ascii "pexpire", ascii "k", ascii "3000000000"])

/-- A client has set the TTL at 0, and is gone. -/
theorem exists_far_timer : ∃ (es : List LoopEvent) (s : TimedState),
    Run (TimedStep fun _ => (⟨0⟩, 0)) {} es s ∧ s.loop.phase = .poll ∧ s.clock = 0 ∧
      s.loop.data.kv.heap.a.map HeapItem.val = [3000000000] ∧
      pollTimeout s.loop.data 0 = .ok (-1294967296) := by
  have haccepted := run_oneClient fun _ => (⟨0⟩, 0)
  -- The requests and an error come in at once.
  have hticks : (LoopEvent.served ⟨0, fun _ => 0, .data farTimer, .count 100, .again⟩).Ticks 0 0 :=
    .still 0
  have hrun := ((haccepted.snoc (l := .polled 0 false [{ pollin := true, pollerr := true }])
    (.mk (.polled rfl (.cons ⟨by decide, by decide⟩ .nil)) (.polled (by decide)))).snoc
    (.mk (.served rfl) hticks)).snoc (l := .timers 0) (.mk (.timers rfl) (.timers (by decide)))
  exact ⟨_, _, hrun, rfl, rfl, rfl, rfl⟩

/-- `poll` waits forever, though a key expires. -/
theorem poll_timeout_oversleeps : ¬ ∀ (strtod : Strtod) (es : List LoopEvent) (s : TimedState)
    (a : Keyspace) (now : UInt64), Run (TimedStep strtod) {} es s → s.loop.phase = .poll →
    s.clock ≤ now → Refines s.loop.data.kv a → (deadlines s.loop.data a).Nonempty →
    ∃ timeout, pollTimeout s.loop.data now = .ok timeout ∧
      Punctual s.loop.data a now timeout := by
  intro h
  obtain ⟨es, s, hrun, hphase, hclock, hheap, htimeout⟩ := exists_far_timer
  obtain ⟨ys, hsteady, -⟩ := run_chronological hrun
  obtain ⟨a, ha⟩ := exists_refines hsteady.kv
  have hle : s.clock ≤ 0 := by
    rw [hclock]
    exact UInt64.le_refl 0
  -- The deadline of the key.
  obtain ⟨t, ht, -⟩ : ∃ t ∈ s.loop.data.kv.heap.a, t.val = 3000000000 :=
    List.mem_map.mp (by rw [hheap]; exact List.mem_singleton_self _)
  obtain ⟨v, hv⟩ := ha.item_of_heap ht
  have hdeadline : t.val.toNat ∈ deadlines s.loop.data a :=
    Or.inr ⟨_, Keyspace.expiryAt_eq_some.mpr ⟨_, hv, rfl⟩⟩
  obtain ⟨timeout, hrun', hpunctual⟩ := h _ es s a 0 hrun hphase hle ha ⟨_, hdeadline⟩
  rw [htimeout] at hrun'
  cases hrun'
  have hempty := hpunctual.forever (by decide)
  rw [hempty] at hdeadline
  exact hdeadline

end Greenis
