/-
  The main thread and the workers, step by step.

  The entries that workers have taken but not yet freed are beside the keyspace that the main thread
  works on (`ThreadedState.settled`). So the requests and timer passes of a run are one of the
  keyspace machine, wherever the steps of the workers fall; an entry has one owner, and is freed
  once; and a worker's job commutes with what the main thread does (`threads_refine`).
-/
import Greenis.Proofs.KeyspaceRuns
import Greenis.Proofs.Locality
import Greenis.Proofs.Ownership
import Greenis.Proofs.ThreadPool
import Greenis.Proofs.ZqueryRuns

namespace Greenis
open CExec Store CondVar LTS

/-! ## Who owns an entry -/

/-- The `i`-th worker has taken the entry `p`. -/
def ThreadedState.Takes (s : ThreadedState) (i : Nat) (p : Ptr) : Prop :=
  s.threads[i]? = some (.busy p)

/-- Some worker has taken the entry. -/
def ThreadedState.busy (s : ThreadedState) (p : Ptr) : Bool := decide (Worker.busy p ∈ s.threads)

/-- The keyspace without the entries that workers have taken. -/
def ThreadedState.settled (s : ThreadedState) : KData :=
  { s.data with entry := s.data.entry.hide s.busy }

/-- These entries. -/
def ThreadedState.held (s : ThreadedState) : Store Entry := s.data.entry.only s.busy

theorem busy_iff {s : ThreadedState} {p : Ptr} : s.busy p = true ↔ ∃ i, s.Takes i p := by
  unfold ThreadedState.busy
  rw [decide_eq_true_iff]
  exact List.mem_iff_getElem?

/-- The workers after one of them has moved on. -/
theorem takes_set {s s' : ThreadedState} {i : Nat} {t t' : Worker Ptr} (ht : s.threads[i]? = some t)
    (hset : s'.threads = s.threads.set i t') (j : Nat) (p : Ptr) :
    s'.Takes j p ↔ if j = i then t' = .busy p else s.Takes j p := by
  unfold ThreadedState.Takes
  rw [hset]
  split
  · next hj =>
    subst hj
    rw [List.getElem?_set_self (List.getElem?_eq_some_iff.mp ht).1]
    exact Option.some_inj
  · next hj => rw [List.getElem?_set_ne (Ne.symm hj)]

theorem settled_beside (s : ThreadedState) : s.settled.beside s.held = s.data := by
  unfold ThreadedState.settled ThreadedState.held KData.beside
  dsimp only
  rw [hide_join_only]

theorem settled_apart (s : ThreadedState) : s.settled.entry.Apart s.held :=
  hide_apart_only _ _

theorem settled_busy {s : ThreadedState} {p : Ptr} (hp : s.busy p = true) :
    s.settled.entry p = none := if_pos hp

theorem settled_other {s : ThreadedState} {p : Ptr} (hp : ¬ s.busy p = true) :
    s.settled.entry p = s.data.entry p := if_neg hp

theorem held_busy {s : ThreadedState} {p : Ptr} (hp : s.busy p = true) :
    s.held p = s.data.entry p := if_pos hp

theorem held_other {s : ThreadedState} {p : Ptr} (hp : ¬ s.busy p = true) : s.held p = none :=
  if_neg hp

/-- What holds of `k` workers and the keyspace `a`. -/
structure Composed (k : Nat) (s : ThreadedState) (a : Keyspace) : Prop where
  refines : Refines s.settled a
  held : ∀ p, s.busy p = true → p < s.data.brk ∧ ∃ e, s.data.entry p = some e ∧ EntryOk e
  once : ∀ i j p, s.Takes i p → s.Takes j p → i = j
  size : s.threads.length = k
  supplied : Supplied Worker.isWaiting s.data.pool.length s.threads

section

variable {k : Nat} {s : ThreadedState} {a : Keyspace}

/-- An entry that a worker has taken does not come back. -/
theorem Composed.absent (h : Composed k s a) {g : KData} (hg : KInv g) (hages : Ages s.settled g)
    {p : Ptr} (hp : s.busy p = true) : g.entry p = none := by
  have hnone := settled_busy hp
  have hlinked : p ∉ s.settled.linked := fun hl => by
    rw [(h.refines.inv.db.entry_at hl).1] at hnone
    cases hnone
  have hbrk : ¬ s.settled.brk ≤ p := Nat.not_le.mpr (h.held p hp).1
  by_contra hne
  rcases (hg.pool.alloc p hne).2 with hl | hq
  · exact (hages.linked p hl).elim hlinked hbrk
  · rcases hages.pool p hq with hq | hl | hle
    · obtain ⟨-, e, he, -⟩ := h.refines.inv.pool.queued p hq
      rw [he] at hnone
      cases hnone
    · exact hlinked hl
    · exact hbrk hle

/-- The main thread does something to its keyspace. -/
theorem Composed.step (h : Composed k s a) {g : KData} {a' : Keyspace} (hg : Refines g a')
    (hages : Ages s.settled g) {threads : List (Worker Ptr)}
    (hsignals : Notified s.data (g.beside s.held) s.threads threads) (clock : UInt64)
    (main : MainThread) :
    Composed k { clock := clock, data := g.beside s.held, threads := threads, main := main } a' := by
  set s' : ThreadedState :=
    { clock := clock, data := g.beside s.held, threads := threads, main := main }
  have hwoke := hsignals.woke rfl
  have hsame : ∀ i p, s'.Takes i p ↔ s.Takes i p := fun i p => hwoke.getElem?_eq rfl nofun
  have hbusy : ∀ p, s'.busy p = true ↔ s.busy p = true := fun p => by
    rw [busy_iff, busy_iff]
    exact exists_congr fun i => hsame i p
  have hsettled : s'.settled = g := by
    have hentry : s'.settled.entry = g.entry := by
      funext p
      by_cases hp : s.busy p = true
      · rw [settled_busy ((hbusy p).mpr hp), h.absent hg.inv hages hp]
      · rw [settled_other fun hb => hp ((hbusy p).mp hb)]
        show (g.entry p).or (s.held p) = g.entry p
        rw [held_other hp, Option.or_none]
    calc s'.settled = { g with entry := s'.settled.entry } := rfl
      _ = g := by rw [hentry]
  refine ⟨hsettled ▸ hg, fun p hp => ?_, fun i j p hi hj => ?_, ?_, ?_⟩
  · have hp := (hbusy p).mp hp
    obtain ⟨hlt, e, he, hok⟩ := h.held p hp
    refine ⟨Nat.lt_of_lt_of_le hlt hages.brk, e, ?_, hok⟩
    show g.entry.join s.held p = some e
    rw [join_of_none (h.absent hg.inv hages hp), held_busy hp, he]
  · exact h.once i j p ((hsame i p).mp hi) ((hsame j p).mp hj)
  · exact hwoke.length_eq.trans h.size
  · have hle : (g.beside s.held).pool.length ≤
        s.data.pool.length + ((g.beside s.held).pool.length - s.data.pool.length) := by omega
    exact Supplied.fewer (hsignals.supply rfl h.supplied) hle

/-! ## Workers -/

/-- A worker that has no entry goes on without one. -/
theorem Composed.move (h : Composed k s a) {i : Nat} {t t' : Worker Ptr}
    (ht : s.threads[i]? = some t) (hidle : ∀ p, t ≠ .busy p) (hidle' : ∀ p, t' ≠ .busy p)
    (hsupplied : Supplied Worker.isWaiting s.data.pool.length (s.threads.set i t')) :
    Composed k { s with threads := s.threads.set i t' } a := by
  set s' : ThreadedState := { s with threads := s.threads.set i t' }
  have hsame : ∀ j p, s'.Takes j p ↔ s.Takes j p := fun j p => by
    rw [takes_set ht rfl]
    split
    · next hj =>
      subst hj
      refine ⟨fun he => absurd he (hidle' p), fun he => ?_⟩
      exact absurd (Option.some.inj (ht.symm.trans he)) (hidle p)
    · rfl
  have hbusy : s'.busy = s.busy := by
    funext p
    rw [Bool.eq_iff_iff, busy_iff, busy_iff]
    exact exists_congr fun j => hsame j p
  have hsettled : s'.settled = s.settled := by
    unfold ThreadedState.settled
    rw [hbusy]
  refine ⟨hsettled ▸ h.refines, fun p hp => h.held p (hbusy ▸ hp), fun i j p hi hj => ?_, ?_,
    hsupplied⟩
  · exact h.once i j p ((hsame i p).mp hi) ((hsame j p).mp hj)
  · rw [← h.size]
    exact List.length_set ..

/-- A worker takes the job at the front: from here on the entry is beside the keyspace. -/
theorem Composed.take (h : Composed k s a) {i : Nat} {t : Worker Ptr} {p : Ptr} {pool : List Ptr}
    (ht : s.threads[i]? = some t) (hidle : ∀ p, t ≠ .busy p) (hpool : s.data.pool = p :: pool) :
    Composed k { s with data := { s.data with pool := pool }
                        threads := s.threads.set i (.busy p) } a := by
  set s' : ThreadedState :=
    { s with data := { s.data with pool := pool }, threads := s.threads.set i (.busy p) }
  obtain ⟨-, e, he, hok⟩ := h.refines.inv.pool.queued p (hpool ▸ List.mem_cons_self)
  have hfree : ¬ s.busy p = true := fun hb => by
    rw [settled_busy hb] at he
    cases he
  have htakes : ∀ j q, s'.Takes j q ↔ (j = i ∧ q = p) ∨ s.Takes j q := fun j q => by
    rw [takes_set ht rfl]
    split
    · next hj =>
      subst hj
      constructor
      · exact fun heq => Or.inl ⟨rfl, (Worker.busy.inj heq).symm⟩
      · rintro (⟨-, rfl⟩ | hq)
        · rfl
        · exact absurd (Option.some.inj (ht.symm.trans hq)) (hidle q)
    · next hj => exact ⟨Or.inr, fun hq => hq.resolve_left fun hq => hj hq.1⟩
  have hbusy : ∀ q, s'.busy q = true ↔ q = p ∨ s.busy q = true := fun q => by
    rw [busy_iff, busy_iff]
    constructor
    · rintro ⟨j, hj⟩
      exact ((htakes j q).mp hj).imp And.right fun hj => ⟨j, hj⟩
    · rintro (rfl | ⟨j, hj⟩)
      · exact ⟨i, (htakes i q).mpr (Or.inl ⟨rfl, rfl⟩)⟩
      · exact ⟨j, (htakes j q).mpr (Or.inr hj)⟩
  -- It is as if the entry had been freed.
  have hsettled : poolWork s.settled = .ok s'.settled := by
    have hentry : s'.settled.entry = Function.update s.settled.entry p none := by
      funext q
      by_cases hq : q = p
      · rw [hq, Function.update_self, settled_busy ((hbusy p).mpr (Or.inl rfl))]
      · rw [Function.update_of_ne hq]
        by_cases hb : s.busy q = true
        · rw [settled_busy hb, settled_busy ((hbusy q).mpr (Or.inr hb))]
        · rw [settled_other hb, settled_other fun hb' => ((hbusy q).mp hb').elim hq hb]
    have hwork : poolWork s.settled = entryDelSync { s.settled with pool := pool } p := by
      unfold poolWork ThreadedState.settled
      dsimp only
      rw [hpool]
    rw [hwork, entryDelSync_spec (g := { s.settled with pool := pool }) he hok, ← hentry]
    rfl
  obtain ⟨g, hg, hrefines, -⟩ := poolWork_refines h.refines
  obtain rfl := ok_unique hg hsettled
  refine ⟨hrefines, fun q hq => ?_, fun j l q hj hl => ?_, ?_, ?_⟩
  · rcases (hbusy q).mp hq with rfl | hq
    · exact ⟨(h.refines.inv.pool.alloc q (by rw [he]; simp)).1, e, settled_other hfree ▸ he, hok⟩
    · exact h.held q hq
  · rcases (htakes j q).mp hj with ⟨hji, rfl⟩ | hj'
    · rcases (htakes l q).mp hl with ⟨hli, -⟩ | hl'
      · exact hji.trans hli.symm
      · exact absurd (busy_iff.mpr ⟨l, hl'⟩) hfree
    · rcases (htakes l q).mp hl with ⟨-, rfl⟩ | hl'
      · exact absurd (busy_iff.mpr ⟨j, hj'⟩) hfree
      · exact h.once j l q hj' hl'
  · rw [← h.size]
    exact List.length_set ..
  · have hle : pool.length ≤ s.data.pool.length := by
      rw [hpool]
      exact Nat.le_succ _
    exact Supplied.set (Supplied.fewer h.supplied hle) ht rfl

/-- The keyspace without an entry. -/
def KData.freed (g : KData) (p : Ptr) : KData :=
  { g with entry := Function.update g.entry p none }

/-- The job of a worker frees the entry, and nothing else. -/
theorem Composed.frees (h : Composed k s a) {i : Nat} {p : Ptr} (hp : s.Takes i p) :
    entryDelSync s.data p = .ok (s.data.freed p) := by
  obtain ⟨-, e, he, hok⟩ := h.held p (busy_iff.mpr ⟨i, hp⟩)
  exact entryDelSync_spec he hok

/-- The end of a job. -/
theorem Composed.finish (h : Composed k s a) {i : Nat} {p : Ptr} (hp : s.Takes i p) :
    Composed k { s with data := s.data.freed p, threads := s.threads.set i .ready } a := by
  set s' : ThreadedState :=
    { s with data := s.data.freed p, threads := s.threads.set i .ready }
  have htakes : ∀ j q, s'.Takes j q ↔ j ≠ i ∧ s.Takes j q := fun j q => by
    rw [takes_set hp rfl]
    split
    · next hj => exact ⟨fun heq => absurd heq nofun, fun hq => absurd hj hq.1⟩
    · next hj => exact (and_iff_right hj).symm
  have hbusy : ∀ q, s'.busy q = true ↔ q ≠ p ∧ s.busy q = true := fun q => by
    rw [busy_iff, busy_iff]
    constructor
    · rintro ⟨j, hj⟩
      obtain ⟨hji, hj⟩ := (htakes j q).mp hj
      exact ⟨fun heq => hji (h.once j i p (heq ▸ hj) hp), j, hj⟩
    · rintro ⟨hq, j, hj⟩
      refine ⟨j, (htakes j q).mpr ⟨fun hji => hq ?_, hj⟩⟩
      rw [hji] at hj
      exact Worker.busy.inj (Option.some.inj (hj.symm.trans hp))
  have hsettled : s'.settled = s.settled := by
    have hentry : s'.settled.entry = s.settled.entry := by
      funext q
      by_cases hq : q = p
      · rw [settled_other fun hb => ((hbusy q).mp hb).1 hq, hq,
          settled_busy (busy_iff.mpr ⟨i, hp⟩)]
        exact Function.update_self ..
      · by_cases hb : s.busy q = true
        · rw [settled_busy hb, settled_busy ((hbusy q).mpr ⟨hq, hb⟩)]
        · rw [settled_other hb, settled_other fun hb' => hb ((hbusy q).mp hb').2]
          exact Function.update_of_ne hq _ _
    calc s'.settled = { s.settled with entry := s'.settled.entry } := rfl
      _ = s.settled := by rw [hentry]
  refine ⟨hsettled ▸ h.refines, fun q hq => ?_, fun j l q hj hl => ?_, ?_, ?_⟩
  · obtain ⟨hq, hb⟩ := (hbusy q).mp hq
    obtain ⟨hlt, e, he, hok⟩ := h.held q hb
    exact ⟨hlt, e, (Function.update_of_ne hq _ _).trans he, hok⟩
  · exact h.once j l q ((htakes j q).mp hj).2 ((htakes l q).mp hl).2
  · rw [← h.size]
    exact List.length_set ..
  · exact Supplied.set h.supplied hp rfl

/-! ## The main thread -/

/-- Neither the clock nor the place of the main thread matters here. -/
theorem Composed.congr (h : Composed k s a) (clock : UInt64) (main : MainThread) :
    Composed k { s with clock := clock, main := main } a :=
  ⟨h.refines, h.held, h.once, h.size, h.supplied⟩

/-- The job of a worker with the entry `p`, and what it means to the main thread: nothing. -/
structure Independent (strtod : Strtod) (g : KData) (p : Ptr) : Prop where
  frees : entryDelSync g p = .ok (g.freed p)
  request : ∀ now cmd out, Mirrors (fun r => (r.1.freed p, r.2)) (doRequest strtod g now cmd out)
    (doRequest strtod (g.freed p) now cmd out)
  expire : ∀ now, Mirrors (Option.map (KData.freed · p)) (expireOne g now)
    (expireOne (g.freed p) now)

theorem Composed.beside_freed (h : Composed k s a) {g : KData} (hg : KInv g)
    (hages : Ages s.settled g) {p : Ptr} (hp : s.busy p = true) :
    (g.beside s.held).freed p = g.beside (Function.update s.held p none) := by
  unfold KData.freed KData.beside
  dsimp only
  rw [update_join (h.absent hg hages hp)]

theorem Composed.independent (h : Composed k s a) (strtod : Strtod) {i : Nat} {p : Ptr}
    (hp : s.Takes i p) : Independent strtod s.data p := by
  have hb := busy_iff.mpr ⟨i, hp⟩
  have hinv := h.refines.inv
  have hdata : s.data.freed p = s.settled.beside (Function.update s.held p none) := by
    rw [← h.beside_freed hinv (.refl _) hb, settled_beside]
  have hapart := settled_apart s
  refine ⟨h.frees hp, fun now cmd out => ?_, fun now => ?_⟩
  · rw [hdata]
    have hrun := doRequest_beside hinv hapart strtod now cmd out
    rw [settled_beside] at hrun
    refine hrun.compare (doRequest_beside hinv (hapart.update p) strtod now cmd out) fun r hr => ?_
    have hans := (doRequest_spec strtod h.refines now cmd out).answered r hr
    exact Prod.ext (h.beside_freed hans.inv hans.ages hb) rfl
  · rw [hdata]
    have hrun := expireOne_beside h.refines hapart now
    rw [settled_beside] at hrun
    refine hrun.compare (expireOne_beside h.refines (hapart.update p) now) fun r hr => ?_
    obtain ⟨r', hr', hexp⟩ := expireOne_spec h.refines now
    obtain rfl := ok_unique hr' hr
    cases hexp with
    | none => rfl
    | some _ _ _ _ hg hages => exact congrArg some (h.beside_freed hg.inv hages hb)

/-- What the machine `m` has to do with the keyspace `a` of the main thread: `m` is where the timer
    pass that is under way has begun. -/
def MainThread.Pending (clock : UInt64) (m : Machine) (a : Keyspace) : MainThread → Prop
  | .idle => m.keys = a
  | .expiring now nworks => now = clock ∧ nworks ≤ kMaxWorks + 1 ∧ ∀ a',
      Keyspace.Expires now.toNat (kMaxWorks + 1 - nworks) a a' →
      Keyspace.Expires now.toNat (kMaxWorks + 1) m.keys a'

/-- The threads stand for the machine. -/
def Stand (k : Nat) (s : ThreadedState) (m : Machine) : Prop :=
  m.clock ≤ s.clock.toNat ∧ ∃ a, Composed k s a ∧ s.main.Pending s.clock m a

/-- What the step is for a client: the workers are not seen, and a timer pass when it ends. -/
def ThreadedEvent.seen : ThreadedEvent → Option KEvent
  | .request now cmd reply => some (.request now cmd reply)
  | .timers now => some (.timers now)
  | _ => none

def ThreadedEvent.Timely : ThreadedEvent → Prop
  | .request now _ _ => now.toNat < 2 ^ 63
  | _ => True

theorem Composed.section (h : Composed k s a) {i : Nat} {t : Worker Ptr}
    (ht : s.threads[i]? = some t) (hlocks : t.locks = true) :
    Composed k
      { s with data := { s.data with pool := (workerSection ⟨s.threads, s.data.pool⟩ i).1.queue }
               threads := (workerSection ⟨s.threads, s.data.pool⟩ i).1.threads } a := by
  have hidle : ∀ p, t ≠ .busy p := by
    rintro p rfl
    cases hlocks
  cases hpool : s.data.pool with
  | nil =>
    have hsupplied : Supplied Worker.isWaiting s.data.pool.length (s.threads.set i .waiting) := by
      unfold Supplied
      rw [hpool, List.length_nil, Nat.zero_min]
      exact Nat.zero_le _
    have hdata : { s.data with pool := [] } = s.data := by rw [← hpool]
    show Composed k { s with data := { s.data with pool := [] }
                             threads := s.threads.set i .waiting } a
    rw [hdata]
    exact h.move ht hidle (fun _ => nofun) hsupplied
  | cons p pool => exact h.take ht hidle hpool

/-- A step of the threads is a step of the machine, or is not seen. -/
theorem ThreadedStep.simulate {strtod : Strtod} {s' : ThreadedState} {m : Machine}
    {l : ThreadedEvent} (h : Stand k s m) (htime : l.Timely) (hstep : ThreadedStep strtod s l s') :
    ∃ m', Run (Machine.Step strtod) m l.seen.toList m' ∧ Stand k s' m' := by
  obtain ⟨hclock, a, h, hpending⟩ := h
  have hinv := h.refines.inv
  cases hstep with
  | @request now cmd out reply g threads hmain hle hrun hsignals =>
    rw [hmain] at hpending
    have hle := UInt64.le_iff_toNat_le.mp hle
    have hmirrors := doRequest_beside hinv (settled_apart s) strtod now cmd out
    rw [settled_beside] at hmirrors
    obtain ⟨⟨g0, out0⟩, hrun0, heq⟩ := hmirrors.of_ok hrun
    obtain ⟨rfl, rfl⟩ := Prod.mk.inj heq
    have hans := (doRequest_spec strtod h.refines now cmd out).answered _ hrun0
    obtain ⟨r, hout, hr⟩ := hans.reply
    obtain rfl : reply = r.encode := List.append_cancel_left hout
    obtain rfl : m.keys = a := hpending
    exact ⟨_, (Run.refl m).snoc (.request (hclock.trans hle) hr), le_refl _, _,
      h.step (hans.refines htime) hans.ages hsignals now .idle, rfl⟩
  | @pass now hmain hle =>
    rw [hmain] at hpending
    obtain rfl : m.keys = a := hpending
    exact ⟨m, .refl m, hclock.trans (UInt64.le_iff_toNat_le.mp hle), _, h.congr now _, rfl,
      Nat.zero_le _, fun a' ha' => ha'⟩
  | @expire now nworks g threads hmain hworks hrun hsignals =>
    rw [hmain] at hpending
    obtain ⟨hnow, -, hexpires⟩ := hpending
    have hmirrors := expireOne_beside h.refines (settled_apart s) now
    rw [settled_beside] at hmirrors
    obtain ⟨r, hr, heq⟩ := hmirrors.of_ok hrun
    obtain ⟨r', hr', hexp⟩ := expireOne_spec h.refines now
    obtain rfl := ok_unique hr' hr
    cases hexp with
    | none => cases heq
    | @some g0 key item e hkey he hlt hleast hg hages =>
      obtain rfl := Option.some.inj heq
      refine ⟨m, .refl m, hclock, _, h.step hg hages hsignals s.clock _, hnow,
        Nat.succ_le_succ hworks, fun a' ha' => hexpires a' ?_⟩
      have hcount : kMaxWorks + 1 - nworks = kMaxWorks + 1 - (nworks + 1) + 1 := by omega
      rw [hcount]
      exact .due hkey he hlt hleast ha'
  | @timers now nworks hmain hend =>
    rw [hmain] at hpending
    obtain ⟨hnow, hworks, hexpires⟩ := hpending
    have hidle : Keyspace.Expires now.toNat (kMaxWorks + 1 - nworks) a a := by
      rcases hend with hlt | hnone
      · have hcount : kMaxWorks + 1 - nworks = 0 := by omega
        rw [hcount]
        exact .full
      · have hmirrors := expireOne_beside h.refines (settled_apart s) now
        rw [settled_beside] at hmirrors
        obtain ⟨r, hr, heq⟩ := hmirrors.of_ok hnone
        obtain ⟨r', hr', hexp⟩ := expireOne_spec h.refines now
        obtain rfl := ok_unique hr' hr
        cases hexp with
        | none hleast => exact .idle hleast
        | some _ _ _ _ _ _ => cases heq
    refine ⟨_, (Run.refl m).snoc (.timers (hnow ▸ hclock) (hexpires a hidle)), hnow ▸ le_refl _, a,
      h.congr s.clock .idle, rfl⟩
  | worker ht hlocks => exact ⟨m, .refl m, hclock, a, h.section ht hlocks, hpending⟩
  | spurious ht =>
    exact ⟨m, .refl m, hclock, a, h.move ht (fun _ => nofun) (fun _ => nofun)
      (Supplied.set h.supplied ht rfl), hpending⟩
  | done ht hrun =>
    obtain rfl := ok_unique (h.frees ht) hrun
    exact ⟨m, .refl m, hclock, a, h.finish ht, hpending⟩

theorem Stand.start (k : Nat) : Stand k (.start k) {} := by
  have hnone : ∀ i p, ¬ (ThreadedState.start k).Takes i p := fun i p hp => by
    cases (List.mem_replicate.mp (List.mem_of_getElem? hp)).2
  have hbusy : ∀ p, ¬ (ThreadedState.start k).busy p = true := fun p hp =>
    (busy_iff.mp hp).elim fun i hi => hnone i p hi
  have hsettled : (ThreadedState.start k).settled = {} := by
    have hentry : (ThreadedState.start k).settled.entry = fun _ => none := by
      funext p
      exact settled_other (hbusy p)
    calc (ThreadedState.start k).settled
        = { entry := (ThreadedState.start k).settled.entry } := rfl
      _ = {} := by rw [hentry]
  refine ⟨le_refl _, ∅, ⟨hsettled ▸ Refines.empty, fun p hp => absurd hp (hbusy p),
    fun i j p hp => absurd hp (hnone i p), List.length_replicate, ?_⟩, rfl⟩
  unfold Supplied
  exact (Nat.zero_min _).le.trans (Nat.zero_le _)

theorem run_stand {strtod : Strtod} {ls : List ThreadedEvent}
    (hrun : Run (ThreadedStep strtod) (.start k) ls s) (htime : ∀ l ∈ ls, l.Timely) :
    ∃ m, Run (Machine.Step strtod) {} (ls.filterMap ThreadedEvent.seen) m ∧ Stand k s m :=
  Run.simulate_seen (R := Stand k) (fun _ _ _ _ h ht hstep => hstep.simulate h ht) (Stand.start k)
    hrun htime

/-- Each allocated entry is in one place: the hash table, the queue, or with one worker. -/
structure ThreadedState.Owned (s : ThreadedState) : Prop where
  placed : ∀ p, s.data.entry p ≠ none ↔
    p ∈ s.data.linked ∨ p ∈ s.data.pool ∨ ∃ i, s.Takes i p
  linked : s.data.linked.Nodup ∧ ∀ p ∈ s.data.linked, p ∉ s.data.pool ∧ ∀ i, ¬ s.Takes i p
  queued : s.data.pool.Nodup ∧ ∀ p ∈ s.data.pool, ∀ i, ¬ s.Takes i p
  taken : ∀ i j p, s.Takes i p → s.Takes j p → i = j
  timed : ∀ t ∈ s.data.heap.a, t.ref ∈ s.data.linked

theorem Composed.owned (h : Composed k s a) : s.Owned := by
  have howned := h.refines.inv.entriesOwned
  have hfree : ∀ p, s.settled.entry p ≠ none → ∀ i, ¬ s.Takes i p := fun p hp i hi =>
    hp (settled_busy (busy_iff.mpr ⟨i, hi⟩))
  have hdata : ∀ p, s.settled.entry p ≠ none → s.data.entry p ≠ none := fun p hp hnone => by
    by_cases hb : s.busy p = true
    · exact hp (settled_busy hb)
    · exact hp ((settled_other hb).trans hnone)
  refine ⟨fun p => ⟨fun hp => ?_, ?_⟩, ⟨howned.linkedOnce, fun p hp => ?_⟩,
    ⟨howned.queuedOnce, fun p hp => hfree p (howned.queued p hp).1⟩, h.once,
    h.refines.inv.ttl.owned⟩
  · by_cases hb : s.busy p = true
    · exact Or.inr (Or.inr (busy_iff.mp hb))
    · rw [← settled_other hb] at hp
      exact (h.refines.inv.pool.alloc p hp).2.imp_right Or.inl
  · rintro (hl | hq | hi)
    · exact hdata p (howned.linked p hl).1
    · exact hdata p (howned.queued p hq).1
    · obtain ⟨-, e, he, -⟩ := h.held p (busy_iff.mpr hi)
      rw [he]
      exact Option.some_ne_none e
  · obtain ⟨hne, -, hq⟩ := howned.linked p hp
    exact ⟨hq, hfree p hne⟩

end

/-- **The workers are not seen.** However the steps of the `k` workers fall between those of the
    main thread, its requests and timer passes are a run of the keyspace machine with the same
    replies. Each allocated entry has one owner; the job of a worker frees one without a fault, and
    it makes no difference to the main thread when; whatever the main thread does next returns;
    and a job in the queue finds a worker that is awake. -/
theorem threads_refine {strtod : Strtod} {k : Nat} (hk : 0 < k) {ls : List ThreadedEvent}
    {s : ThreadedState} (hrun : Run (ThreadedStep strtod) (.start k) ls s)
    (htime : ∀ l ∈ ls, l.Timely) :
    (∃ m a, Run (Machine.Step strtod) {} (ls.filterMap ThreadedEvent.seen) m ∧
      Refines s.settled a ∧ (s.main = .idle → m.keys = a) ∧
      ∀ now cmd out, a.Specified (Command.of strtod cmd) →
        ∃ res, doRequest strtod s.data now cmd out = .ok res) ∧
      (∀ now, ∃ r, expireOne s.data now = .ok r) ∧ s.Owned ∧
      (∀ i p, s.Takes i p → Independent strtod s.data p) ∧
      (s.data.pool ≠ [] → ∃ t ∈ s.threads, t.isWaiting = false) := by
  obtain ⟨m, hm, -, a, h, hpending⟩ := run_stand hrun htime
  have hapart := settled_apart s
  refine ⟨⟨m, a, hm, h.refines, fun hidle => ?_, fun now cmd out hspec => ?_⟩, fun now => ?_,
    h.owned, fun i p hp => h.independent strtod hp, fun hq => ?_⟩
  · rw [hidle] at hpending
    exact hpending
  · obtain ⟨res, hres⟩ := (doRequest_spec strtod h.refines now cmd out).returns hspec
    have hbeside := doRequest_follows hapart strtod now cmd out res hres
    rw [settled_beside] at hbeside
    exact ⟨_, hbeside⟩
  · obtain ⟨r, hr, -⟩ := expireOne_spec h.refines now
    have hbeside := expireOne_follows hapart now r hr
    rw [settled_beside] at hbeside
    exact ⟨_, hbeside⟩
  · have hsupplied := h.supplied
    unfold Supplied at hsupplied
    rw [h.size] at hsupplied
    have hpos : 0 < s.threads.countP fun t => !t.isWaiting := by
      have := List.length_pos_iff.mpr hq
      unfold awake at hsupplied
      omega
    obtain ⟨t, ht, hawake⟩ := List.countP_pos_iff.mp hpos
    exact ⟨t, ht, by simpa using hawake⟩

/-! ## A run with a job -/

section Job

variable {strtod : Strtod} {k : Nat} {clock : UInt64} {g : KData} {threads : List (Worker Ptr)}
  {a : Keyspace}

/-- The main thread carries out a request while no worker waits. -/
theorem Composed.exists_request (h : Composed k ⟨clock, g, threads, .idle⟩ a)
    (hawake : ∀ t ∈ threads, t.isWaiting = false) {now : UInt64} (hle : clock ≤ now)
    (htime : now.toNat < 2 ^ 63) (cmd : List Bytes)
    (hspec : a.Specified (Command.of strtod cmd)) : ∃ r g',
      ThreadedStep strtod ⟨clock, g, threads, .idle⟩ (.request now cmd (Reply.encode r))
        ⟨now, g', threads, .idle⟩ ∧
      a.Replies now.toNat (Command.of strtod cmd) r ∧
      Composed k ⟨now, g', threads, .idle⟩ (a.next now.toNat (Command.of strtod cmd)) := by
  have hserves := doRequest_spec strtod h.refines now cmd []
  obtain ⟨⟨g0, out⟩, hres⟩ := hserves.returns hspec
  have hans := hserves.answered _ hres
  obtain ⟨r, rfl, hr⟩ := hans.reply
  have hdata := doRequest_follows (settled_apart _) strtod now cmd [] _ hres
  rw [settled_beside] at hdata
  have hsignals := @signals_awake (Worker Ptr) _ .woken _ hawake
  exact ⟨r, _, .request rfl hle hdata (hsignals _), hr,
    h.step (hans.refines htime) hans.ages (hsignals _) now .idle⟩

/-- One request after another, at one clock reading. -/
theorem Composed.exists_requests (h : Composed k ⟨clock, g, threads, .idle⟩ a)
    (hawake : ∀ t ∈ threads, t.isWaiting = false) (htime : clock.toNat < 2 ^ 63)
    (cmds : List (List Bytes))
    (hspec : ∀ cmd ∈ cmds, ∀ a : Keyspace, a.Specified (Command.of strtod cmd)) : ∃ ls g',
      Run (ThreadedStep strtod) ⟨clock, g, threads, .idle⟩ ls ⟨clock, g', threads, .idle⟩ ∧
      ls.length = cmds.length ∧ (∀ l ∈ ls, l.Timely) ∧ Composed k ⟨clock, g', threads, .idle⟩
        (cmds.foldl (fun a cmd => a.next clock.toNat (Command.of strtod cmd)) a) := by
  induction cmds using List.reverseRecOn with
  | nil => exact ⟨[], g, .refl _, rfl, by simp, h⟩
  | append_singleton cmds cmd ih =>
    obtain ⟨ls, g1, hrun, hlen, hls, h1⟩ := ih fun c hc => hspec c (List.mem_append_left _ hc)
    obtain ⟨r, g2, hstep, -, h2⟩ := h1.exists_request hawake (UInt64.le_refl _) htime cmd
      (hspec cmd (List.mem_append_right _ (List.mem_singleton_self _)) _)
    refine ⟨_, g2, hrun.snoc hstep, ?_, ?_, ?_⟩
    · rw [List.length_append, List.length_append, hlen]
      rfl
    · intro l hl
      rcases List.mem_append.mp hl with hl | hl
      · exact hls l hl
      · rw [List.mem_singleton.mp hl]
        exact htime
    · rw [List.foldl_append]
      exact h2

end Job

/-- A large set expires: its entry is left to the workers. -/
theorem exists_queued_run {n : Nat} (hlarge : kLargeContainerSize < n) (hn : n ≤ 2 ^ 64) :
    ∃ (ls : List ThreadedEvent) (g : KData),
    Run (ThreadedStep strtodZero) (.start 2) (ls ++ [.pass 2] ++ [.expire])
      ⟨2, g, [.ready, .ready], .expiring 2 1⟩ ∧ ls.length = n + 1 ∧ (∀ l ∈ ls, l.Timely) ∧
      Composed 2 ⟨2, g, [.ready, .ready], .expiring 2 1⟩ ∅ ∧ g.pool ≠ [] := by
  have hawake : ∀ t ∈ ([.ready, .ready] : List (Worker Ptr)), t.isWaiting = false := by
    simp [Worker.isWaiting]
  obtain ⟨-, a, h0, rfl⟩ := Stand.start 2
  obtain ⟨ls, g, hrun, hlen, hls, h1⟩ := h0.exists_requests hawake (by decide)
    (zaddCmds n ++ [[ascii "pexpire", ascii "s", ascii "1"]]) fun cmd hcmd a => by
      rcases List.mem_append.mp hcmd with hcmd | hcmd
      · obtain ⟨i, -, rfl⟩ := List.mem_map.mp hcmd
        trivial
      · rw [List.mem_singleton.mp hcmd]
        trivial
  obtain ⟨⟨m, expiry, hm, hcard⟩, hother⟩ := lookup_zaddCmds (Nat.zero_lt_of_lt hlarge) hn
  rw [List.foldl_append] at h1
  set a := (afterAll strtodZero (zaddCmds n)).next 0 (.pexpire (ascii "s") (some 1)) with ha
  have hkey : a.lookup (ascii "s") = some ⟨.zset m, some 1⟩ := by
    rw [ha, Keyspace.next, hm]
    exact Finmap.lookup_insert _
  have honly : ∀ key item, a.lookup key = some item → key = ascii "s" := fun key item hitem => by
    by_contra hne
    rw [ha, Keyspace.next, hm, Finmap.lookup_insert_of_ne _ hne, hother key hne] at hitem
    cases hitem
  have h2 : Composed 2 ⟨2, g, [.ready, .ready], .expiring 2 0⟩ a := h1.congr 2 _
  obtain ⟨r, hr, hexp⟩ := expireOne_spec h2.refines 2
  cases hexp with
  | none hleast => exact absurd (hleast _ _ 1 hkey rfl) (by decide)
  | @some g' key item e hitem he hlt hleast hg hages =>
    obtain ⟨p, hpool⟩ := expireOne_queues h2.refines (fun key v e hv => by
      obtain rfl := honly key _ hv
      obtain ⟨rfl, -⟩ := Item.mk.inj (Option.some.inj (hv.symm.trans hkey))
      exact ⟨m, rfl, hcard ▸ hlarge⟩) hr
    have hdata := expireOne_follows (settled_apart _) 2 _ hr
    rw [settled_beside] at hdata
    have hsignals := @signals_awake (Worker Ptr) _ .woken _ hawake
    have h3 := h2.step hg hages (hsignals _) 2 (.expiring 2 1)
    have hempty : Finmap.erase key a = ∅ := Finmap.ext_lookup fun k => by
      rw [Finmap.lookup_empty]
      by_cases hk : k = key
      · rw [hk, Finmap.lookup_erase]
      · rw [Finmap.lookup_erase_ne hk]
        cases hk' : a.lookup k with
        | none => rfl
        | some item' => exact absurd ((honly k _ hk').trans (honly key _ hitem).symm) hk
    rw [hempty] at h3
    have hpass := hrun.snoc (.pass rfl (show (0 : UInt64) ≤ 2 by decide))
    refine ⟨ls, _, hpass.snoc (.expire rfl (by decide) hdata (hsignals _)), ?_, hls, h3, ?_⟩
    · rw [hlen, List.length_append, zaddCmds, List.length_map, List.length_range]
      rfl
    · show g'.pool ≠ []
      rw [hpool]
      exact List.append_ne_nil_of_right_ne_nil _ (List.cons_ne_nil p [])

/-- A set of 1001 members expires. While a worker frees its entry, and after that, clients ask for its
    key. -/
theorem threads_refine_freed : ∃ (ls es : List ThreadedEvent) (s s' : ThreadedState) (p : Ptr)
    (m : Machine), Run (ThreadedStep strtodZero) (.start 2) ls s ∧
      [.pass 2, .expire, .worker 0] <:+ ls ∧ s.Takes 0 p ∧ Independent strtodZero s.data p ∧
      es = [.timers 2, .request 2 [ascii "get", ascii "s"] (Reply.one .nil).encode, .done 0,
        .request 2 [ascii "get", ascii "s"] (Reply.one .nil).encode] ∧
      Run (ThreadedStep strtodZero) s es s' ∧
      Run (Machine.Step strtodZero) {} ((ls ++ es).filterMap ThreadedEvent.seen) m ∧
      Refines s'.settled m.keys ∧ s'.Owned ∧ ∀ i q, ¬ s'.Takes i q := by
  obtain ⟨ls, g, hrun, hlen, hls, h, hne⟩ :=
    exists_queued_run (Nat.lt_succ_self 1000) (by omega)
  obtain ⟨p, pool, hpool⟩ := List.exists_cons_of_ne_nil hne
  -- A worker takes the job, and the TTL loop ends.
  have htake : ThreadedStep strtodZero ⟨2, g, [.ready, .ready], .expiring 2 1⟩ (.worker 0)
      ⟨2, { g with pool := pool }, [.busy p, .ready], .expiring 2 1⟩ := by
    have hstep : ThreadedStep strtodZero ⟨2, g, [.ready, .ready], .expiring 2 1⟩ (.worker 0) _ :=
      .worker (t := .ready) rfl rfl
    dsimp only at hstep
    rw [hpool] at hstep
    exact hstep
  have h1 : Composed 2 ⟨2, { g with pool := pool }, [.busy p, .ready], .expiring 2 1⟩ ∅ :=
    h.take (i := 0) (t := .ready) rfl nofun hpool
  have hrun1 := hrun.snoc htake
  obtain ⟨r, hr, hexp⟩ := expireOne_spec h1.refines 2
  have hend : ThreadedStep strtodZero ⟨2, { g with pool := pool }, [.busy p, .ready], .expiring 2 1⟩
      (.timers 2) ⟨2, { g with pool := pool }, [.busy p, .ready], .idle⟩ := by
    cases hexp with
    | none _ =>
      have hdata := expireOne_follows (settled_apart _) 2 _ hr
      rw [settled_beside] at hdata
      exact .timers rfl (Or.inr hdata)
    | some hitem _ _ _ _ _ => cases hitem
  -- The key is gone, before the entry is freed and after it.
  have hawake : ∀ t ∈ [Worker.busy p, .ready], t.isWaiting = false := by simp [Worker.isWaiting]
  obtain ⟨r, g2, hget, hr, h2⟩ := (h1.congr 2 .idle).exists_request hawake (UInt64.le_refl 2)
    (by decide) [ascii "get", ascii "s"] trivial
  obtain rfl : r = .one .nil := hr
  have htakes : (⟨2, g2, [.busy p, .ready], .idle⟩ : ThreadedState).Takes 0 p := rfl
  have hdone : ThreadedStep strtodZero ⟨2, g2, [.busy p, .ready], .idle⟩ (.done 0)
      ⟨2, g2.freed p, [.ready, .ready], .idle⟩ := .done htakes (h2.frees htakes)
  have h3 : Composed 2 ⟨2, g2.freed p, [.ready, .ready], .idle⟩ ∅ := h2.finish htakes
  have hwaiting : ∀ t ∈ ([.ready, .ready] : List (Worker Ptr)), t.isWaiting = false := by
    simp [Worker.isWaiting]
  obtain ⟨r, g4, hget', hr, -⟩ :=
    @Composed.exists_request strtodZero _ _ _ _ _ h3 hwaiting _ (UInt64.le_refl 2) (by decide)
      [ascii "get", ascii "s"] trivial
  obtain rfl : r = .one .nil := hr
  have hrun2 := ((((Run.refl _).snoc hend).snoc hget).snoc hdone).snoc hget'
  have htime : ∀ l ∈ ls ++ [.pass 2] ++ [.expire] ++ [.worker 0], l.Timely := by
    simp only [List.append_assoc, List.forall_mem_append]
    exact ⟨hls, by simp [ThreadedEvent.Timely]⟩
  obtain ⟨-, -, -, hindependent, -⟩ := threads_refine (by decide) hrun1 htime
  obtain ⟨⟨m, a, hm, href, hidle, -⟩, -, howned, -⟩ :=
    threads_refine (by decide) (hrun1.trans hrun2) (List.forall_mem_append.mpr
      ⟨htime, by simp [ThreadedEvent.Timely]⟩)
  refine ⟨_, _, _, _, p, m, hrun1, ⟨ls, by simp⟩, rfl, hindependent 0 p rfl, rfl, hrun2, hm,
    hidle rfl ▸ href, howned, ?_⟩
  intro i q hq
  have hready : Worker.busy q ∈ ([.ready, .ready] : List (Worker Ptr)) := List.mem_of_getElem? hq
  simp at hready

end Greenis
