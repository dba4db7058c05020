/-
  The thread pool loses no job, does none twice, and never sleeps on one.

  The jobs taken so far and the queue are the jobs queued, in their order, and as many workers are
  awake as there are jobs, up to the number of workers (`Serving`). The second part holds since a
  job that is queued wakes a worker if any is blocked; whether it is that worker who takes the job
  does not matter.
-/
import Greenis.Lib.Trace
import Greenis.Model.ThreadPool

namespace Greenis
open CExec CondVar LTS

variable {Work : Type}

/-- The jobs that have been queued, in order. -/
def queuedJobs (es : List (PoolEvent Work)) : List Work :=
  es.filterMap fun
    | .queue w => some w
    | _ => none

/-- The jobs that have been taken, in order, each with the worker that has taken it. -/
def takenJobs (es : List (PoolEvent Work)) : List (Nat × Work) :=
  es.filterMap fun
    | .worker i (some w) => some (i, w)
    | _ => none

/-- What holds of a pool of `k` workers after the steps `es`. -/
structure Serving (k : Nat) (es : List (PoolEvent Work)) (tp : ThreadPool Work) : Prop where
  size : tp.threads.length = k
  fifo : (takenJobs es).map Prod.snd ++ tp.queue = queuedJobs es
  takers : ∀ x ∈ takenJobs es, x.1 < k
  supplied : Supplied Worker.isWaiting tp.queue.length tp.threads

theorem Serving.init {k : Nat} {tp : ThreadPool Work} (h : threadPoolInit k = .ok tp) :
    0 < k ∧ Serving k [] tp := by
  unfold threadPoolInit at h
  obtain ⟨u, hcheck, h⟩ := bind_eq_ok.mp h
  cases h
  have hk : 0 < k := by
    unfold check at hcheck
    split at hcheck
    · exact of_decide_eq_true ‹_›
    · cases hcheck
  refine ⟨hk, List.length_replicate, rfl, by simp [takenJobs], ?_⟩
  unfold Supplied
  simp

/-- A worker that does not fall asleep keeps the supply. -/
theorem Supplied.set {ts : List (Worker Work)} {n : Nat} (h : Supplied Worker.isWaiting n ts)
    {i : Nat} {t : Worker Work} (ht : ts[i]? = some t) {t' : Worker Work}
    (hawake : t'.isWaiting = false) : Supplied Worker.isWaiting n (ts.set i t') := by
  unfold Supplied at h ⊢
  have hset : awake Worker.isWaiting (ts.set i t') + (if t.isWaiting then 0 else 1) =
      awake Worker.isWaiting ts + if t'.isWaiting then 0 else 1 := awake_set ht t'
  rw [hawake, if_neg Bool.false_ne_true] at hset
  rw [List.length_set]
  split at hset <;> omega

theorem Supplied.fewer {ts : List (Worker Work)} {m n : Nat}
    (h : Supplied Worker.isWaiting n ts) (hle : m ≤ n) : Supplied Worker.isWaiting m ts := by
  unfold Supplied at h ⊢
  omega

theorem queuedJobs_snoc (es : List (PoolEvent Work)) (e : PoolEvent Work) :
    queuedJobs (es ++ [e]) = queuedJobs es ++ queuedJobs [e] := List.filterMap_append

theorem takenJobs_snoc (es : List (PoolEvent Work)) (e : PoolEvent Work) :
    takenJobs (es ++ [e]) = takenJobs es ++ takenJobs [e] := List.filterMap_append

/-- A step that moves no job. -/
theorem Serving.quiet {k : Nat} {es : List (PoolEvent Work)} {tp : ThreadPool Work}
    (h : Serving k es tp) {e : PoolEvent Work} (hqueued : queuedJobs [e] = [])
    (htaken : takenJobs [e] = []) {threads : List (Worker Work)} (hsize : threads.length = k)
    (hsupplied : Supplied Worker.isWaiting tp.queue.length threads) :
    Serving k (es ++ [e]) { tp with threads := threads } := by
  refine ⟨hsize, ?_, ?_, hsupplied⟩
  · rw [queuedJobs_snoc, takenJobs_snoc, hqueued, htaken, List.append_nil, List.append_nil]
    exact h.fifo
  · rw [takenJobs_snoc, htaken, List.append_nil]
    exact h.takers

theorem Serving.push {k : Nat} {es : List (PoolEvent Work)} {tp : ThreadPool Work}
    (h : Serving k es tp) (w : Work) {threads : List (Worker Work)}
    (hsignal : Signalled Worker.isWaiting .woken tp.threads threads) :
    Serving k (es ++ [.queue w]) (threadPoolQueue tp w threads) := by
  refine ⟨hsignal.woke.length_eq.trans h.size, ?_, ?_, ?_⟩
  · rw [queuedJobs_snoc, takenJobs_snoc, ← h.fifo]
    simp [queuedJobs, takenJobs, threadPoolQueue]
  · rw [takenJobs_snoc]
    simpa [takenJobs] using h.takers
  · unfold threadPoolQueue
    rw [List.length_append]
    exact hsignal.supply rfl h.supplied

/-- The section of a worker, on an empty queue and on another. -/
theorem Serving.section {k : Nat} {es : List (PoolEvent Work)} {tp : ThreadPool Work}
    (h : Serving k es tp) {i : Nat} {t : Worker Work} (ht : tp.threads[i]? = some t) :
    Serving k (es ++ [.worker i (workerSection tp i).2]) (workerSection tp i).1 := by
  unfold workerSection
  cases hq : tp.queue with
  | nil =>
    -- Nothing to do: no worker need be awake.
    have hsupplied : Supplied Worker.isWaiting tp.queue.length (tp.threads.set i .waiting) := by
      unfold Supplied
      rw [hq, List.length_nil, Nat.zero_min]
      exact Nat.zero_le _
    have hinv := h.quiet (e := .worker i none) rfl rfl (by rw [List.length_set, h.size]) hsupplied
    rw [hq] at hinv
    exact hinv
  | cons w queue =>
    have hle : queue.length ≤ tp.queue.length := by
      rw [hq, List.length_cons]
      exact Nat.le_succ _
    refine ⟨by rw [List.length_set, h.size], ?_, ?_,
      Supplied.set (Supplied.fewer h.supplied hle) ht rfl⟩
    · rw [queuedJobs_snoc, takenJobs_snoc, ← h.fifo, hq]
      simp [queuedJobs, takenJobs]
    · rw [takenJobs_snoc]
      intro x hx
      rcases List.mem_append.mp hx with hx | hx
      · exact h.takers x hx
      · obtain rfl : x = (i, w) := by simpa [takenJobs] using hx
        rw [← h.size]
        exact (List.getElem?_eq_some_iff.mp ht).1

/-- Every step keeps the invariant. -/
theorem PoolStep.keeps {k : Nat} {es : List (PoolEvent Work)} {e : PoolEvent Work}
    {tp tp' : ThreadPool Work} (h : Serving k es tp) (hstep : PoolStep tp e tp') :
    Serving k (es ++ [e]) tp' := by
  cases hstep with
  | queue hsignal => exact h.push _ hsignal
  | worker ht _ => exact h.section ht
  | spurious ht =>
    exact h.quiet rfl rfl (by rw [List.length_set, h.size]) (Supplied.set h.supplied ht rfl)
  | done ht =>
    exact h.quiet rfl rfl (by rw [List.length_set, h.size]) (Supplied.set h.supplied ht rfl)

/-- **No job is lost, duplicated or stranded.** In every run of a pool of `k` workers, the jobs
    that have been taken and those in the queue are the jobs that have been queued, in order; at
    least as many workers are awake as there are jobs in the queue, or all; and not all workers
    are asleep on a queue that is not empty. -/
theorem pool_serves {k : Nat} {tp0 tp : ThreadPool Work} {es : List (PoolEvent Work)}
    (hinit : threadPoolInit k = .ok tp0) (hrun : Run PoolStep tp0 es tp) :
    (takenJobs es).map Prod.snd ++ tp.queue = queuedJobs es ∧ (∀ x ∈ takenJobs es, x.1 < k) ∧
      tp.threads.length = k ∧ min tp.queue.length k ≤ tp.threads.countP (fun t => !t.isWaiting) ∧
      (tp.queue ≠ [] → ∃ t ∈ tp.threads, t.isWaiting = false) := by
  obtain ⟨hk, h0⟩ := Serving.init hinit
  have h : Serving k es tp := hrun.traced (fun _ _ _ _ => PoolStep.keeps) h0
  have hsupplied := h.supplied
  unfold Supplied at hsupplied
  rw [h.size] at hsupplied
  refine ⟨h.fifo, h.takers, h.size, hsupplied, fun hq => ?_⟩
  have hpos : 0 < tp.threads.countP fun t => !t.isWaiting := by
    have := List.length_pos_iff.mpr hq
    unfold awake at hsupplied
    omega
  obtain ⟨t, ht, hawake⟩ := List.countP_pos_iff.mp hpos
  exact ⟨t, ht, by simpa using hawake⟩

/-- Both workers wait, a job wakes one, and it takes the job. -/
theorem pool_serves_two : ∃ (es : List (PoolEvent Nat)) (tp : ThreadPool Nat),
    Run PoolStep ⟨[.ready, .ready], []⟩ es tp ∧ tp.threads = [.waiting, .busy 7] ∧
      (takenJobs es).map Prod.snd ++ tp.queue = queuedJobs es ∧ queuedJobs es = [7] := by
  have hsignal : Signalled Worker.isWaiting (.woken : Worker Nat) [.waiting, .waiting]
      [.waiting, .woken] :=
    ⟨.cons (Or.inl rfl) (.cons (Or.inr ⟨rfl, rfl⟩) .nil), fun _ => by decide⟩
  have hrun := (((Run.refl (⟨[.ready, .ready], []⟩ : ThreadPool Nat)).snoc
    (PoolStep.worker (i := 0) rfl rfl)).snoc (PoolStep.worker (i := 1) rfl rfl)).snoc
    (PoolStep.queue (w := 7) hsignal)
  have hrun' := hrun.snoc (PoolStep.worker (i := 1) rfl rfl)
  exact ⟨_, _, hrun', rfl, (pool_serves (k := 2) rfl hrun').1, rfl⟩

end Greenis
