/-
  `server.cpp` with the workers of `lib/server/thread_pool.cpp` beside it.

  The main thread carries out a request, or one round of the loop of `process_timers`, between two
  steps of the workers. Each job that it queues signals once. A worker takes the job at the front of
  the queue, and frees the entry in a later step.
-/
import Greenis.Model.KeyValue
import Greenis.Model.Response
import Greenis.Model.ThreadPool

namespace Greenis
open CExec CondVar

/-- One round of the TTL loop of `process_timers`, if the timer at the root of the heap is due. -/
def expireOne (g : KData) (now : UInt64) : Exec (Option KData) :=
  match g.heap.a with
  | [] => .ok none
  | first :: _ =>
    if first.val < now then do
      let ent := first.ref
      let e ← g.entry.load ent
      let (db, node) ← hmDelete g.db e.hcode (hnodeSame ent)
      check (node.map HNode.owner == some ent)
      let g ← entryDel { g with db := db } ent
      .ok (some g)
    else .ok none

/-- Where the main thread is: between requests, or in the TTL loop, after `nworks` rounds. -/
inductive MainThread where
  | idle
  | expiring (now : UInt64) (nworks : Nat)

structure ThreadedState where
  clock : UInt64 := 0
  data : KData := {}
  threads : List (Worker Ptr)
  main : MainThread := .idle

inductive ThreadedEvent where
  | request (now : UInt64) (cmd : List Bytes) (reply : Bytes)
  /-- the TTL loop begins -/
  | pass (now : UInt64)
  /-- one round of it -/
  | expire
  /-- it ends -/
  | timers (now : UInt64)
  /-- a worker checks the queue -/
  | worker (i : Nat)
  /-- a worker is woken by no signal -/
  | spurious (i : Nat)
  /-- a worker frees the entry it has taken -/
  | done (i : Nat)

/-- The signals for the jobs that have been added to the queue. -/
def Notified (g g' : KData) (threads threads' : List (Worker Ptr)) : Prop :=
  Signals Worker.isWaiting .woken (g'.pool.length - g.pool.length) threads threads'

inductive ThreadedStep (strtod : Strtod) : ThreadedState → ThreadedEvent → ThreadedState → Prop
  | request {s : ThreadedState} {now : UInt64} {cmd : List Bytes} {out reply : Bytes} {g : KData}
      {threads : List (Worker Ptr)} : s.main = .idle → s.clock ≤ now →
      doRequest strtod s.data now cmd out = .ok (g, out ++ reply) →
      Notified s.data g s.threads threads →
      ThreadedStep strtod s (.request now cmd reply)
        { clock := now, data := g, threads := threads, main := .idle }
  | pass {s : ThreadedState} {now : UInt64} : s.main = .idle → s.clock ≤ now →
      ThreadedStep strtod s (.pass now) { s with clock := now, main := .expiring now 0 }
  | expire {s : ThreadedState} {now : UInt64} {nworks : Nat} {g : KData}
      {threads : List (Worker Ptr)} : s.main = .expiring now nworks → nworks ≤ kMaxWorks →
      expireOne s.data now = .ok (some g) → Notified s.data g s.threads threads →
      ThreadedStep strtod s .expire
        { s with data := g, threads := threads, main := .expiring now (nworks + 1) }
  | timers {s : ThreadedState} {now : UInt64} {nworks : Nat} : s.main = .expiring now nworks →
      (kMaxWorks < nworks ∨ expireOne s.data now = .ok none) →
      ThreadedStep strtod s (.timers now) { s with main := .idle }
  | worker {s : ThreadedState} {i : Nat} {t : Worker Ptr} : s.threads[i]? = some t →
      t.locks = true →
      ThreadedStep strtod s (.worker i)
        { s with data := { s.data with pool := (workerSection ⟨s.threads, s.data.pool⟩ i).1.queue }
                 threads := (workerSection ⟨s.threads, s.data.pool⟩ i).1.threads }
  | spurious {s : ThreadedState} {i : Nat} : s.threads[i]? = some .waiting →
      ThreadedStep strtod s (.spurious i) { s with threads := s.threads.set i .woken }
  | done {s : ThreadedState} {i : Nat} {ent : Ptr} {g : KData} :
      s.threads[i]? = some (.busy ent) → entryDelSync s.data ent = .ok g →
      ThreadedStep strtod s (.done i) { s with data := g, threads := s.threads.set i .ready }

/-- `main` with its `k` workers. -/
def ThreadedState.start (k : Nat) : ThreadedState := { threads := List.replicate k .ready }

end Greenis
