/-
  `lib/server/thread_pool.cpp`: the pool of workers and its queue of jobs.

  A step of the pool is a section that holds the mutex, of `thread_pool_queue` or of a worker, or
  what happens to a worker outside of them: a wake-up from `pthread_cond_wait` that nobody has
  asked for, and the end of a job. A worker that waits has released the mutex.
-/
import Greenis.Lib.Exec
import Greenis.Lib.Waiters

namespace Greenis
open CExec CondVar

/-- Where a worker is between two sections. -/
inductive Worker (Work : Type) where
  /-- at the top of its loop, where it takes the mutex -/
  | ready
  /-- blocked in `pthread_cond_wait` -/
  | waiting
  /-- woken in `pthread_cond_wait`, which takes the mutex again -/
  | woken
  /-- does the job it has taken -/
  | busy (w : Work)
  deriving DecidableEq

section Pool

variable {Work : Type}

def Worker.isWaiting : Worker Work → Bool
  | .waiting => true
  | _ => false

/-- The worker goes on with the mutex, to check the queue. -/
def Worker.locks : Worker Work → Bool
  | .ready => true
  | .woken => true
  | _ => false

structure ThreadPool (Work : Type) where
  threads : List (Worker Work)
  queue : List Work := []

def threadPoolInit (numThreads : Nat) : Exec (ThreadPool Work) := do
  check (numThreads > 0)
  .ok { threads := List.replicate numThreads .ready }

/-- `thread_pool_queue`, where the signal leaves `threads`. -/
def threadPoolQueue (tp : ThreadPool Work) (w : Work) (threads : List (Worker Work)) :
    ThreadPool Work :=
  { tp with threads := threads, queue := tp.queue ++ [w] }

/-- The section of the `i`-th worker: it takes the job at the front, or waits if there is none. -/
def workerSection (tp : ThreadPool Work) (i : Nat) : ThreadPool Work × Option Work :=
  match tp.queue with
  | [] => ({ tp with threads := tp.threads.set i .waiting }, none)
  | w :: queue => ({ tp with threads := tp.threads.set i (.busy w), queue := queue }, some w)

/-- A step of the pool: a job is queued, or the `i`-th worker goes through its section and takes a
    job or none, is woken by no signal, or is done with its job. -/
inductive PoolEvent (Work : Type) where
  | queue (w : Work)
  | worker (i : Nat) (taken : Option Work)
  | spurious (i : Nat)
  | done (i : Nat) (w : Work)

inductive PoolStep : ThreadPool Work → PoolEvent Work → ThreadPool Work → Prop
  | queue {tp : ThreadPool Work} {w : Work} {threads : List (Worker Work)} :
      Signalled Worker.isWaiting .woken tp.threads threads →
      PoolStep tp (.queue w) (threadPoolQueue tp w threads)
  | worker {tp : ThreadPool Work} {i : Nat} {t : Worker Work} :
      tp.threads[i]? = some t → t.locks = true →
      PoolStep tp (.worker i (workerSection tp i).2) (workerSection tp i).1
  | spurious {tp : ThreadPool Work} {i : Nat} : tp.threads[i]? = some .waiting →
      PoolStep tp (.spurious i) { tp with threads := tp.threads.set i .woken }
  | done {tp : ThreadPool Work} {i : Nat} {w : Work} : tp.threads[i]? = some (.busy w) →
      PoolStep tp (.done i w) { tp with threads := tp.threads.set i .ready }

end Pool

end Greenis
