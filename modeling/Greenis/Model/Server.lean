/-
  `server.cpp`, `lib/server/timer.cpp`, `inc/server/list.h` and the connections of
  `lib/server/conn.cpp`: the event loop.

  `GData` is `g_data` with the memory of the connections. The `idle_node` of the connection at `p`
  is the list node at `p`, and the node at 0 is `g_data.idle_list`. A `LoopState` is the server
  between two operations of `main`, and `LoopStep` what may happen next: the outcomes of `poll`,
  `accept`, `read` and `write` and the clock readings are arbitrary, and so is the point at which a
  worker of the thread pool does a job. Three ends of the server are left out: an error of `poll`
  other than an interruption and a failure of `fcntl` in `fd_set_nb`, where it dies, and the signal
  of a `write` to a closed socket. `TimedStep` are the steps at a clock that does not go back.
-/
import Greenis.Lib.Ring
import Greenis.Model.Conn

namespace Greenis
open CExec

/-! ## Intrusive lists -/

abbrev DList := Ring.Node

def dlistInit (m : Store DList) (node : Ptr) : Store DList := m.write node ⟨some node, some node⟩

def dlistEmpty (m : Store DList) (node : Ptr) : Exec Bool := do
  let n ← m.load node
  .ok (n.next == some node)

def dlistDetach (m : Store DList) (node : Ptr) : Exec (Store DList) := do
  let n ← m.load node
  let prev ← deref n.prev
  let next ← deref n.next
  let m ← m.modify prev fun n => { n with next := some next }
  m.modify next fun n => { n with prev := some prev }

def dlistInsertBefore (m : Store DList) (target rookie : Ptr) : Exec (Store DList) := do
  let t ← m.load target
  let prev ← deref t.prev
  let m ← m.modify prev fun n => { n with next := some rookie }
  let m ← m.modify rookie fun n => { n with prev := some prev }
  let m ← m.modify rookie fun n => { n with next := some target }
  m.modify target fun n => { n with prev := some rookie }

/-! ## Connections -/

/-- The address of `g_data.idle_list`. -/
def idleList : Ptr := 0

/-- `fds` are the sockets of clients that are open, for the kernel. -/
structure GData where
  kv : KData := {}
  fd2conn : List (Option Ptr) := []
  conns : Store Conn := fun _ => none
  idle : Store DList := dlistInit (fun _ => none) idleList
  brk : Ptr := 1
  fds : List Nat := []

/-- Application callback when the listening socket is ready. `accept` is the new socket, if there is
    one. -/
def handleAccept (g : GData) (accept : Option Nat) (now : UInt64) : Exec GData :=
  match accept with
  | none => .ok g
  | some connfd => do
    -- create a `struct Conn`
    let conn := g.brk
    let conns := g.conns.write conn { fd := connfd, wantRead := true, lastActiveMs := now }
    let idle ← dlistInsertBefore (g.idle.write conn {}) idleList conn
    -- put it into the map
    let fd2conn :=
      if g.fd2conn.length ≤ connfd then
        g.fd2conn ++ List.replicate (connfd + 1 - g.fd2conn.length) none
      else g.fd2conn
    let old ← index fd2conn connfd
    check old.isNone
    .ok { g with
          fd2conn := fd2conn.set connfd (some conn)
          conns := conns
          idle := idle
          brk := g.brk + 1
          fds := connfd :: g.fds }

def connDestroy (g : GData) (conn : Ptr) : Exec GData := do
  let c ← g.conns.load conn
  let _ ← index g.fd2conn c.fd
  let idle ← dlistDetach g.idle conn
  let conns ← g.conns.free conn
  let idle ← idle.free conn
  .ok { g with
        fd2conn := g.fd2conn.set c.fd none
        conns := conns
        idle := idle
        fds := g.fds.erase c.fd }

/-! ## Timers -/

/-- The connection at the front of the list, if there is one. -/
def idleFirst (g : GData) : Exec (Option (Ptr × Conn)) := do
  let empty ← dlistEmpty g.idle idleList
  if empty then .ok none
  else do
    let head ← g.idle.load idleList
    let conn ← deref head.next
    let c ← g.conns.load conn
    .ok (some (conn, c))

def nextTimerMs (g : GData) (now : UInt64) : Exec UInt32 := do
  -- idle timers using a linked list
  let first ← idleFirst g
  let nextMs : UInt64 :=
    match first with
    | none => -1
    | some (_, conn) => conn.lastActiveMs + kIdleTimeoutMs
  -- TTL timers using a heap
  let nextMs :=
    match g.kv.heap.a[0]? with
    | some t => if t.val < nextMs then t.val else nextMs
    | none => nextMs
  -- timeout value
  if nextMs = -1 then .ok (-1)  -- no timers, no timeouts
  else if nextMs ≤ now then .ok 0  -- missed?
  else .ok (nextMs - now).toUInt32

/-- The timeout that `main` passes to `poll`. -/
def pollTimeout (g : GData) (now : UInt64) : Exec Int32 := do
  let timeoutMs ← nextTimerMs g now
  .ok timeoutMs.toInt32

/-- The loop of `process_timers` over the idle connections. -/
def idleLoop (now : UInt64) : Nat → GData → Exec GData
  | 0, _ => .error .fuel
  | fuel + 1, g => do
    match ← idleFirst g with
    | none => .ok g
    | some (conn, c) =>
      let nextMs := c.lastActiveMs + kIdleTimeoutMs
      if nextMs ≥ now then .ok g  -- not expired
      else do
        let g ← connDestroy g conn
        idleLoop now fuel g

/-- `process_timers`; there are less than `brk` connections. -/
def processTimers (g : GData) (now : UInt64) : Exec GData := do
  let g ← idleLoop now (g.brk + 1) g
  let kv ← processTtl g.kv now
  .ok { g with kv := kv }

/-! ## The event loop -/

/-- An entry of `poll_args` behind the listening socket: what is asked for besides `POLLERR`. -/
structure PollFd where
  fd : Nat
  pollin : Bool
  pollout : Bool

/-- The entries for the sockets that have already been connected. -/
def pollArgs (g : GData) : List (Option Ptr) → Exec (List PollFd)
  | [] => .ok []
  | none :: rest => pollArgs g rest
  | some conn :: rest => do
    let c ← g.conns.load conn
    let args ← pollArgs g rest
    .ok ({ fd := c.fd, pollin := c.wantRead, pollout := c.wantWrite } :: args)

/-- `revents` -/
structure Revents where
  pollin : Bool := false
  pollout : Bool := false
  pollerr : Bool := false
  pollhup : Bool := false
  deriving DecidableEq

/-- `poll` returns what has been asked for, and errors. -/
def Revents.For (r : Revents) (pfd : PollFd) : Prop :=
  (r.pollin = true → pfd.pollin = true) ∧ (r.pollout = true → pfd.pollout = true)

/-- What happens while a connection is served: the clock readings, of the loop and of the requests,
    and what `read` and `write` return. `firstWrite` is the `write` of `handle_read`. -/
structure Served where
  now : UInt64
  nows : Nat → UInt64
  read : ReadResult
  firstWrite : WriteResult
  write : WriteResult

section Loop

variable (strtod : Strtod)

/-- The IO of a connection that is ready. -/
def handleIo (g : GData) (conn : Ptr) (ready : Revents) (io : Served) : Exec GData := do
  let g ←
    if ready.pollin then do
      let c ← g.conns.load conn
      check c.wantRead
      let (kv, c, _) ← handleRead (doRequest strtod) g.kv c io.nows io.read io.firstWrite
      .ok { g with kv := kv, conns := g.conns.write conn c }
    else .ok g
  if ready.pollout then do
    let c ← g.conns.load conn
    check c.wantWrite
    let (c, _) ← handleWrite c io.write
    .ok { g with conns := g.conns.write conn c }
  else .ok g

/-- The body of the loop of `main` over the connected sockets. -/
def serveConn (g : GData) (fd : Nat) (ready : Revents) (io : Served) : Exec GData :=
  if ready = {} then .ok g
  else do
    let entry ← index g.fd2conn fd
    let conn ← deref entry
    -- update the idle timer by moving conn to the end of the list
    let conns ← g.conns.modify conn fun c => { c with lastActiveMs := io.now }
    let idle ← dlistDetach g.idle conn
    let idle ← dlistInsertBefore idle idleList conn
    -- handle IO
    let g ← handleIo strtod { g with conns := conns, idle := idle } conn ready io
    -- close the socket from socket error or application logic
    let c ← g.conns.load conn
    if ready.pollerr || c.wantClose then connDestroy g conn else .ok g

/-- Where `main` is: it is about to call `poll`, or to accept and then serve the sockets that are
    left, or to serve these. -/
inductive Phase where
  | poll
  | accept (rest : List (Nat × Revents))
  | serve (rest : List (Nat × Revents))

structure LoopState where
  data : GData := {}
  phase : Phase := .poll

inductive LoopEvent where
  /-- `poll` has been interrupted -/
  | interrupted (now : UInt64)
  /-- `poll` returns, with the events of the listening socket and of the others -/
  | polled (now : UInt64) (listening : Bool) (revents : List Revents)
  | accepted (now : UInt64) (accept : Option Nat)
  | served (io : Served)
  | timers (now : UInt64)
  /-- a worker of the thread pool -/
  | work

inductive LoopStep : LoopState → LoopEvent → LoopState → Prop
  | interrupted {g : GData} {now : UInt64} : LoopStep ⟨g, .poll⟩ (.interrupted now) ⟨g, .poll⟩
  | polled {g : GData} {now : UInt64} {listening : Bool} {args : List PollFd}
      {revents : List Revents} : pollArgs g g.fd2conn = .ok args →
      List.Forall₂ Revents.For revents args →
      LoopStep ⟨g, .poll⟩ (.polled now listening revents)
        ⟨g, if listening then .accept ((args.map PollFd.fd).zip revents)
          else .serve ((args.map PollFd.fd).zip revents)⟩
  | accepted {g g' : GData} {now : UInt64} {accept : Option Nat}
      {rest : List (Nat × Revents)} : (∀ fd ∈ accept, fd ∉ g.fds) →
      handleAccept g accept now = .ok g' →
      LoopStep ⟨g, .accept rest⟩ (.accepted now accept) ⟨g', .serve rest⟩
  | served {g g' : GData} {fd : Nat} {ready : Revents} {rest : List (Nat × Revents)}
      {io : Served} : serveConn strtod g fd ready io = .ok g' →
      LoopStep ⟨g, .serve ((fd, ready) :: rest)⟩ (.served io) ⟨g', .serve rest⟩
  | timers {g g' : GData} {now : UInt64} : processTimers g now = .ok g' →
      LoopStep ⟨g, .serve []⟩ (.timers now) ⟨g', .poll⟩
  | work {g : GData} {phase : Phase} {kv : KData} : poolWork g.kv = .ok kv →
      LoopStep ⟨g, phase⟩ .work ⟨{ g with kv := kv }, phase⟩

/-! ## The clock -/

/-- The clock goes from one reading to another while the event happens. -/
inductive LoopEvent.Ticks : LoopEvent → UInt64 → UInt64 → Prop
  | interrupted {clock now : UInt64} : clock ≤ now → Ticks (.interrupted now) clock now
  | polled {clock now : UInt64} {listening : Bool} {revents : List Revents} : clock ≤ now →
      Ticks (.polled now listening revents) clock now
  | accepted {clock now : UInt64} {accept : Option Nat} : clock ≤ now →
      Ticks (.accepted now accept) clock now
  | served {clock clock' : UInt64} {io : Served} : clock ≤ io.now → io.now ≤ clock' →
      (∀ i, io.now ≤ io.nows i ∧ io.nows i ≤ io.nows (i + 1) ∧ io.nows i ≤ clock') →
      Ticks (.served io) clock clock'
  | timers {clock now : UInt64} : clock ≤ now → Ticks (.timers now) clock now
  | work {clock : UInt64} : Ticks .work clock clock

/-- A state of the loop, and the last clock reading. -/
structure TimedState where
  loop : LoopState := {}
  clock : UInt64 := 0

inductive TimedStep : TimedState → LoopEvent → TimedState → Prop
  | mk {s s' : LoopState} {clock clock' : UInt64} {e : LoopEvent} : LoopStep strtod s e s' →
      e.Ticks clock clock' → TimedStep ⟨s, clock⟩ e ⟨s', clock'⟩

end Loop

end Greenis
