/-
  What passes through a socket while it is served.

  `serveConnRecorded` is `serveConn` with a record of the bytes that come in and go out and of the
  calls of `do_request` (`serveConn_recorded`). The commands called are the valid frames at the
  front of what the connection has received, and what goes out are the responses in order
  (`Exchanged`).
-/
import Greenis.Proofs.ServerKeyspace

namespace Greenis
open CExec LTS Ring

/-! ## Records -/

/-- A request that has been served: when, and the body of its reply. -/
structure Call where
  now : UInt64
  cmd : List Bytes
  body : Bytes

def Call.event (c : Call) : KEvent := .request c.now c.cmd c.body

/-- The frames that are sent for some calls. -/
def replies (calls : List Call) : Bytes := responses (calls.map fun c => (c.cmd, c.body))

theorem replies_append (calls calls' : List Call) :
    replies (calls ++ calls') = replies calls ++ replies calls' := by
  unfold replies
  rw [List.map_append, responses_append]

section Recorded

variable (strtod : Strtod)

/-- `do_request` with a record of its calls. -/
def recorded (s : KData × List Call) (now : UInt64) (cmd : List Bytes) (out : Buffer) :
    Exec ((KData × List Call) × Buffer) := do
  let (g, out') ← doRequest strtod s.1 now cmd out
  .ok ((g, s.2 ++ [⟨now, cmd, out'.drop out.length⟩]), out')

/-- What passes through a socket. -/
structure Exchange where
  received : Bytes := []
  calls : List Call := []
  sent : Bytes := []

def handleIoRecorded (g : GData) (conn : Ptr) (ready : Revents) (io : Served) :
    Exec (GData × Exchange) := do
  let (g, x) ←
    (if ready.pollin then do
      let c ← g.conns.load conn
      check c.wantRead
      let ((kv, calls), c, sent) ←
        handleRead (recorded strtod) (g.kv, []) c io.nows io.read io.firstWrite
      .ok ({ g with kv := kv, conns := g.conns.write conn c },
        ⟨io.read.bytes.take readBufSize, calls, sent⟩)
    else .ok (g, {}))
  if ready.pollout then do
    let c ← g.conns.load conn
    check c.wantWrite
    let (c, sent) ← handleWrite c io.write
    .ok ({ g with conns := g.conns.write conn c }, { x with sent := x.sent ++ sent })
  else .ok (g, x)

def serveConnRecorded (g : GData) (fd : Nat) (ready : Revents) (io : Served) :
    Exec (GData × Option (Ptr × Exchange)) :=
  if ready = {} then .ok (g, none)
  else do
    let entry ← index g.fd2conn fd
    let conn ← deref entry
    let conns ← g.conns.modify conn fun c => { c with lastActiveMs := io.now }
    let idle ← dlistDetach g.idle conn
    let idle ← dlistInsertBefore idle idleList conn
    let (g, x) ← handleIoRecorded strtod { g with conns := conns, idle := idle } conn ready io
    let c ← g.conns.load conn
    let g ← (if ready.pollerr || c.wantClose then connDestroy g conn else .ok g)
    .ok (g, some (conn, x))

end Recorded

/-! ## The record is one of what is served -/

section Erase

variable {σ τ : Type} {app : σ → UInt64 → List Bytes → Buffer → Exec (σ × Buffer)}
  {app' : τ → UInt64 → List Bytes → Buffer → Exec (τ × Buffer)} {f : τ → σ}

/-- `app'` does what `app` does to a part of its state. -/
def Extends (f : τ → σ) (app' : τ → UInt64 → List Bytes → Buffer → Exec (τ × Buffer))
    (app : σ → UInt64 → List Bytes → Buffer → Exec (σ × Buffer)) : Prop :=
  ∀ s now cmd out, app (f s) now cmd out = app' s now cmd out >>= fun r => .ok (f r.1, r.2)

theorem within_bind_ok {α β : Type} (x : Exec α) (h : α → β) :
    within (x >>= fun a => .ok (h a)) = within x >>= fun a => .ok (h a) := by
  cases x <;> rfl

theorem tryOneRequest_extends (h : Extends f app' app) (s : τ) (now : UInt64) (conn : Conn) :
    tryOneRequest app (f s) now conn =
      tryOneRequest app' s now conn >>= fun r => .ok (r.1, f r.2.1, r.2.2) := by
  unfold tryOneRequest
  split
  · rfl
  · rw [bind_assoc]
    congr 1
    funext header
    dsimp only
    split
    · rfl
    · split
      · rfl
      · rw [bind_assoc]
        congr 1
        funext request
        rw [bind_assoc]
        congr 1
        funext parsed
        cases parsed with
        | none => rfl
        | some cmd =>
          dsimp only
          rw [h, within_bind_ok]
          simp only [bind_assoc, ok_bind]

theorem requestLoop_extends (h : Extends f app' app) (nows : Nat → UInt64) :
    ∀ (fuel i : Nat) (s : τ) (conn : Conn), requestLoop app nows fuel i (f s) conn =
      requestLoop app' nows fuel i s conn >>= fun r => .ok (f r.1, r.2) := by
  intro fuel
  induction fuel with
  | zero => intro i s conn; rfl
  | succ fuel ih =>
    intro i s conn
    unfold requestLoop
    rw [tryOneRequest_extends h, bind_assoc, bind_assoc]
    congr 1
    funext r
    rw [ok_bind]
    dsimp only
    split
    · exact ih _ _ _
    · rfl

theorem handleRead_extends (h : Extends f app' app) (s : τ) (conn : Conn) (nows : Nat → UInt64)
    (read : ReadResult) (write : WriteResult) :
    handleRead app (f s) conn nows read write =
      handleRead app' s conn nows read write >>= fun r => .ok (f r.1, r.2) := by
  unfold handleRead
  cases read with
  | again => rfl
  | error => rfl
  | data bs =>
    dsimp only
    split
    · rfl
    · rw [requestLoop_extends h, bind_assoc, bind_assoc]
      congr 1
      funext r
      rw [ok_bind]
      dsimp only
      split
      · rw [bind_assoc]
        rfl
      · rfl

end Erase

theorem recorded_extends (strtod : Strtod) :
    Extends Prod.fst (recorded strtod) (doRequest strtod) := by
  intro s now cmd out
  unfold recorded
  rw [bind_assoc]
  cases doRequest strtod s.1 now cmd out <;> rfl

theorem handleIo_recorded (strtod : Strtod) (g : GData) (conn : Ptr) (ready : Revents)
    (io : Served) : handleIo strtod g conn ready io =
      handleIoRecorded strtod g conn ready io >>= fun r => .ok r.1 := by
  unfold handleIo handleIoRecorded
  have hread := handleRead_extends (recorded_extends strtod) (g.kv, [])
  dsimp only at hread
  cases ready.pollin <;> cases ready.pollout <;>
    simp only [hread, bind_assoc, ok_bind, if_true, if_false, Bool.false_eq_true]

theorem serveConn_recorded (strtod : Strtod) (g : GData) (fd : Nat) (ready : Revents)
    (io : Served) : serveConn strtod g fd ready io =
      serveConnRecorded strtod g fd ready io >>= fun r => .ok r.1 := by
  unfold serveConn serveConnRecorded
  split
  · rfl
  · simp only [handleIo_recorded, bind_assoc, ok_bind]
    iterate 7
      apply congrArg
      funext _
    split
    · exact (bind_pure _).symm
    · rfl

/-! ## What is served -/

theorem appends_recorded (strtod : Strtod) : Appends (recorded strtod) fun s => KInv s.1 := by
  intro s now cmd out s' out' hs hrun
  obtain ⟨⟨g, out1⟩, hdo, hrun⟩ := bind_eq_ok.mp hrun
  cases hrun
  exact appends_doRequest strtod _ _ _ _ _ _ hs hdo

section Served

variable {strtod : Strtod} {nows : Nat → UInt64} {clock : UInt64}

theorem handleWrite_keeps {conn conn' : Conn} {write : WriteResult} {sent : Bytes}
    (hrun : handleWrite conn write = .ok (conn', sent)) :
    conn'.incoming = conn.incoming ∧ sent ++ conn'.outgoing = conn.outgoing ∧
      (conn'.wantClose = false → conn.wantClose = false) := by
  have hne : conn.outgoing ≠ [] := by
    intro hnil
    unfold handleWrite at hrun
    rw [hnil] at hrun
    cases hrun
  obtain ⟨res, hrun', hwritten⟩ := handleWrite_spec conn hne write
  obtain rfl := ok_unique hrun' hrun
  cases hwritten with
  | again => exact ⟨rfl, rfl, id⟩
  | error => exact ⟨rfl, rfl, fun hopen => Bool.noConfusion hopen⟩
  | some heq _ => exact ⟨rfl, heq.symm, id⟩
  | all => exact ⟨rfl, List.append_nil _, id⟩

/-- A connection `conn` gets `x.received` and calls `x.calls`, one after another. Then it is `conn'`,
    and the keyspace is `g`. -/
structure Exchanged (strtod : Strtod) (k : KState) (conn : Conn) (x : Exchange) (g : KData)
    (conn' : Conn) (clock : UInt64) : Prop where
  run : ∃ k', Run (KStep strtod) k (x.calls.map Call.event) k' ∧ k'.data = g ∧ k'.clock ≤ clock
  frames : Frames (conn.incoming ++ x.received) (x.calls.map Call.cmd) conn'.incoming
  sent : conn.outgoing ++ replies x.calls = x.sent ++ conn'.outgoing
  rests : (conn'.wantClose = false → Unfinished conn'.incoming) ∧
    ∀ cmd rest, ¬ StartsWith conn'.incoming cmd rest

/-- The loop over the requests, with what it calls. -/
theorem requestLoop_recorded (hmono : ∀ i, nows i ≤ nows (i + 1)) (hlast : ∀ i, nows i ≤ clock) :
    ∀ (fuel i : Nat) (k : KState) (log log' : List Call) (conn conn' : Conn) (g : KData),
      KInv k.data → k.clock ≤ nows i → conn.wantClose = false →
      requestLoop (recorded strtod) nows fuel i (k.data, log) conn = .ok ((g, log'), conn') →
      ∃ calls, log' = log ++ calls ∧
        Exchanged strtod k conn { calls := calls } g conn' clock := by
  intro fuel
  induction fuel with
  | zero => intro i k log log' conn conn' g _ _ _ hrun; cases hrun
  | succ fuel ih =>
    intro i k log log' conn conn' g hk hclock hopen hrun
    have hquiet : ∃ k', Run (KStep strtod) k [] k' ∧ k'.data = k.data ∧ k'.clock ≤ clock :=
      ⟨k, .refl k, rfl, UInt64.le_trans hclock (hlast i)⟩
    obtain ⟨⟨more, s1, conn1⟩, htry, hrun⟩ := bind_eq_ok.mp hrun
    have htried := tryOneRequest_spec (s := (k.data, log)) (appends_recorded strtod) hk (nows i) conn
    rw [htry] at htried
    cases htried with
    | unfinished hun =>
      cases hrun
      refine ⟨[], (List.append_nil _).symm, hquiet, ?_, by simp [replies, responses], fun _ => hun,
        fun cmd rest hs => hs.not_other.1 hun⟩
      rw [List.append_nil]
      exact .nil _
    | invalid hinv =>
      cases hrun
      refine ⟨[], (List.append_nil _).symm, hquiet, ?_, by simp [replies, responses],
        fun hfalse => Bool.noConfusion hfalse, fun cmd rest hs => hs.not_other.2 hinv⟩
      rw [List.append_nil]
      exact .nil _
    | @served cmd rest body out s' hstarts happly =>
      obtain ⟨⟨g1, out1⟩, hdo, happly⟩ := bind_eq_ok.mp happly
      obtain ⟨rfl, rfl⟩ := Prod.mk.inj (Except.ok.inj happly)
      rw [List.drop_left] at hrun
      set call : Call := ⟨nows i, cmd, body⟩
      have hstep : KStep strtod k _ ⟨nows i, g1⟩ := .request hclock hdo
      obtain ⟨calls, hlog, ⟨k', hrun', hdata, hle⟩, hframes, hsent, hrests⟩ :=
        ih (i + 1) ⟨nows i, g1⟩ (log ++ [call]) log'
          { conn with incoming := rest, outgoing := conn.outgoing ++ frame (capped body) } conn' g
          (appends_doRequest strtod _ _ _ _ _ _ hk hdo).1 (hmono i) hopen hrun
      refine ⟨call :: calls, ?_, ⟨k', ?_, hdata, hle⟩, ?_, ?_, hrests⟩
      · rw [hlog, List.append_assoc, List.singleton_append]
      · exact ((Run.refl k).snoc hstep).trans hrun'
      · rw [List.append_nil] at hframes ⊢
        exact .cons hstarts hframes
      · rw [← hsent]
        simp [replies, responses, call]

/-- Some of the responses are written. -/
theorem Exchanged.write {k : KState} {conn conn1 conn2 : Conn} {x : Exchange} {g : KData}
    (h : Exchanged strtod k conn x g conn1 clock) {write : WriteResult} {sent : Bytes}
    (hrun : handleWrite conn1 write = .ok (conn2, sent)) :
    Exchanged strtod k conn { x with sent := x.sent ++ sent } g conn2 clock := by
  obtain ⟨hin, hout, hclose⟩ := handleWrite_keeps hrun
  refine ⟨h.run, ?_, ?_, ?_, ?_⟩
  · rw [hin]
    exact h.frames
  · rw [h.sent, ← hout, List.append_assoc]
  · rw [hin]
    exact fun hopen => h.rests.1 (hclose hopen)
  · rw [hin]
    exact h.rests.2

/-- What `read` returns is served. -/
theorem Exchanged.read {k : KState} (hk : KInv k.data) (hmono : ∀ i, nows i ≤ nows (i + 1))
    (hlast : ∀ i, nows i ≤ clock) (hclock : ∀ i, k.clock ≤ nows i) {conn conn' : Conn}
    (hopen : conn.wantClose = false) (hun : Unfinished conn.incoming) {read : ReadResult}
    {write : WriteResult} {g : KData} {calls : List Call} {sent : Bytes}
    (hrun : handleRead (recorded strtod) (k.data, []) conn nows read write =
      .ok ((g, calls), conn', sent)) :
    Exchanged strtod k conn ⟨read.bytes.take readBufSize, calls, sent⟩ g conn' clock := by
  have hquiet : ∃ k', Run (KStep strtod) k [] k' ∧ k'.data = k.data ∧ k'.clock ≤ clock :=
    ⟨k, .refl k, rfl, UInt64.le_trans (hclock 0) (hlast 0)⟩
  have hmax : ∀ cmd rest, ¬ StartsWith conn.incoming cmd rest := fun cmd rest hs =>
    hs.not_other.1 hun
  have hnone : ∀ {conn' : Conn}, conn'.incoming = conn.incoming → conn'.outgoing = conn.outgoing →
      Exchanged strtod k conn {} k.data conn' clock := by
    intro conn' hin hout
    refine ⟨hquiet, ?_, ?_, ?_, ?_⟩
    · rw [hin, List.append_nil]
      exact .nil _
    · rw [hout]
      exact List.append_nil _
    · rw [hin]
      exact fun _ => hun
    · rw [hin]
      exact hmax
  unfold handleRead at hrun
  cases read with
  | again =>
    cases hrun
    exact hnone rfl rfl
  | error =>
    cases hrun
    exact hnone rfl rfl
  | data bs =>
    dsimp only at hrun
    split at hrun
    · rename_i hnil
      cases hrun
      rw [ReadResult.bytes, List.length_eq_zero_iff.mp hnil]
      exact hnone rfl rfl
    · obtain ⟨⟨⟨g1, calls1⟩, conn1⟩, hloop, hafter⟩ := bind_eq_ok.mp hrun
      set conn0 : Conn := { conn with incoming := bufAppend conn.incoming (bs.take readBufSize) }
      obtain ⟨calls2, rfl, hsteps, hframes, hsent, hrests⟩ :=
        requestLoop_recorded hmono hlast _ _ k [] calls1 conn0 conn1 g1 hk (hclock 0) hopen hloop
      rw [List.append_nil] at hframes
      have hall : Exchanged strtod k conn ⟨bs.take readBufSize, calls1, []⟩ g1
          { conn1 with wantRead := false, wantWrite := true } clock :=
        ⟨hsteps, hframes, hsent, hrests⟩
      dsimp only at hafter
      split at hafter
      · obtain ⟨⟨conn2, sent2⟩, hwrite, hdone⟩ := bind_eq_ok.mp hafter
        cases hdone
        exact hall.write hwrite
      · cases hafter
        exact ⟨hsteps, hframes, hsent, hrests⟩

variable {g g' : GData} {p : Ptr} {ready : Revents} {io : Served} {k : KState}

theorem handleIoRecorded_spec (hdata : k.data = g.kv) (hk : KInv k.data)
    (hclock : k.clock ≤ io.now)
    (htimes : ∀ i, io.now ≤ io.nows i ∧ io.nows i ≤ io.nows (i + 1) ∧ io.nows i ≤ clock) {c : Conn}
    (hp : g.conns p = some c) (hopen : c.wantClose = false) (hun : Unfinished c.incoming)
    {x : Exchange} (hrun : handleIoRecorded strtod g p ready io = .ok (g', x)) :
    ∃ c', g'.conns = g.conns.write p c' ∧ g'.brk = g.brk ∧
      Exchanged strtod k c x g'.kv c' clock := by
  obtain ⟨⟨g1, x1⟩, hread, hwrite⟩ := bind_eq_ok.mp hrun
  have hafter : ∃ c1, g1.conns = g.conns.write p c1 ∧ g1.brk = g.brk ∧
      Exchanged strtod k c x1 g1.kv c1 clock := by
    split at hread
    · rw [Store.load_of hp, ok_bind] at hread
      obtain ⟨u, -, hread⟩ := bind_eq_ok.mp hread
      obtain ⟨⟨⟨kv, calls⟩, c1, sent⟩, hhandle, hread⟩ := bind_eq_ok.mp hread
      cases hread
      rw [← hdata] at hhandle
      exact ⟨c1, rfl, rfl, Exchanged.read hk (fun i => (htimes i).2.1) (fun i => (htimes i).2.2)
        (fun i => UInt64.le_trans hclock (htimes i).1) hopen hun hhandle⟩
    · cases hread
      refine ⟨c, ?_, rfl, ⟨k, .refl k, hdata, ?_⟩, ?_, List.append_nil _, fun _ => hun,
        fun cmd rest hs => hs.not_other.1 hun⟩
      · rw [Store.write, ← hp, Function.update_eq_self]
      · exact UInt64.le_trans hclock (UInt64.le_trans (htimes 0).1 (htimes 0).2.2)
      · rw [List.append_nil]
        exact .nil _
  obtain ⟨c1, hconns, hbrk, hx⟩ := hafter
  dsimp only at hwrite
  split at hwrite
  · rw [hconns, Store.load_of (Store.write_same _ _ _), ok_bind] at hwrite
    obtain ⟨u, -, hwrite⟩ := bind_eq_ok.mp hwrite
    obtain ⟨⟨c2, sent⟩, hsend, hwrite⟩ := bind_eq_ok.mp hwrite
    cases hwrite
    exact ⟨c2, Function.update_idem _ _ _, hbrk, hx.write hsend⟩
  · cases hwrite
    exact ⟨c1, hconns, hbrk, hx⟩

theorem connDestroy_conns (hrun : connDestroy g p = .ok g') :
    g'.conns = Function.update g.conns p none ∧ g'.brk = g.brk := by
  obtain ⟨c, -, hrun⟩ := bind_eq_ok.mp hrun
  obtain ⟨old, -, hrun⟩ := bind_eq_ok.mp hrun
  obtain ⟨detached, -, hrun⟩ := bind_eq_ok.mp hrun
  obtain ⟨conns, hfree, hrun⟩ := bind_eq_ok.mp hrun
  obtain ⟨idle, -, hrun⟩ := bind_eq_ok.mp hrun
  obtain ⟨d, -, hfree⟩ := bind_eq_ok.mp hfree
  cases hfree
  cases hrun
  exact ⟨rfl, rfl⟩

/-- The record of what is served. The connection is closed afterwards, or kept. -/
theorem serveConnRecorded_spec (hdata : k.data = g.kv) (hk : KInv k.data)
    (hclock : k.clock ≤ io.now)
    (htimes : ∀ i, io.now ≤ io.nows i ∧ io.nows i ≤ io.nows (i + 1) ∧ io.nows i ≤ clock)
    (hconn : ∀ p c, g.conns p = some c → c.wantClose = false ∧ Unfinished c.incoming) {fd : Nat}
    {x : Exchange} (hrun : serveConnRecorded strtod g fd ready io = .ok (g', some (p, x))) :
    ∃ c c', g.conns p = some c ∧ Exchanged strtod k c x g'.kv c' clock ∧ g'.brk = g.brk ∧
      (g'.conns = Function.update g.conns p none ∨
        c'.wantClose = false ∧ g'.conns = g.conns.write p c') := by
  unfold serveConnRecorded at hrun
  split at hrun
  · cases hrun
  · obtain ⟨entry, -, hrun⟩ := bind_eq_ok.mp hrun
    obtain ⟨q, -, hrun⟩ := bind_eq_ok.mp hrun
    obtain ⟨conns, hmodify, hrun⟩ := bind_eq_ok.mp hrun
    obtain ⟨detached, -, hrun⟩ := bind_eq_ok.mp hrun
    obtain ⟨idle, -, hrun⟩ := bind_eq_ok.mp hrun
    obtain ⟨⟨g1, x1⟩, hio, hafter⟩ := bind_eq_ok.mp hrun
    obtain ⟨c, hp, hmodify⟩ := bind_eq_ok.mp hmodify
    cases hmodify
    have hp := Store.load_eq_ok.mp hp
    obtain ⟨hopen, hun⟩ := hconn q c hp
    set c0 : Conn := { c with lastActiveMs := io.now }
    obtain ⟨c', hconns, hbrk, hrun', hframes, hsent, hrests⟩ :=
      handleIoRecorded_spec (g := { g with conns := g.conns.write q c0, idle := idle }) (c := c0)
        hdata hk hclock htimes (Store.write_same _ _ _) hopen hun hio
    have hx : Exchanged strtod k c x1 g1.kv c' clock := ⟨hrun', hframes, hsent, hrests⟩
    have hcons : g1.conns = g.conns.write q c' := hconns.trans (Function.update_idem _ _ _)
    dsimp only at hafter
    rw [hcons, Store.load_of (Store.write_same _ _ _), ok_bind] at hafter
    obtain ⟨g2, hclose, hdone⟩ := bind_eq_ok.mp hafter
    cases hdone
    refine ⟨c, c', hp, ?_⟩
    split at hclose
    · obtain ⟨hfree, hsame⟩ := connDestroy_conns hclose
      rw [connDestroy_kv hclose, hfree, hcons]
      exact ⟨hx, hsame.trans hbrk, Or.inl (Function.update_idem _ _ _)⟩
    · rename_i hkeep
      cases hclose
      rw [Bool.or_eq_true, not_or] at hkeep
      exact ⟨hx, hbrk, Or.inr ⟨by simpa using hkeep.2, hcons⟩⟩

end Served

end Greenis
