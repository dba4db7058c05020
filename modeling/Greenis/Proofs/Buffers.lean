/-
  How much memory a client can take.

  What holds of a new connection, and is kept by the two handlers, holds of every connection of the
  server (`ConnRule`, `run_conns`). So does a bound on the two buffers (`buffers_bounded`): a
  connection that has responses to write is not read from, and what is read at once holds a limited
  number of requests.
-/
import Greenis.Proofs.Histories
import Greenis.Proofs.ReplyFrames

namespace Greenis
open CExec LTS

variable {strtod : Strtod}

/-! ## A rule for connections -/

/-- `P` holds of new connections, and the handlers keep it while the connection is open. -/
structure ConnRule (strtod : Strtod) (P : Conn → Prop) : Prop where
  new : ∀ fd now, P { fd := fd, wantRead := true, lastActiveMs := now }
  touch : ∀ c now, P c → P { c with lastActiveMs := now }
  read : ∀ kv c nows read write kv' c' sent, KInv kv → c.Settled → c.wantRead = true → P c →
    handleRead (doRequest strtod) kv c nows read write = .ok (kv', c', sent) →
    c'.wantClose = false → P c'
  write : ∀ c write c' sent, c.Settled → c.wantWrite = true → P c →
    handleWrite c write = .ok (c', sent) → c'.wantClose = false → P c'

section

variable {P : Conn → Prop} {g g' : GData} {p : Ptr} {c : Conn} {ready : Revents} {io : Served}

theorem ConnRule.handleIo (hP : ConnRule strtod P) (hkv : KInv g.kv) (hp : g.conns p = some c)
    (hconn : c.Settled) (hready : ready.For c.asked) (hc : P c)
    (hrun : handleIo strtod g p ready io = .ok g') :
    ∃ c', g'.conns = g.conns.write p c' ∧ (c'.wantClose = false → P c') := by
  unfold Greenis.handleIo at hrun
  cases hin : ready.pollin with
  | true =>
    have hread : c.wantRead = true := hready.1 hin
    have hout : ready.pollout = false := by
      cases ho : ready.pollout with
      | false => rfl
      | true =>
        have hwrite : c.wantWrite = true := hready.2 ho
        rw [(hconn.reads hread).1] at hwrite
        cases hwrite
    rw [hin, hout, if_pos rfl, Store.load_of hp, ok_bind, check_of hread, ok_bind] at hrun
    obtain ⟨⟨kv, c', sent⟩, hhandle, hrun⟩ := bind_eq_ok.mp hrun
    cases hrun
    exact ⟨c', rfl, hP.read _ _ _ _ _ _ _ _ hkv hconn hread hc hhandle⟩
  | false =>
    rw [hin, if_neg Bool.false_ne_true, ok_bind] at hrun
    dsimp only at hrun
    split at hrun
    · next hout =>
      have hwrite : c.wantWrite = true := hready.2 hout
      rw [Store.load_of hp, ok_bind, check_of hwrite, ok_bind] at hrun
      obtain ⟨⟨c', sent⟩, hsend, hrun⟩ := bind_eq_ok.mp hrun
      cases hrun
      exact ⟨c', rfl, hP.write _ _ _ _ hconn hwrite hc hsend⟩
    · cases hrun
      refine ⟨c, ?_, fun _ => hc⟩
      rw [Store.write, ← hp, Function.update_eq_self]

/-- Serving a socket touches one connection. -/
theorem ConnRule.serveConn (hP : ConnRule strtod P) {ys : List Ptr} (h : Listed g ys)
    (hkv : KInv g.kv) (hp : g.conns p = some c) (hconn : c.Settled) (hready : ready.For c.asked)
    (hall : ∀ q d, g.conns q = some d → P d)
    (hrun : serveConn strtod g c.fd ready io = .ok g') {q : Ptr} {d : Conn}
    (hq : g'.conns q = some d) : P d := by
  unfold Greenis.serveConn at hrun
  split at hrun
  · cases hrun
    exact hall q d hq
  · have hentry : index g.fd2conn c.fd = .ok (some p) :=
      index_of_getElem? ((h.entry c.fd p).mpr ⟨c, hp, rfl⟩)
    rw [hentry, ok_bind, deref_some, ok_bind, Store.modify_of hp, ok_bind] at hrun
    obtain ⟨detached, -, hrun⟩ := bind_eq_ok.mp hrun
    obtain ⟨idle, -, hrun⟩ := bind_eq_ok.mp hrun
    obtain ⟨g1, hio, hrun⟩ := bind_eq_ok.mp hrun
    obtain ⟨c', hconns, hc'⟩ := hP.handleIo
      (g := { g with conns := g.conns.write p { c with lastActiveMs := io.now }, idle := idle })
      hkv (Store.write_same _ _ _) ⟨hconn.flags, hconn.waits, hconn.stays⟩ hready
      (hP.touch c io.now (hall p c hp)) hio
    have hconns : g1.conns = g.conns.write p c' := hconns.trans (Function.update_idem _ _ _)
    rw [hconns, Store.load_of (Store.write_same _ _ _), ok_bind] at hrun
    split at hrun
    · have hgone := (connDestroy_conns hrun).1
      rw [hgone, hconns] at hq
      by_cases hqp : q = p
      · rw [hqp, Function.update_self] at hq
        cases hq
      · rw [Function.update_of_ne hqp, Store.write_other _ _ hqp] at hq
        exact hall q d hq
    · next hkeep =>
      cases hrun
      rw [Bool.or_eq_true, not_or] at hkeep
      rw [hconns] at hq
      by_cases hqp : q = p
      · rw [hqp, Store.write_same] at hq
        cases hq
        exact hc' (by simpa using hkeep.2)
      · rw [Store.write_other _ _ hqp] at hq
        exact hall q d hq

end

theorem ConnRule.step {P : Conn → Prop} (hP : ConnRule strtod P) {s s' : LoopState} {e : LoopEvent}
    {ys : List Ptr} (h : Steady s.data ys) (hrest : Unserved s.data s.phase.rest)
    (hstep : LoopStep strtod s e s') (hall : ∀ p c, s.data.conns p = some c → P c) :
    ∀ p c, s'.data.conns p = some c → P c := by
  intro q d hq
  cases hstep with
  | interrupted => exact hall q d hq
  | polled => exact hall q d hq
  | @accepted g g' now accept rest hnew hrun =>
    cases accept with
    | none =>
      cases hrun
      exact hall q d hq
    | some fd =>
      obtain ⟨g1, hrun1, -, hconns, -⟩ := handleAccept_spec h.listed (hnew fd rfl) now
      obtain rfl := ok_unique hrun1 hrun
      dsimp only at hq
      rw [hconns] at hq
      by_cases hqb : q = g.brk
      · rw [hqb, Store.write_same] at hq
        cases hq
        exact hP.new fd now
      · rw [Store.write_other _ _ hqb] at hq
        exact hall q d hq
  | @served g g' fd ready rest io hrun =>
    obtain ⟨p, c, hp, hfd, hfor⟩ := hrest.conn (fd, ready) List.mem_cons_self
    obtain rfl : c.fd = fd := hfd
    exact hP.serveConn h.listed h.kv hp (h.settled p c hp) hfor hall hrun hq
  | @timers g g' now hrun =>
    obtain ⟨g1, hrun1, hlisted, -, hconns⟩ := processTimers_spec h.listed h.kv now
    obtain rfl := ok_unique hrun1 hrun
    have hmem := (hlisted.conn q).mpr ⟨d, hq⟩
    exact hall q d ((hconns q hmem).symm.trans hq)
  | work => exact hall q d hq

theorem run_conns {P : Conn → Prop} (hP : ConnRule strtod P) {es : List LoopEvent} {s : LoopState}
    (hrun : Run (LoopStep strtod) {} es s) {p : Ptr} {c : Conn} (hp : s.data.conns p = some c) :
    P c ∧ c.Settled := by
  obtain ⟨ys, h, -, hall⟩ := Run.invariant
    (I := fun s : LoopState => ∃ ys, Steady s.data ys ∧ Unserved s.data s.phase.rest ∧
      ∀ p c, s.data.conns p = some c → P c) (P := fun _ => True)
    (fun s e s' ⟨ys, h, hrest, hall⟩ _ hstep => by
      obtain ⟨ys', h', hrest', -⟩ := hstep.keeps h hrest
      exact ⟨ys', h', hrest', hP.step h hrest hstep hall⟩)
    ⟨[], Steady.empty, .nil _, fun _ _ hp => by cases hp⟩ hrun fun _ _ => trivial
  exact ⟨hall p c hp, h.settled p c hp⟩

/-! ## The buffers -/

theorem StartsWith.eight_le {b rest : Bytes} {cmd : List Bytes} (h : StartsWith b cmd rest) :
    8 + rest.length ≤ b.length := by
  obtain ⟨body, rfl, -, hreq⟩ := h
  rw [List.length_append, length_frame, hreq.bytes, length_encodeCmd]
  omega

/-- A request is a header and a number of arguments at least. -/
theorem Frames.eight_le {b rest : Bytes} {cmds : List (List Bytes)} (h : Frames b cmds rest) :
    8 * cmds.length + rest.length ≤ b.length := by
  induction h with
  | nil b => exact Nat.le_of_eq (by simp)
  | cons hstarts _ ih =>
    have := hstarts.eight_le
    rw [List.length_cons]
    omega

theorem length_responses_le (calls : List (List Bytes × Bytes)) :
    (responses calls).length ≤ calls.length * (4 + kMaxMsg) := by
  induction calls with
  | nil => exact Nat.le_refl _
  | cons c calls ih =>
    have hone := capped_length_le c.2
    unfold responses at ih ⊢
    rw [List.flatMap_cons, List.length_append, length_frame, List.length_cons, Nat.succ_mul]
    omega

theorem Unfinished.length_lt {b : Bytes} (h : Unfinished b) : b.length < 4 + kMaxMsg := by
  rcases h with h | ⟨hmax, hlen⟩
  · exact Nat.lt_of_lt_of_le h (Nat.le_add_right _ _)
  · omega

/-- The requests that fit into what is read at once and what has been left before. -/
def maxRequests : Nat := (3 + kMaxMsg + readBufSize) / 8

/-- What is left unparsed is the beginning of one request, and the responses are those to the
    requests of one `read`. -/
structure Conn.Bounded (conn : Conn) : Prop where
  incoming : Unfinished conn.incoming
  outgoing : conn.outgoing.length ≤ maxRequests * (4 + kMaxMsg)

section

variable {σ : Type} {app : σ → UInt64 → List Bytes → Buffer → Exec (σ × Buffer)} {s s' : σ}
  {conn conn' : Conn}

/-- One `read` brings a limited number of requests. -/
theorem Drained.bounded {bs : Bytes}
    (h : Drained app s { conn with incoming := conn.incoming ++ bs.take readBufSize }
      (.ok (s', conn'))) (hopen : conn.wantClose = false) (hout : conn.outgoing = [])
    (hun : Unfinished conn.incoming) :
    (conn'.wantClose = false → Unfinished conn'.incoming) ∧
      conn'.outgoing.length ≤ maxRequests * (4 + kMaxMsg) := by
  obtain ⟨calls, -, hframes, hrests, heq⟩ := h.calls hopen
  refine ⟨fun hopen' => ?_, ?_⟩
  · rcases hrests with ⟨-, hun'⟩ | ⟨hclose, -⟩
    · exact hun'
    · rw [hopen'] at hclose
      cases hclose
  · have hfit := hframes.eight_le
    have hlt := hun.length_lt
    have hread := List.length_take_le readBufSize bs
    dsimp only at hfit
    rw [List.length_append, List.length_map] at hfit
    have hcalls : calls.length ≤ maxRequests := by
      unfold maxRequests
      rw [Nat.le_div_iff_mul_le (by decide)]
      omega
    rw [heq]
    dsimp only
    rw [hout, List.nil_append]
    exact (length_responses_le calls).trans (Nat.mul_le_mul_right _ hcalls)

theorem Written.bounded {write : WriteResult} {sent : Bytes} (h : Written conn write (conn', sent))
    (hout : conn.outgoing.length ≤ maxRequests * (4 + kMaxMsg)) :
    conn'.incoming = conn.incoming ∧ conn'.outgoing.length ≤ maxRequests * (4 + kMaxMsg) ∧
      (conn'.wantClose = false → conn.wantClose = false) := by
  cases h with
  | again => exact ⟨rfl, hout, id⟩
  | error => exact ⟨rfl, hout, fun hopen => Bool.noConfusion hopen⟩
  | some heq _ =>
    rw [heq, List.length_append] at hout
    exact ⟨rfl, (Nat.le_add_left _ _).trans hout, id⟩
  | all => exact ⟨rfl, Nat.zero_le _, id⟩

theorem Handled.bounded {read : ReadResult} {write : WriteResult} {sent : Bytes}
    (h : Handled app s conn read write (.ok (s', conn', sent))) (hconn : conn.Settled)
    (hread : conn.wantRead = true) (hb : conn.Bounded) (hopen : conn'.wantClose = false) :
    conn'.Bounded := by
  have hout := (hconn.reads hread).2
  cases h with
  | again => exact hb
  | error => cases hopen
  | eof => cases hopen
  | quiet _ hloop hnil =>
    obtain ⟨hun, hle⟩ := hloop.bounded hconn.stays hout hb.incoming
    exact ⟨hun hopen, hle⟩
  | @answered _ _ _ _ conn1 _ _ hloop hne hwritten =>
    obtain ⟨hun, hle⟩ := hloop.bounded hconn.stays hout hb.incoming
    obtain ⟨hin, hle', hkept⟩ := hwritten.bounded hle
    refine ⟨?_, hle'⟩
    rw [hin]
    exact hun (hkept hopen)

end

theorem connRule_bounded (strtod : Strtod) : ConnRule strtod Conn.Bounded where
  new _ _ := ⟨Or.inl (Nat.zero_lt_succ 3), Nat.zero_le _⟩
  touch _ _ h := ⟨h.incoming, h.outgoing⟩
  read kv c nows read write kv' c' sent hkv hconn hread hc hrun hopen := by
    have hhandled := handleRead_spec (appends_doRequest strtod) hkv c nows read write
    rw [hrun] at hhandled
    exact hhandled.bounded hconn hread hc hopen
  write c write c' sent hconn hwrite hc hrun hopen := by
    obtain ⟨res, hrun', hwritten⟩ := handleWrite_spec c (hconn.waits.mp hwrite) write
    obtain rfl := ok_unique hrun' hrun
    obtain ⟨hin, hle, -⟩ := hwritten.bounded hc.outgoing
    exact ⟨hin ▸ hc.incoming, hle⟩

/-- **A client takes a limited amount of memory.** In every state that the server reaches, whatever
    its clients send and however slowly they read, a connection holds less than a request of
    unparsed input and at most the responses to one `read`; and while it has responses to write,
    nothing more is read from it. -/
theorem buffers_bounded {es : List LoopEvent} {s : LoopState}
    (hrun : Run (LoopStep strtod) {} es s) {p : Ptr} {c : Conn} (hp : s.data.conns p = some c) :
    c.incoming.length < 4100 ∧ c.outgoing.length ≤ 35686400 ∧
      (c.outgoing ≠ [] → c.wantRead = false) := by
  obtain ⟨hb, hconn⟩ := run_conns (connRule_bounded strtod) hrun hp
  refine ⟨hb.incoming.length_lt, hb.outgoing, fun hne => ?_⟩
  rw [hconn.flags, hconn.waits.mpr hne, Bool.not_true]

/-- A client has sent `keys` and six bytes of another request. Six bytes of the reply are still to
    be written. -/
theorem exists_pending_run : ∃ (es : List LoopEvent) (s : LoopState) (c : Conn),
    Run (LoopStep fun _ => (⟨0⟩, 0)) {} es s ∧ s.data.conns 1 = some c ∧
      c.incoming = (frame (encodeCmd [ascii "keys"])).take 6 ∧ c.outgoing.length = 6 := by
  have hserved := (run_readable fun _ => (⟨0⟩, 0)).snoc (l := .served ⟨0, fun _ => 0,
    .data (frame (encodeCmd [ascii "keys"]) ++ (frame (encodeCmd [ascii "keys"])).take 6),
    .count 3, .again⟩)
    (.mk (.mk (.served rfl) (.still 0)))
  exact ⟨_, _, _, run_loop hserved, rfl, rfl, rfl⟩

theorem buffers_bounded_pending : ∃ (es : List LoopEvent) (s : LoopState) (c : Conn),
    Run (LoopStep fun _ => (⟨0⟩, 0)) {} es s ∧ s.data.conns 1 = some c ∧
      (c.incoming = (frame (encodeCmd [ascii "keys"])).take 6 ∧ c.incoming.length < 4100) ∧
      (c.outgoing.length = 6 ∧ c.outgoing.length ≤ 35686400) ∧ c.wantRead = false := by
  obtain ⟨es, s, c, hrun, hc, hin, hout⟩ := exists_pending_run
  obtain ⟨hin', hout', hread⟩ := buffers_bounded hrun hc
  exact ⟨es, s, c, hrun, hc, ⟨hin, hin'⟩, ⟨hout, hout'⟩,
    hread (List.ne_nil_of_length_pos (hout ▸ by decide))⟩

end Greenis
