/-
  How a connection ends.

  A connection is closed for one of these reasons: it has been idle for too long, `poll`, `read` or
  `write` has failed, what it has sent is no request, or the client has closed its side. Replies can
  be lost for the first ones only: while there is something to write, nothing is read, so the end of
  what a client sends is not seen before its last reply has been written (`replies_delivered`).
-/
import Mathlib.Data.List.TakeWhile
import Greenis.Proofs.Histories

namespace Greenis
open CExec LTS

variable {strtod : Strtod}

/-! ## Handlers -/

section

variable {σ : Type} {app : σ → UInt64 → List Bytes → Buffer → Exec (σ × Buffer)} {s s' : σ}
  {conn conn' : Conn} {read : ReadResult} {write : WriteResult} {sent : Bytes}

theorem Written.closes (h : Written conn write (conn', sent)) (hclose : conn'.wantClose = true) :
    write = .error ∨ conn.wantClose = true := by
  cases h with
  | again => exact Or.inr hclose
  | error => exact Or.inl rfl
  | some => exact Or.inr hclose
  | all => exact Or.inr hclose

/-- What is left of the bytes of a connection is no request. -/
def Spoilt (conn : Conn) (read : ReadResult) : Prop :=
  ∃ cmds rest, Frames (conn.incoming ++ read.bytes.take readBufSize) cmds rest ∧ Invalid rest

theorem Drained.spoilt {bs : Bytes}
    (h : Drained app s { conn with incoming := conn.incoming ++ bs.take readBufSize }
      (.ok (s', conn'))) (hopen : conn.wantClose = false) (hclose : conn'.wantClose = true) :
    Spoilt conn (.data bs) := by
  obtain ⟨calls, -, hframes, hrests, -⟩ := h.calls hopen
  rcases hrests with ⟨hstays, -⟩ | ⟨-, hinvalid⟩
  · rw [hclose] at hstays
    cases hstays
  · exact ⟨_, _, hframes, hinvalid⟩

/-- Why `handle_read` wants to close the connection. -/
theorem Handled.closes (h : Handled app s conn read write (.ok (s', conn', sent)))
    (hopen : conn.wantClose = false) (hclose : conn'.wantClose = true) :
    read = .error ∨ read = .data [] ∨ write = .error ∨ Spoilt conn read := by
  cases h with
  | again =>
    rw [hopen] at hclose
    cases hclose
  | error => exact Or.inl rfl
  | eof => exact Or.inr (Or.inl rfl)
  | quiet _ hloop _ => exact Or.inr (Or.inr (Or.inr (hloop.spoilt hopen hclose)))
  | answered _ hloop _ hwritten =>
    rcases hwritten.closes hclose with hfail | hclose
    · exact Or.inr (Or.inr (Or.inl hfail))
    · exact Or.inr (Or.inr (Or.inr (hloop.spoilt hopen hclose)))

end

/-! ## Sockets -/

/-- What goes wrong with a connection while its socket is served. -/
inductive Fails (c : Conn) (ready : Revents) (io : Served) : Prop
  | polled : ready.pollerr = true → Fails c ready io
  | read : ready.pollin = true → io.read = .error → Fails c ready io
  | reply : ready.pollin = true → io.firstWrite = .error → Fails c ready io
  | write : ready.pollout = true → io.write = .error → Fails c ready io
  | spoilt : ready.pollin = true → Spoilt c io.read → Fails c ready io

section

variable {g g' : GData} {p : Ptr} {c : Conn} {ready : Revents} {io : Served}

/-- A connection that is to be closed has failed, or the client has, with nothing left to write. -/
theorem handleIo_closes (hkv : KInv g.kv) (hp : g.conns p = some c) (hconn : c.Settled)
    (hready : ready.For c.asked) (hrun : handleIo strtod g p ready io = .ok g') :
    ∃ c', g'.conns = g.conns.write p c' ∧
      (c'.wantClose = true → Fails c ready io ∨ io.read = .data [] ∧ c.outgoing = []) := by
  unfold handleIo at hrun
  cases hin : ready.pollin with
  | true =>
    have hread : c.wantRead = true := hready.1 hin
    obtain ⟨hwrite, hout⟩ := hconn.reads hread
    have hnone : ready.pollout = false := by
      by_contra hne
      have hasked : c.wantWrite = true := hready.2 (Bool.eq_true_of_not_eq_false hne)
      rw [hwrite] at hasked
      cases hasked
    rw [hin, hnone, if_pos rfl, Store.load_of hp, ok_bind, check_of hread, ok_bind] at hrun
    obtain ⟨⟨kv, c', sent⟩, hhandle, hrun⟩ := bind_eq_ok.mp hrun
    cases hrun
    have hhandled := handleRead_spec (appends_doRequest strtod) hkv c io.nows io.read io.firstWrite
    rw [hhandle] at hhandled
    refine ⟨c', rfl, fun hclose => ?_⟩
    rcases hhandled.closes hconn.stays hclose with hfail | heof | hfail | hspoilt
    · exact Or.inl (.read hin hfail)
    · exact Or.inr ⟨heof, hout⟩
    · exact Or.inl (.reply hin hfail)
    · exact Or.inl (.spoilt hin hspoilt)
  | false =>
    rw [hin, if_neg Bool.false_ne_true, ok_bind] at hrun
    dsimp only at hrun
    split at hrun
    · next hasked =>
      have hwrite : c.wantWrite = true := hready.2 hasked
      obtain ⟨⟨c', sent⟩, hrun', hwritten⟩ := handleWrite_spec c (hconn.waits.mp hwrite) io.write
      rw [Store.load_of hp, ok_bind, check_of hwrite, ok_bind, hrun', ok_bind] at hrun
      cases hrun
      refine ⟨c', rfl, fun hclose => ?_⟩
      rcases hwritten.closes hclose with hfail | hclose
      · exact Or.inl (.write hasked hfail)
      · rw [hconn.stays] at hclose
        cases hclose
    · cases hrun
      refine ⟨c, ?_, fun hclose => ?_⟩
      · rw [Store.write, ← hp, Function.update_eq_self]
      · rw [hconn.stays] at hclose
        cases hclose

theorem serveConn_closes {ys : List Ptr} (h : Listed g ys) (hkv : KInv g.kv)
    (hp : g.conns p = some c) (hconn : c.Settled) (hready : ready.For c.asked)
    (hrun : serveConn strtod g c.fd ready io = .ok g') (hclosed : g'.conns p = none) :
    Fails c ready io ∨ io.read = .data [] ∧ c.outgoing = [] := by
  unfold serveConn at hrun
  split at hrun
  · cases hrun
    rw [hp] at hclosed
    cases hclosed
  · have hentry : index g.fd2conn c.fd = .ok (some p) :=
      index_of_getElem? ((h.entry c.fd p).mpr ⟨c, hp, rfl⟩)
    rw [hentry, ok_bind, deref_some, ok_bind, Store.modify_of hp, ok_bind] at hrun
    obtain ⟨detached, -, hrun⟩ := bind_eq_ok.mp hrun
    obtain ⟨idle, -, hrun⟩ := bind_eq_ok.mp hrun
    obtain ⟨g1, hio, hrun⟩ := bind_eq_ok.mp hrun
    obtain ⟨c', hconns, hcloses⟩ := handleIo_closes
      (g := { g with conns := g.conns.write p { c with lastActiveMs := io.now }, idle := idle })
      hkv (Store.write_same _ _ _) ⟨hconn.flags, hconn.waits, hconn.stays⟩ hready hio
    have hconns : g1.conns = g.conns.write p c' := hconns.trans (Function.update_idem _ _ _)
    rw [hconns, Store.load_of (Store.write_same _ _ _), ok_bind] at hrun
    split at hrun
    · next hclose =>
      rcases Bool.or_eq_true_iff.mp hclose with herr | hclose
      · exact Or.inl (.polled herr)
      · rcases hcloses hclose with hfails | heof
        · refine Or.inl ?_
          cases hfails with
          | polled herr => exact .polled herr
          | read hin hfail => exact .read hin hfail
          | reply hin hfail => exact .reply hin hfail
          | write hout hfail => exact .write hout hfail
          | spoilt hin hspoilt => exact .spoilt hin hspoilt
        · exact Or.inr heof
    · cases hrun
      rw [hconns, Store.write_same] at hclosed
      cases hclosed

end

/-- Where nothing comes in and nothing is left to write, nothing happens. -/
theorem Exchanged.silent {k : KState} {conn conn' : Conn} {x : Exchange} {g : KData}
    {clock : UInt64} (h : Exchanged strtod k conn x g conn' clock) (hin : x.received = [])
    (hun : Unfinished conn.incoming) (hout : conn.outgoing = []) : x.calls = [] ∧ x.sent = [] := by
  have hcalls : x.calls = [] := by
    have hframes := h.frames
    rw [hin, List.append_nil] at hframes
    generalize hcmds : x.calls.map Call.cmd = cmds at hframes
    generalize conn'.incoming = rest at hframes
    cases hframes with
    | nil => exact List.map_eq_nil_iff.mp hcmds
    | cons hstarts _ => exact absurd hun hstarts.not_other.1
  have hsent := h.sent
  rw [hcalls, hout] at hsent
  exact ⟨hcalls, (List.append_eq_nil_iff.mp hsent.symm).1⟩

/-- What a connection receives is what `read` returns. -/
theorem serves_received {s : LoopState} {io : Served} {p : Ptr} {x : Exchange}
    (h : s.serves strtod io = some (p, x)) (hread : io.read.bytes = []) : x.received = [] := by
  have hio : ∀ g g' conn ready, handleIoRecorded strtod g conn ready io = .ok (g', x) →
      x.received = [] := by
    intro g g' conn ready hrun
    obtain ⟨⟨g1, x1⟩, hfirst, hrun⟩ := bind_eq_ok.mp hrun
    have hx1 : x1.received = [] := by
      split at hfirst
      · obtain ⟨c, -, hfirst⟩ := bind_eq_ok.mp hfirst
        obtain ⟨u, -, hfirst⟩ := bind_eq_ok.mp hfirst
        obtain ⟨res, -, hfirst⟩ := bind_eq_ok.mp hfirst
        cases hfirst
        rw [hread]
        rfl
      · cases hfirst
        rfl
    dsimp only at hrun
    split at hrun
    · obtain ⟨c, -, hrun⟩ := bind_eq_ok.mp hrun
      obtain ⟨u, -, hrun⟩ := bind_eq_ok.mp hrun
      obtain ⟨res, -, hrun⟩ := bind_eq_ok.mp hrun
      cases hrun
      exact hx1
    · cases hrun
      exact hx1
  unfold LoopState.serves at h
  split at h
  · split at h
    · next hrun =>
      subst h
      unfold serveConnRecorded at hrun
      split at hrun
      · cases hrun
      · obtain ⟨entry, -, hrun⟩ := bind_eq_ok.mp hrun
        obtain ⟨conn, -, hrun⟩ := bind_eq_ok.mp hrun
        obtain ⟨conns, -, hrun⟩ := bind_eq_ok.mp hrun
        obtain ⟨detached, -, hrun⟩ := bind_eq_ok.mp hrun
        obtain ⟨idle, -, hrun⟩ := bind_eq_ok.mp hrun
        obtain ⟨⟨g1, x1⟩, hhandled, hrun⟩ := bind_eq_ok.mp hrun
        obtain ⟨c, -, hrun⟩ := bind_eq_ok.mp hrun
        obtain ⟨g2, -, hrun⟩ := bind_eq_ok.mp hrun
        cases hrun
        exact hio _ _ _ _ hhandled
    · cases h
  · cases h

/-! ## Steps -/

/-- Why a connection is closed before its replies have been written. -/
inductive Broken (s : LoopState) (c : Conn) : LoopEvent → Prop
  | idle {now : UInt64} : c.lastActiveMs + kIdleTimeoutMs < now → Broken s c (.timers now)
  | failed {ready : Revents} {rest : List (Nat × Revents)} {io : Served} :
      s.phase = .serve ((c.fd, ready) :: rest) → Fails c ready io → Broken s c (.served io)

variable {t t' : TracedState} {e : LoopEvent} {p : Ptr} {c : Conn}

/-- A socket is served, and the connection at `p` is closed by it. -/
theorem serveConn_closed {s s' : TimedState} {h : History} {io : Served}
    (hr : Recorded strtod ⟨s, h⟩) (hstep : TimedStep strtod s (.served io) s')
    (hp : s.loop.data.conns p = some c) (hclosed : s'.loop.data.conns p = none) :
    ∃ ready rest, s.loop.phase = .serve ((c.fd, ready) :: rest) ∧
      (Fails c ready io ∨ io.read = .data [] ∧ c.outgoing = []) := by
  obtain ⟨ys, hsteady, hunserved⟩ := hr.steady
  obtain ⟨hloop, -⟩ := hstep
  cases hloop with
  | @served g g' fd ready rest io hrun =>
    obtain ⟨q, d, hq, hfd, hfor⟩ := hunserved.conn (fd, ready) List.mem_cons_self
    obtain rfl : d.fd = fd := hfd
    have hconn := hsteady.settled q d hq
    -- The connection that is closed is the one whose socket is served.
    obtain rfl : p = q := by
      rcases serveConn_spec strtod hsteady.listed hsteady.kv hq hconn hfor io with
        hfail | ⟨g1, ys', hrun1, hserved⟩
      · rw [hfail] at hrun
        cases hrun
      · obtain rfl := ok_unique hrun1 hrun
        by_contra hpq
        have hsame : g1.conns p = g.conns p := by
          cases hserved with
          | idle => rfl
          | closed _ _ hconns _ => rw [hconns, Function.update_of_ne hpq]
          | moved _ _ _ hconns _ _ _ _ => rw [hconns, Store.write_other _ _ hpq]
        have hopen := hsame.symm.trans hclosed
        rw [hp] at hopen
        cases hopen
    obtain rfl := Option.some.inj (hq.symm.trans hp)
    exact ⟨ready, rest, rfl,
      serveConn_closes hsteady.listed hsteady.kv hq hconn hfor hrun hclosed⟩

/-- At the end of what a client sends, all of its replies have been written. -/
theorem serveConn_eof {s s' : TimedState} {h : History} {io : Served}
    (hr : Recorded strtod ⟨s, h⟩) (hstep : TimedStep strtod s (.served io) s')
    (hp : s.loop.data.conns p = some c) (hclosed : s'.loop.data.conns p = none)
    (hread : io.read = .data []) (hout : c.outgoing = []) :
    (h.after strtod s.loop (.served io)).written p =
      replies ((h.after strtod s.loop (.served io)).calls p) := by
  obtain ⟨hun, hsent⟩ : Unfinished c.incoming ∧ h.written p = replies (h.calls p) := by
    have hown : Accounts h p (some c) := hp ▸ hr.conn p
    cases hown with
    | opened _ hun hsent =>
      rw [hout, List.append_nil] at hsent
      exact ⟨hun, hsent⟩
  obtain ⟨k, -, hk⟩ := hr.run
  rcases hr.serves hstep with ⟨hserves, -⟩ | ⟨q, x, hserves, hexchanged⟩
  · rw [History.after, hserves]
    exact hsent
  · obtain ⟨d, d', hq, hx, -, hconns⟩ := hexchanged k hk
    obtain rfl : p = q := by
      by_contra hpq
      have hsame : s'.loop.data.conns p = s.loop.data.conns p := by
        rcases hconns with hconns | ⟨-, hconns⟩
        · rw [hconns, Function.update_of_ne hpq]
        · rw [hconns, Store.write_other _ _ hpq]
      have hopen := hsame.symm.trans hclosed
      rw [hp] at hopen
      cases hopen
    obtain rfl := Option.some.inj (hq.symm.trans hp)
    obtain ⟨hcalls, hnone⟩ := hx.silent (serves_received hserves (by rw [hread]; rfl)) hun hout
    rw [History.after, hserves]
    show (h.add p x).written p = replies ((h.add p x).calls p)
    rw [calls_add_same, hcalls, List.append_nil, ← hsent, History.add, hnone]
    dsimp only
    rw [Function.update_self, List.append_nil]

/-- A step that closes a connection. -/
theorem TracedStep.closes (hr : Recorded strtod t) (hstep : TracedStep strtod t e t')
    (hp : t.server.loop.data.conns p = some c) (hclosed : t'.server.loop.data.conns p = none) :
    Broken t.server.loop c e ∨ t'.history.written p = replies (t'.history.calls p) := by
  obtain ⟨ys, hsteady, hrest⟩ := hr.steady
  obtain ⟨htimed⟩ := hstep
  rcases htimed with @⟨s, s', clock, clock', e, hloop, hticks⟩
  obtain ⟨ys', -, -, hrelisted⟩ := hloop.keeps hsteady hrest
  have hkept : s'.data.conns ≠ s.data.conns := fun hsame => by
    have hopen := (congrFun hsame p).symm.trans hclosed
    rw [show s.data.conns p = some c from hp] at hopen
    cases hopen
  cases e with
  | interrupted => cases hloop; exact absurd rfl hkept
  | polled => cases hloop; exact absurd rfl hkept
  | work => cases hloop; exact absurd rfl hkept
  | accepted now accept =>
    cases hrelisted with
    | same hsame => exact absurd hsame hkept
    | accepted hwrite =>
      have hopen := (congrFun hwrite p).symm.trans hclosed
      rw [Store.write_apply] at hopen
      split at hopen
      · cases hopen
      · rw [show s.data.conns p = some c from hp] at hopen
        cases hopen
  | timers now =>
    cases hrelisted with
    | same hsame => exact absurd hsame hkept
    | timers hsame =>
      refine Or.inl (.idle ((expired_iff hp now).mp ?_))
      have hmem := (hsteady.listed.conn p).mpr ⟨c, hp⟩
      rw [← List.takeWhile_append_dropWhile (p := s.data.expired now) (l := ys)] at hmem
      rcases List.mem_append.mp hmem with hgone | hleft
      · exact List.mem_takeWhile_imp hgone
      · have hopen := (hsame p hleft).symm.trans hclosed
        rw [show s.data.conns p = some c from hp] at hopen
        cases hopen
  | served io =>
    have hstep : TimedStep strtod ⟨s, clock⟩ (.served io) ⟨s', clock'⟩ := ⟨hloop, hticks⟩
    obtain ⟨ready, rest, hphase, hfails | ⟨hread, hout⟩⟩ := serveConn_closed hr hstep hp hclosed
    · exact Or.inl (.failed hphase hfails)
    · exact Or.inr (serveConn_eof hr hstep hp hclosed hread hout)

end Greenis
