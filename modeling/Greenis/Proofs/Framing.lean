/-
  The byte streams of a connection.

  The client's frames are accepted by the server, and the server's parser accepts nothing else
  (`request_codec_exact`). However the bytes of a connection arrive and leave, the commands that
  are served are the valid frames at the front of the received bytes, and the written bytes are
  the beginning of their responses (`framing_independent`).
-/
import Greenis.Lib.Trace
import Greenis.Proofs.Conn
import Greenis.Proofs.Request

namespace Greenis
open CExec LTS LittleEndian

/-! ## One request -/

/-- A command that fits into a frame is a request. -/
theorem isRequest_encodeCmd {cmd : List Bytes} (h : (encodeCmd cmd).length ≤ kMaxMsg) :
    IsRequest (encodeCmd cmd) cmd := by
  have hmax : kMaxMsg = 4096 := rfl
  have hargs : kMaxArgs = 200 * 1000 := rfl
  have hlen : (encodeCmd cmd).length = 4 + (cmd.flatMap encodeStr).length := by simp [encodeCmd]
  have hstrs : ∀ strs : List Bytes, 4 * strs.length ≤ (strs.flatMap encodeStr).length ∧
      ∀ s ∈ strs, s.length ≤ (strs.flatMap encodeStr).length := by
    intro strs
    induction strs with
    | nil => simp
    | cons s strs ih =>
      simp only [List.flatMap_cons, List.length_append, length_encodeStr, List.length_cons]
      refine ⟨by omega, ?_⟩
      rintro x (_ | ⟨_, hx⟩)
      · omega
      · have := ih.2 x hx
        omega
  refine ⟨rfl, ?_, fun s hs => ?_⟩
  · have := (hstrs cmd).1
    omega
  · have := (hstrs cmd).2 s hs
    omega

/-- A frame that has not come in whole. -/
theorem unfinished_of_frame {body b more : Bytes} (hlen : body.length ≤ kMaxMsg)
    (h : b ++ more = frame body) (hmore : more ≠ []) : Unfinished b := by
  have hpos := List.length_pos_iff.mpr hmore
  have htotal : b.length + more.length = 4 + body.length := by
    rw [← List.length_append, h, length_frame]
  by_cases hshort : b.length < 4
  · exact Or.inl hshort
  · have hhead : headerOf b = body.length := by
      have := headerOf_frame hlen []
      rwa [List.append_nil, ← h, headerOf, List.take_append_of_le_length (by omega)] at this
    exact Or.inr (by omega)

theorem request_codec_exact :
    (∀ (write : Nat → Nat → Int) (wbuf : Buffer) (cmd : List Bytes),
      (∀ i n, 0 < n → 0 < write i n ∧ write i n ≤ n) → wbuf.length = 4 + kMaxMsg →
      4 + (cmd.map fun s => 4 + s.length).sum ≤ kMaxMsg →
      sendReq write wbuf cmd = .ok (0, frame (encodeCmd cmd)) ∧
      parseReq (encodeCmd cmd) = .ok (some cmd) ∧
      ∀ (σ : Type) (app : σ → UInt64 → List Bytes → Buffer → Exec (σ × Buffer)) (s : σ)
        (now : UInt64) (conn : Conn) (more : Bytes),
        (conn.incoming = frame (encodeCmd cmd) ++ more →
          tryOneRequest app s now conn = (do
            let (s', outgoing) ← within (app s now cmd (conn.outgoing ++ bytesOf 4 0))
            let outgoing ← responseEnd outgoing conn.outgoing.length
            .ok (true, s', { conn with incoming := more, outgoing := outgoing }))) ∧
        (conn.incoming ++ more = frame (encodeCmd cmd) → more ≠ [] →
          tryOneRequest app s now conn = .ok (false, s, conn))) ∧
    ∀ data, ∃ r, parseReq data = .ok r ∧ ∀ cmd, r = some cmd ↔
      data = encodeCmd cmd ∧ cmd.length ≤ kMaxArgs ∧ ∀ s ∈ cmd, s.length < 2 ^ 32 := by
  refine ⟨fun write wbuf cmd hw hbuf hlen => ?_, fun data => ?_⟩
  · rw [← length_encodeCmd] at hlen
    have hreq := isRequest_encodeCmd hlen
    refine ⟨sendReq_spec hw hbuf hlen, parseReq_iff.mpr hreq, ?_⟩
    intro σ app s now conn more
    refine ⟨fun hin => ?_, fun hin hmore => ?_⟩
    · exact tryOneRequest_startsWith ⟨_, hin, hlen, hreq⟩
    · exact tryOneRequest_unfinished (unfinished_of_frame hlen hin hmore)
  · obtain ⟨r, hrun, hr⟩ := parseReq_spec data
    refine ⟨r, hrun, fun cmd => (hr cmd).trans ⟨?_, ?_⟩⟩
    · exact fun h => ⟨h.bytes, h.args, h.short⟩
    · exact fun ⟨hbytes, hargs, hshort⟩ => ⟨hbytes, hargs, hshort⟩

/-- Even if each `write` takes one byte only, `get k` arrives whole. -/
theorem request_codec_exact_get :
    sendReq (fun _ _ => 1) (List.replicate 4100 0) [ascii "get", ascii "k"] =
      .ok (0, frame (encodeCmd [ascii "get", ascii "k"])) :=
  (request_codec_exact.1 (fun _ _ => 1) (List.replicate 4100 0) [ascii "get", ascii "k"]
    (fun _ n hn => ⟨by decide, Int.ofNat_le.mpr hn⟩) List.length_replicate (by decide)).1

/-! ## Sessions -/

/-- `app` with a log of its calls: each command, and the body of the reply. -/
def logged {σ : Type} (app : σ → UInt64 → List Bytes → Buffer → Exec (σ × Buffer)) :
    σ × List (List Bytes × Bytes) → UInt64 → List Bytes → Buffer →
      Exec ((σ × List (List Bytes × Bytes)) × Buffer) :=
  fun s now cmd out => do
    let (s', out') ← app s.1 now cmd out
    .ok ((s', s.2 ++ [(cmd, out'.drop out.length)]), out')

/-- One connection, with what it has received and written, and the requests it has made. -/
structure Session where
  data : KData
  log : List (List Bytes × Bytes) := []
  conn : Conn
  received : Bytes := []
  written : Bytes := []

/-- What happens to a connection: it is readable or writable, or the keyspace is changed by others
    meanwhile. -/
inductive SessionEvent where
  | readable (nows : Nat → UInt64) (read : ReadResult) (write : WriteResult)
  | writable (write : WriteResult)
  | others (data : KData)

/-- The data `read` returns. -/
def ReadResult.bytes : ReadResult → Bytes
  | .data bs => bs
  | _ => []

def Session.next (strtod : Strtod) (s : Session) : SessionEvent → Exec Session
  | .readable nows read write => do
    let ((data, log), conn, sent) ←
      handleRead (logged (doRequest strtod)) (s.data, s.log) s.conn nows read write
    .ok { data, log, conn, received := s.received ++ read.bytes, written := s.written ++ sent }
  | .writable write => do
    let (conn, sent) ← handleWrite s.conn write
    .ok { s with conn := conn, written := s.written ++ sent }
  | .others data => .ok { s with data := data }

theorem Session.next_readable {strtod : Strtod} {s : Session} {nows : Nat → UInt64}
    {read : ReadResult} {write : WriteResult} {data : KData} {log : List (List Bytes × Bytes)}
    {conn : Conn} {sent : Bytes} (h : handleRead (logged (doRequest strtod)) (s.data, s.log) s.conn
      nows read write = .ok ((data, log), conn, sent)) :
    s.next strtod (.readable nows read write) =
      .ok { data, log, conn, received := s.received ++ read.bytes
            written := s.written ++ sent } := by
  dsimp only [Session.next]
  rw [h]
  rfl

theorem Session.next_writable {strtod : Strtod} {s : Session} {write : WriteResult} {conn : Conn}
    {sent : Bytes} (h : handleWrite s.conn write = .ok (conn, sent)) :
    s.next strtod (.writable write) =
      .ok { s with conn := conn, written := s.written ++ sent } := by
  dsimp only [Session.next]
  rw [h]
  rfl

/-- The events that can happen: the event loop serves the events a connection waits for until it
    is to be closed, `read` returns data or `EAGAIN`, and `write` fails with `EAGAIN` only. -/
def Session.Enabled (s : Session) : SessionEvent → Prop
  | .readable _ read write =>
    s.conn.wantRead = true ∧ s.conn.wantClose = false ∧ write ≠ .error ∧
      match read with
      | .again => True
      | .error => False
      | .data bs => bs ≠ [] ∧ bs.length ≤ readBufSize
  | .writable write => s.conn.wantWrite = true ∧ s.conn.wantClose = false ∧ write ≠ .error
  | .others data => KInv data

/-- An event that is served. -/
def Session.Step (strtod : Strtod) (s : Session) (e : SessionEvent) (s' : Session) : Prop :=
  s.Enabled e ∧ s.next strtod e = .ok s'

/-- A new connection. -/
def Session.start (data : KData) (fd : Nat) (now : UInt64) : Session :=
  { data, conn := { fd := fd, wantRead := true, lastActiveMs := now } }

theorem appends_doRequest (strtod : Strtod) : Appends (doRequest strtod) KInv := by
  intro g now cmd out g' out' hg hrun
  obtain ⟨a, ha⟩ := exists_refines hg
  have hans := (doRequest_spec strtod ha now cmd out).answered _ hrun
  obtain ⟨r, hout, -⟩ := hans.reply
  exact ⟨hans.inv, _, hout⟩

section Logged

variable {σ : Type} {app : σ → UInt64 → List Bytes → Buffer → Exec (σ × Buffer)}

theorem Appends.logged {I : σ → Prop} (h : Appends app I) :
    Appends (Greenis.logged app) fun s => I s.1 := by
  intro s now cmd out s' out' hs hrun
  obtain ⟨⟨s1, out1⟩, happ, hres⟩ := bind_eq_ok.mp hrun
  cases hres
  exact h _ _ _ _ _ _ hs happ

/-- The log grows by the calls. -/
theorem Calls.log {s s' : σ × List (List Bytes × Bytes)} {calls : List (List Bytes × Bytes)}
    (h : Calls (Greenis.logged app) s calls s') : s'.2 = s.2 ++ calls := by
  induction h with
  | nil => rw [List.append_nil]
  | cons hrun _ ih =>
    obtain ⟨⟨s1, out1⟩, happ, hres⟩ := bind_eq_ok.mp hrun
    simp only [Except.ok.injEq, Prod.mk.injEq] at hres
    obtain ⟨rfl, rfl⟩ := hres
    rw [ih, List.drop_left, List.append_assoc]
    rfl

end Logged

theorem responses_append (calls calls' : List (List Bytes × Bytes)) :
    responses (calls ++ calls') = responses calls ++ responses calls' := List.flatMap_append

/-- What holds of a session between events. -/
structure Session.Inv (s : Session) : Prop where
  data : KInv s.data
  frames : Frames s.received (s.log.map Prod.fst) s.conn.incoming
  sent : s.written ++ s.conn.outgoing = responses s.log
  waits : s.conn.wantWrite = true ↔ s.conn.outgoing ≠ []
  rests : s.conn.Rests

theorem Session.Inv.start {g : KData} (hg : KInv g) (fd : Nat) (now : UInt64) :
    (Session.start g fd now).Inv :=
  ⟨hg, .nil _, rfl, by simp [Session.start], Or.inl ⟨rfl, Or.inl (by simp [Session.start])⟩⟩

/-- New data is parsed behind what is left of the old data. -/
theorem Session.Inv.drained {s : Session} (h : s.Inv) {strtod : Strtod} {bs : Bytes}
    {data : KData} {log : List (List Bytes × Bytes)} {conn : Conn}
    (hopen : s.conn.wantClose = false) (hloop : Drained (logged (doRequest strtod))
      (s.data, s.log) { s.conn with incoming := s.conn.incoming ++ bs } (.ok ((data, log), conn))) :
    KInv data ∧ Frames (s.received ++ bs) (log.map Prod.fst) conn.incoming ∧
      s.written ++ conn.outgoing = responses log ∧ conn.Rests ∧
      conn.wantWrite = s.conn.wantWrite ∧ (conn.outgoing = [] → s.conn.outgoing = []) := by
  obtain ⟨calls, hcalls, hframes, hrests, hconn⟩ := hloop.calls hopen
  have hlog : log = s.log ++ calls := hcalls.log
  have hout : conn.outgoing = s.conn.outgoing ++ responses calls := by rw [hconn]
  refine ⟨hcalls.keeps (appends_doRequest strtod).logged h.data, ?_, ?_, hrests, by rw [hconn], ?_⟩
  · rw [hlog, List.map_append]
    exact (h.frames.extend bs).append hframes
  · rw [hlog, responses_append, hout, ← List.append_assoc, h.sent]
  · rw [hout]
    exact fun hnil => (List.append_eq_nil_iff.mp hnil).1

/-- An event is served, and the invariant holds afterwards, unless `do_request` fails. -/
theorem Session.Inv.next {s : Session} (h : s.Inv) (strtod : Strtod) {e : SessionEvent}
    (he : s.Enabled e) :
    s.next strtod e = .error .callee ∨ ∃ s', s.next strtod e = .ok s' ∧ s'.Inv := by
  cases e with
  | others data => exact Or.inr ⟨_, rfl, he, h.frames, h.sent, h.waits, h.rests⟩
  | writable write =>
    obtain ⟨hwant, -, hw⟩ := he
    obtain ⟨⟨conn, sent⟩, hrun, hwritten⟩ := handleWrite_spec s.conn (h.waits.mp hwant) write
    obtain ⟨hsent, hin, hclose, hwaits⟩ := hwritten.keeps hwant (h.waits.mp hwant) hw
    refine Or.inr ⟨_, Session.next_writable hrun, h.data, ?_, ?_, hwaits, ?_⟩
    · rw [hin]
      exact h.frames
    · dsimp only
      rw [List.append_assoc, hsent, h.sent]
    · exact h.rests.congr hin hclose
  | readable nows read write =>
    obtain ⟨-, hopen, hw, hread⟩ := he
    have hhandle := handleRead_spec (s := (s.data, s.log)) (appends_doRequest strtod).logged h.data
      s.conn nows read write
    generalize hres :
      handleRead (logged (doRequest strtod)) (s.data, s.log) s.conn nows read write = res at hhandle
    cases hhandle with
    | again =>
      refine Or.inr ⟨_, Session.next_readable hres, h.data, ?_, ?_, h.waits, h.rests⟩
      · simpa [ReadResult.bytes] using h.frames
      · simpa using h.sent
    | error => exact hread.elim
    | eof => exact absurd rfl hread.1
    | failed =>
      refine Or.inl ?_
      rw [Session.next, hres, error_bind]
    | @quiet bs write s' conn _ hloop hout =>
      obtain ⟨hne, hlen⟩ := hread
      rw [List.take_of_length_le hlen] at hloop
      obtain ⟨hdata, hframes, hsent, hrests, hwrite, hnil⟩ := h.drained hopen hloop
      refine Or.inr ⟨_, Session.next_readable hres, hdata, hframes, by simpa using hsent, ?_,
        hrests⟩
      rw [hwrite, h.waits, hnil hout, hout]
    | @answered bs sent write s' conn conn' _ hloop hout hwritten =>
      obtain ⟨hne, hlen⟩ := hread
      rw [List.take_of_length_le hlen] at hloop
      obtain ⟨hdata, hframes, hsent, hrests, -, -⟩ := h.drained hopen hloop
      obtain ⟨hsent', hin, hclose, hwaits⟩ := hwritten.keeps rfl hout hw
      refine Or.inr ⟨_, Session.next_readable hres, hdata, ?_, ?_, hwaits, ?_⟩
      · rw [hin]
        exact hframes
      · dsimp only
        rw [List.append_assoc, hsent', hsent]
      · exact hrests.congr hin hclose

theorem Session.Inv.run {strtod : Strtod} {s s' : Session} {es : List SessionEvent} (h : s.Inv)
    (hrun : Run (Session.Step strtod) s es s') : s'.Inv := by
  refine hrun.invariant (P := fun _ => True) (fun s e s' hs _ ⟨he, hnext⟩ => ?_) h
    fun _ _ => trivial
  rcases hs.next strtod he with hfail | ⟨s1, hrun1, hs1⟩
  · rw [hfail] at hnext
    cases hnext
  · rw [hrun1] at hnext
    cases hnext
    exact hs1

theorem Conn.Rests.not_startsWith {conn : Conn} (h : conn.Rests) (cmd : List Bytes)
    (rest : Bytes) : ¬ StartsWith conn.incoming cmd rest := by
  intro hs
  rcases h with ⟨-, hun⟩ | ⟨-, hinv⟩
  · exact hs.not_other.1 hun
  · exact hs.not_other.2 hinv

theorem Conn.Rests.wantClose_iff {conn : Conn} (h : conn.Rests) :
    conn.wantClose = true ↔ Invalid conn.incoming := by
  rcases h with ⟨hopen, hun⟩ | ⟨hclose, hinv⟩
  · refine ⟨fun hclose => ?_, fun hinv => absurd hun hinv.not_unfinished⟩
    rw [hopen] at hclose
    cases hclose
  · exact ⟨fun _ => hinv, fun _ => hclose⟩

/-- However the bytes of a connection arrive and leave, the commands served are the valid frames
    at the front of the bytes received, and the bytes written are the first of their responses. -/
theorem framing_independent (strtod : Strtod) {g : KData} (hg : KInv g) (fd : Nat) (now : UInt64)
    {s : Session} {es : List SessionEvent}
    (hrun : Run (Session.Step strtod) (Session.start g fd now) es s) :
    Frames s.received (s.log.map Prod.fst) s.conn.incoming ∧
      (∀ cmds rest, Frames s.received cmds rest → (∀ cmd rest', ¬ StartsWith rest cmd rest') →
        cmds = s.log.map Prod.fst ∧ rest = s.conn.incoming) ∧
      s.written ++ s.conn.outgoing = responses s.log ∧
      (∀ cmd rest, ¬ StartsWith s.conn.incoming cmd rest) ∧
      (s.conn.wantClose = true ↔ Invalid s.conn.incoming) ∧
      (s.conn.wantClose = false → Unfinished s.conn.incoming) ∧
      ∀ e, s.Enabled e → s.next strtod e = .error .callee ∨ ∃ s', s.next strtod e = .ok s' := by
  have h := (Session.Inv.start hg fd now).run hrun
  have hmax := h.rests.not_startsWith
  refine ⟨h.frames, ?_, h.sent, hmax, h.rests.wantClose_iff, ?_, ?_⟩
  · exact fun cmds rest hframes hrest => hframes.unique h.frames hrest hmax
  · intro hopen
    rcases h.rests with ⟨-, hun⟩ | ⟨hclose, -⟩
    · exact hun
    · rw [hopen] at hclose
      cases hclose
  · intro e he
    rcases h.next strtod he with hfail | ⟨s', hnext, -⟩
    · exact Or.inl hfail
    · exact Or.inr ⟨s', hnext⟩

/-- `keys` comes in with the first byte of another frame. -/
theorem framing_independent_keys : ∃ s : Session,
    s.received = frame (encodeCmd [ascii "keys"]) ++ [7] ∧
      s.log = [([ascii "keys"], [5, 0, 0, 0, 0])] ∧
      Frames s.received (s.log.map Prod.fst) s.conn.incoming :=
  have hrun : Run (Session.Step fun _ => (⟨0⟩, 0)) (Session.start {} 5 0)
      [.readable (fun _ => 0) (.data (frame (encodeCmd [ascii "keys"]) ++ [7])) (.count 3)] _ :=
    .snoc (.refl _) ⟨⟨rfl, rfl, by simp, by simp [frame], by decide⟩, rfl⟩
  ⟨_, rfl, rfl, (framing_independent (fun _ => (⟨0⟩, 0)) Refines.empty.inv 5 0 hrun).1⟩

end Greenis
