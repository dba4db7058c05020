/-
  `lib/server/conn.cpp`: a connection, its requests and its buffers.

  The application is a parameter: `app s now cmd out` is what `do_request` does to the state `s`
  and to the outgoing buffer at the clock reading `now`. A connection is handed over by value, for
  nothing else changes it meanwhile; where it lies in memory is `Model.Server`.
-/
import Greenis.Model.Response

namespace Greenis
open CExec LittleEndian

/-- A `Conn`, without its `idle_node`. -/
structure Conn where
  fd : Nat
  /-- application's intention, for the event loop -/
  wantRead : Bool := false
  wantWrite : Bool := false
  wantClose : Bool := false
  /-- data to be parsed by the application -/
  incoming : Buffer := []
  /-- responses generated by the application -/
  outgoing : Buffer := []
  lastActiveMs : UInt64 := 0
  deriving Inhabited

/-- What a `read()` returns: `EAGAIN`, another error, or the data that has come in. No data is an
    end of file. -/
inductive ReadResult where
  | again
  | error
  | data (bs : Bytes)

/-- What a `write()` returns: `EAGAIN`, another error, or a number of bytes, at most those
    offered. -/
inductive WriteResult where
  | again
  | error
  | count (n : Nat)

section Handlers

variable {σ : Type} (app : σ → UInt64 → List Bytes → Buffer → Exec (σ × Buffer))

/-- Process 1 request if there is enough data. -/
def tryOneRequest (s : σ) (now : UInt64) (conn : Conn) : Exec (Bool × σ × Conn) :=
  if conn.incoming.length < 4 then .ok (false, s, conn)  -- want read
  else do
    let header ← slice conn.incoming 0 4
    let len := valueOf header
    if len > kMaxMsg then .ok (false, s, { conn with wantClose := true })
    else if 4 + len > conn.incoming.length then .ok (false, s, conn)  -- want read
    else do
      -- for an empty body, `&conn->incoming[4]` may be the end of the buffer
      let request ← slice conn.incoming 4 len
      match ← parseReq request with
      | none => .ok (false, s, { conn with wantClose := true })
      | some cmd => do
        let (outgoing, headerPos) := responseBegin conn.outgoing
        let (s, outgoing) ← within (app s now cmd outgoing)
        let outgoing ← responseEnd outgoing headerPos
        let incoming ← bufConsume conn.incoming (4 + len)
        .ok (true, s, { conn with incoming := incoming, outgoing := outgoing })

/-- `while (try_one_request(conn)) {}`: the `i`-th request reads the clock at `nows i`. -/
def requestLoop (nows : Nat → UInt64) : Nat → Nat → σ → Conn → Exec (σ × Conn)
  | 0, _, _, _ => .error .fuel
  | fuel + 1, i, s, conn => do
    let (more, s, conn) ← tryOneRequest app s (nows i) conn
    if more then requestLoop nows fuel (i + 1) s conn else .ok (s, conn)

/-- Application callback when the socket is writable, with the bytes the socket accepts. -/
def handleWrite (conn : Conn) (write : WriteResult) : Exec (Conn × Bytes) := do
  check (conn.outgoing.length > 0)
  match write with
  | .again => .ok (conn, [])  -- actually not ready
  | .error => .ok ({ conn with wantClose := true }, [])
  | .count n => do
    let rv := min n conn.outgoing.length
    let outgoing ← bufConsume conn.outgoing rv
    let sent := conn.outgoing.take rv
    let conn := { conn with outgoing := outgoing }
    if conn.outgoing.length = 0 then  -- all data written
      .ok ({ conn with wantRead := true, wantWrite := false }, sent)
    else .ok (conn, sent)

/-- `sizeof(buf)` in `handle_read` -/
def readBufSize : Nat := 64 * 1024

/-- Application callback when the socket is readable, with the bytes the socket accepts. -/
def handleRead (s : σ) (conn : Conn) (nows : Nat → UInt64) (read : ReadResult)
    (write : WriteResult) : Exec (σ × Conn × Bytes) :=
  match read with
  | .again => .ok (s, conn, [])  -- actually not ready
  | .error => .ok (s, { conn with wantClose := true }, [])
  | .data bs => do
    let data := bs.take readBufSize
    if data.length = 0 then .ok (s, { conn with wantClose := true }, [])
    else do
      -- got some new data
      let conn := { conn with incoming := bufAppend conn.incoming data }
      -- each request takes at least four bytes
      let (s, conn) ← requestLoop app nows (conn.incoming.length + 1) 0 s conn
      if conn.outgoing.length > 0 then do
        let (conn, sent) ← handleWrite { conn with wantRead := false, wantWrite := true } write
        .ok (s, conn, sent)
      else .ok (s, conn, [])

end Handlers

end Greenis
