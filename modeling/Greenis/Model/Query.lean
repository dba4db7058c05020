/-
  `lib/client/query.cpp`: the client sends a request and reads the reply.

  `write i n` is what the `i`-th `write()` returns when it is offered `n` bytes, and `read i n` what
  the `i`-th `read()` returns when it is asked for `n`; the bytes come from the stream of the
  socket. The content of a local buffer is arbitrary before it is written. What `print_response`
  prints is in `Model.Print`.
-/
import Greenis.Model.Buffer

namespace Greenis
open CExec LittleEndian

/-- `write_all`, with the bytes that have been written. -/
def writeAll (write : Nat → Nat → Int) : Nat → Nat → Bytes → Exec (Int × Bytes)
  | _, _, [] => .ok (0, [])
  | 0, _, _ :: _ => .error .fuel
  | fuel + 1, i, b :: buf => do
    let rv := write i (b :: buf).length
    if rv ≤ 0 then .ok (-1, [])  -- error
    else do
      check (rv ≤ (b :: buf).length)
      let (err, sent) ← writeAll write fuel (i + 1) ((b :: buf).drop rv.toNat)
      .ok (err, (b :: buf).take rv.toNat ++ sent)

/-- `len` in `send_req`: each sum is cut to 32 bits. -/
def reqLen (cmd : List Bytes) : UInt32 :=
  cmd.foldl (fun len s => UInt32.ofNat (len.toNat + (4 + s.length))) 4

/-- The loop of `send_req` that copies the strings to `wbuf`, from `cur` on. -/
def putStrs : List Bytes → Nat → Buffer → Exec Buffer
  | [], _, wbuf => .ok wbuf
  | s :: cmd, cur, wbuf => do
    let wbuf ← bufWriteAt wbuf cur (bytesOf 4 (UInt32.ofNat s.length).toNat)
    let wbuf ← bufWriteAt wbuf (cur + 4) s
    putStrs cmd (cur + (4 + s.length)) wbuf

/-- `send_req`, with the bytes that have been written; `wbuf` has `4 + K_MAX_MSG` bytes. -/
def sendReq (write : Nat → Nat → Int) (wbuf : Buffer) (cmd : List Bytes) : Exec (Int × Bytes) := do
  let len := reqLen cmd
  if len.toNat > kMaxMsg then .ok (-1, [])
  else do
    let wbuf ← bufWriteAt wbuf 0 (bytesOf 4 len.toNat)
    let wbuf ← bufWriteAt wbuf 4 (bytesOf 4 (UInt32.ofNat cmd.length).toNat)
    let wbuf ← putStrs cmd 8 wbuf
    let msg ← slice wbuf 0 (4 + len.toNat)
    writeAll write msg.length 0 msg

/-- `printf("%.*s", len, s)` reads up to `len` bytes of `s`, or up to a NUL. A `len` that is
    negative as an `int` is as if it were missing. -/
def printStr (len : UInt32) (s : Bytes) : Exec Unit :=
  if 0 ≤ len.toInt32 ∧ len.toNat ≤ s.length ∨ 0 ∈ s then .ok () else .error .bounds

/-- A 32-bit field of `data`. -/
def u32At (data : Bytes) (i : Nat) : Exec UInt32 := do
  let bs ← slice data i 4
  .ok (UInt32.ofNat (valueOf bs))

/-- The loop of `print_response` over the values of an array. -/
def printElems (print : Bytes → Exec Int32) (data : Bytes) : Nat → Nat → Exec Int32
  | 0, arrBytes => .ok (Int32.ofNat arrBytes)
  | n + 1, arrBytes => do
    let rest ← slice data arrBytes (data.length - arrBytes)
    let rv ← print rest
    if rv < 0 then .ok rv
    else printElems print data n (arrBytes + rv.toInt.toNat)

/-- `print_response(data, size)` where `size` is the length of `data`. `fuel` bounds the depth of
    nested arrays. -/
def printNested : Nat → Bytes → Exec Int32
  | 0, _ => .error .fuel
  | fuel + 1, data =>
    if data.length < 1 then .ok (-1)  -- bad response
    else do
      let tag ← index data 0
      if tag = tagNil then .ok 1
      else if tag = tagErr then
        if data.length < 1 + 8 then .ok (-1)
        else do
          let _code ← slice data 1 4
          let len ← u32At data (1 + 4)
          -- the sum is a `uint32_t`
          if data.length < (1 + 8 + len).toNat then .ok (-1)
          else do
            printStr len (data.drop (1 + 8))
            .ok (1 + 8 + len).toInt32
      else if tag = tagStr then
        if data.length < 1 + 4 then .ok (-1)
        else do
          let len ← u32At data 1
          if data.length < (1 + 4 + len).toNat then .ok (-1)
          else do
            printStr len (data.drop (1 + 4))
            .ok (1 + 4 + len).toInt32
      else if tag = tagInt then
        if data.length < 1 + 8 then .ok (-1)
        else do
          let _val ← slice data 1 8
          .ok (1 + 8)
      else if tag = tagDbl then
        if data.length < 1 + 8 then .ok (-1)
        else do
          let _val ← slice data 1 8
          .ok (1 + 8)
      else if tag = tagArr then
        if data.length < 1 + 4 then .ok (-1)
        else do
          let len ← u32At data 1
          printElems (printNested fuel) data len.toNat (1 + 4)
      else .ok (-1)

/-- An array is nested in at least five bytes. -/
def printResponse (data : Bytes) : Exec Int32 := printNested (data.length + 1) data

/-- `read_full` of `n` bytes: what it returns, the bytes read, and the rest of the stream. -/
def readFull (read : Nat → Nat → Int) : Nat → Nat → Nat → Bytes → Exec (Int32 × Bytes × Bytes)
  | _, _, 0, stream => .ok (0, [], stream)
  | 0, _, _ + 1, _ => .error .fuel
  | fuel + 1, i, n + 1, stream => do
    let rv := read i (n + 1)
    if rv ≤ 0 then .ok (-1, [], stream)  -- error, or unexpected EOF
    else do
      check (rv ≤ (n + 1 : Nat))
      let (err, buf, stream') ← readFull read fuel (i + 1) (n + 1 - rv.toNat)
        (stream.drop rv.toNat)
      .ok (err, stream.take rv.toNat ++ buf, stream')

/-- `read_res`, where `read` is for the header and `read'` for the body. -/
def readRes (read read' : Nat → Nat → Int) (stream : Bytes) : Exec Int32 := do
  let (err, header, stream) ← readFull read 4 0 4 stream
  if err ≠ 0 then .ok err
  else do
    let len := UInt32.ofNat (valueOf header)
    if len.toNat > kMaxMsg then .ok (-1)  -- too long
    else do
      let (err, body, _) ← readFull read' len.toNat 0 len.toNat stream
      if err ≠ 0 then .ok err
      else do
        let rv ← printResponse body
        if rv > 0 ∧ rv.toUInt32 ≠ len then .ok (-1)  -- bad response
        else .ok rv

end Greenis
