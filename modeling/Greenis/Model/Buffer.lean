/-
  `lib/server/buffer.cpp`: byte buffers, and the serialization of replies.

  A `Buffer` is a `std::vector<uint8_t>`. Integers and doubles are copied in the byte order of a
  little-endian host; sizes are cut to 32 bits where the source casts them.
-/
import Greenis.Lib.Binary64
import Greenis.Lib.Exec
import Greenis.Lib.LittleEndian
import Greenis.Model.Defs

namespace Greenis
open CExec LittleEndian

abbrev Buffer := Bytes

/-- Append data to the outgoing buffer. -/
def bufAppend (buf data : Buffer) : Buffer := buf ++ data

/-- Consume data from the incoming buffer. -/
def bufConsume (buf : Buffer) (n : Nat) : Exec Buffer :=
  if n ≤ buf.length then .ok (buf.drop n) else .error .bounds

def bufAppendU8 (buf : Buffer) (data : UInt8) : Buffer := buf ++ [data]

def bufAppendU32 (buf : Buffer) (data : UInt32) : Buffer := bufAppend buf (bytesOf 4 data.toNat)

def bufAppendI64 (buf : Buffer) (data : Int64) : Buffer :=
  bufAppend buf (bytesOf 8 data.toUInt64.toNat)

def bufAppendDbl (buf : Buffer) (data : Binary64) : Buffer :=
  bufAppend buf (bytesOf 8 data.bits.toNat)

def outNil (out : Buffer) : Buffer := bufAppendU8 out tagNil

def outStr (out : Buffer) (s : Bytes) : Buffer :=
  bufAppend (bufAppendU32 (bufAppendU8 out tagStr) (UInt32.ofNat s.length)) s

def outInt (out : Buffer) (val : Int64) : Buffer := bufAppendI64 (bufAppendU8 out tagInt) val

def outDbl (out : Buffer) (val : Binary64) : Buffer := bufAppendDbl (bufAppendU8 out tagDbl) val

def outErr (out : Buffer) (code : ErrorCode) (msg : Bytes) : Buffer :=
  bufAppend (bufAppendU32 (bufAppendU32 (bufAppendU8 out tagErr) code.code)
    (UInt32.ofNat msg.length)) msg

def outArr (out : Buffer) (n : UInt32) : Buffer := bufAppendU32 (bufAppendU8 out tagArr) n

/-- `memcpy(&buf[pos], data, len)`. -/
def bufWriteAt (buf : Buffer) (pos : Nat) (data : Bytes) : Exec Buffer :=
  if pos + data.length ≤ buf.length then
    .ok (buf.take pos ++ data ++ buf.drop (pos + data.length))
  else .error .bounds

/-- The header of an array whose count is filled in by `outEndArr`, and where it is. -/
def outBeginArr (out : Buffer) : Buffer × Nat :=
  let out := bufAppendU32 (bufAppendU8 out tagArr) 0
  (out, out.length - 4)

def outEndArr (out : Buffer) (ctx : Nat) (n : UInt32) : Exec Buffer := do
  let tag ← index out (ctx - 1)
  check (tag == tagArr)
  bufWriteAt out ctx (bytesOf 4 n.toNat)

end Greenis
