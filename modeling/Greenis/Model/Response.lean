/-
  `lib/server/response.cpp`: parsing a request, dispatching it, and framing the reply.
-/
import Greenis.Model.KeyValue

namespace Greenis
open CExec LittleEndian

/-- The loop of `parse_req`, for the strings that are still missing: the cursor at the end and
    all strings, or -1. -/
def parseLoop (data : Bytes) : Nat → Nat → List Bytes → Exec (Option (Nat × List Bytes))
  | 0, cur, out => .ok (some (cur, out))
  | missing + 1, cur, out => do
    match ← readU32 data cur data.length with
    | none => .ok none
    | some (len, cur) =>
      match ← readStr data cur data.length len with
      | none => .ok none
      | some (s, cur) => parseLoop data missing cur (out ++ [s])

/-- `parse_req` into an empty vector: the command, or -1. -/
def parseReq (data : Bytes) : Exec (Option (List Bytes)) := do
  match ← readU32 data 0 data.length with
  | none => .ok none
  | some (nstr, cur) =>
    if nstr > kMaxArgs then .ok none  -- safety limit
    else
      match ← parseLoop data nstr cur [] with
      | none => .ok none
      | some (cur, out) =>
        if cur ≠ data.length then .ok none  -- trailing garbage
        else .ok (some out)

def doRequest (strtod : Strtod) (g : KData) (now : UInt64) (cmd : List Bytes) (out : Buffer) :
    Exec (KData × Buffer) :=
  if cmd.length = 2 ∧ cmd[0]? = some (ascii "get") then doGet g cmd out
  else if cmd.length = 3 ∧ cmd[0]? = some (ascii "set") then doSet g cmd out
  else if cmd.length = 2 ∧ cmd[0]? = some (ascii "del") then doDel g cmd out
  else if cmd.length = 3 ∧ cmd[0]? = some (ascii "pexpire") then doExpire g now cmd out
  else if cmd.length = 2 ∧ cmd[0]? = some (ascii "pttl") then doTtl g now cmd out
  else if cmd.length = 1 ∧ cmd[0]? = some (ascii "keys") then doKeys g cmd out
  else if cmd.length = 4 ∧ cmd[0]? = some (ascii "zadd") then doZadd strtod g cmd out
  else if cmd.length = 3 ∧ cmd[0]? = some (ascii "zrem") then doZrem g cmd out
  else if cmd.length = 3 ∧ cmd[0]? = some (ascii "zscore") then doZscore g cmd out
  else if cmd.length = 6 ∧ cmd[0]? = some (ascii "zquery") then doZquery strtod g cmd out
  else .ok (g, outErr out .unknown (ascii "unknown command."))

/-- Reserve space for the header of a message, at the position returned. -/
def responseBegin (out : Buffer) : Buffer × Nat := (bufAppendU32 out 0, out.length)

def responseSize (out : Buffer) (header : Nat) : Nat := out.length - header - 4

def responseEnd (out : Buffer) (header : Nat) : Exec Buffer :=
  let out :=
    if responseSize out header > kMaxMsg then
      outErr (out.take (header + 4)) .tooBig (ascii "response is too big.")
    else out
  bufWriteAt out header (bytesOf 4 (UInt32.ofNat (responseSize out header)).toNat)

end Greenis
