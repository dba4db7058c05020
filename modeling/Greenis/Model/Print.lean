/-
  `lib/client/query.cpp`: what the client prints.

  `showNested` is `print_response` with the bytes that go to the standard output. `formatG` is the
  `%g` of `printf`. What `msg` prints goes elsewhere.
-/
import Greenis.Model.Query

namespace Greenis
open CExec LittleEndian

/-- `%d`, `%u` and `%lld`. -/
def formatInt (n : Int) : Bytes := ascii (toString n)

/-- `%.*s` stops at a NUL. -/
def formatStr (len : UInt32) (s : Bytes) : Exec Bytes := do
  printStr len s
  .ok ((if 0 ≤ len.toInt32 then s.take len.toNat else s).takeWhile (· != 0))

def newline : Bytes := ascii "\n"

/-- The loop of `print_response` over the values of an array. -/
def showElems (print : Bytes → Exec (Int32 × Bytes)) (data : Bytes) :
    Nat → Nat → Exec (Int32 × Bytes)
  | 0, arrBytes => .ok (Int32.ofNat arrBytes, ascii "(arr) end" ++ newline)
  | n + 1, arrBytes => do
    let rest ← slice data arrBytes (data.length - arrBytes)
    let (rv, text) ← print rest
    if rv < 0 then .ok (rv, text)
    else do
      let (rv', more) ← showElems print data n (arrBytes + rv.toInt.toNat)
      .ok (rv', text ++ more)

def showNested (formatG : Double → Bytes) : Nat → Bytes → Exec (Int32 × Bytes)
  | 0, _ => .error .fuel
  | fuel + 1, data =>
    if data.length < 1 then .ok (-1, [])
    else do
      let tag ← index data 0
      if tag = tagNil then .ok (1, ascii "(nil)" ++ newline)
      else if tag = tagErr then
        if data.length < 1 + 8 then .ok (-1, [])
        else do
          let code ← u32At data 1
          let len ← u32At data (1 + 4)
          if data.length < (1 + 8 + len).toNat then .ok (-1, [])
          else do
            let text ← formatStr len (data.drop (1 + 8))
            .ok ((1 + 8 + len).toInt32,
              ascii "(err) " ++ formatInt code.toInt32.toInt ++ ascii " " ++ text ++ newline)
      else if tag = tagStr then
        if data.length < 1 + 4 then .ok (-1, [])
        else do
          let len ← u32At data 1
          if data.length < (1 + 4 + len).toNat then .ok (-1, [])
          else do
            let text ← formatStr len (data.drop (1 + 4))
            .ok ((1 + 4 + len).toInt32, ascii "(str) " ++ text ++ newline)
      else if tag = tagInt then
        if data.length < 1 + 8 then .ok (-1, [])
        else do
          let val ← slice data 1 8
          .ok (1 + 8, ascii "(int) " ++ formatInt (UInt64.ofNat (valueOf val)).toInt64.toInt ++
            newline)
      else if tag = tagDbl then
        if data.length < 1 + 8 then .ok (-1, [])
        else do
          let val ← slice data 1 8
          .ok (1 + 8, ascii "(dbl) " ++ formatG ⟨UInt64.ofNat (valueOf val)⟩ ++ newline)
      else if tag = tagArr then
        if data.length < 1 + 4 then .ok (-1, [])
        else do
          let len ← u32At data 1
          let (rv, text) ← showElems (showNested formatG fuel) data len.toNat (1 + 4)
          .ok (rv, ascii "(arr) len=" ++ formatInt len.toNat ++ newline ++ text)
      else .ok (-1, [])

/-- `print_response`. -/
def showResponse (formatG : Double → Bytes) (data : Bytes) : Exec (Int32 × Bytes) :=
  showNested formatG (data.length + 1) data

/-- `read_res`. -/
def showRes (formatG : Double → Bytes) (read read' : Nat → Nat → Int) (stream : Bytes) :
    Exec (Int32 × Bytes) := do
  let (err, header, stream) ← readFull read 4 0 4 stream
  if err ≠ 0 then .ok (err, [])
  else do
    let len := UInt32.ofNat (valueOf header)
    if len.toNat > kMaxMsg then .ok (-1, [])
    else do
      let (err, body, _) ← readFull read' len.toNat 0 len.toNat stream
      if err ≠ 0 then .ok (err, [])
      else do
        let (rv, text) ← showResponse formatG body
        if rv > 0 ∧ rv.toUInt32 ≠ len then .ok (-1, text)
        else .ok (rv, text)

end Greenis
