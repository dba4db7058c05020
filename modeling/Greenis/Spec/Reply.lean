/-
  Replies, and the bytes that stand for them.

  A reply is one value, or an array of values. The counts and lengths of the encoding are 32-bit
  fields: `bytesOf 4 n` is `n` modulo 2^32.
-/
import Greenis.Lib.LittleEndian
import Greenis.Model.Defs

namespace Greenis
open LittleEndian

inductive Scalar where
  | nil
  | err (code : ErrorCode) (msg : Bytes)
  | str (s : Bytes)
  | int (val : Int)
  | dbl (val : Double)

inductive Reply where
  | one (v : Scalar)
  | arr (vs : List Scalar)

def Scalar.encode : Scalar → Bytes
  | .nil => [tagNil]
  | .err code msg => tagErr :: (bytesOf 4 code.code.toNat ++ bytesOf 4 msg.length ++ msg)
  | .str s => tagStr :: (bytesOf 4 s.length ++ s)
  | .int val => tagInt :: bytesOf 8 (Int64.ofInt val).toUInt64.toNat
  | .dbl val => tagDbl :: bytesOf 8 val.bits.toNat

def encodeAll (vs : List Scalar) : Bytes := vs.flatMap Scalar.encode

def Reply.encode : Reply → Bytes
  | .one v => v.encode
  | .arr vs => tagArr :: (bytesOf 4 vs.length ++ encodeAll vs)

/-- What is sent for the body of a reply: one that is too long is replaced by an error. -/
def capped (body : Bytes) : Bytes :=
  if body.length > kMaxMsg then (Scalar.err .tooBig (ascii "response is too big.")).encode
  else body

end Greenis
