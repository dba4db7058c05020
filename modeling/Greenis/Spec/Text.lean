/-
  The text of a reply, as a client shows it.

  There is a line for each value, and one before and after the values of an array. `formatG` writes
  a floating-point number.
-/
import Greenis.Spec.Reply
import Greenis.Model.Print

namespace Greenis

def Scalar.text (formatG : Double → Bytes) : Scalar → Bytes
  | .nil => ascii "(nil)" ++ newline
  | .err code msg =>
    ascii "(err) " ++ formatInt code.code.toNat ++ ascii " " ++ msg.takeWhile (· != 0) ++ newline
  | .str s => ascii "(str) " ++ s.takeWhile (· != 0) ++ newline
  | .int val => ascii "(int) " ++ formatInt val ++ newline
  | .dbl val => ascii "(dbl) " ++ formatG val ++ newline

def Reply.text (formatG : Double → Bytes) : Reply → Bytes
  | .one v => v.text formatG
  | .arr vs =>
    ascii "(arr) len=" ++ formatInt vs.length ++ newline ++ vs.flatMap (Scalar.text formatG) ++
      (ascii "(arr) end" ++ newline)

/-- The text of what is sent for a reply. -/
def Reply.shown (formatG : Double → Bytes) (r : Reply) : Bytes :=
  if r.encode.length > kMaxMsg then
    (Scalar.err .tooBig (ascii "response is too big.")).text formatG
  else r.text formatG

/-- A number that fits into 64 bits. -/
def Scalar.Fits : Scalar → Prop
  | .int val => -2 ^ 63 ≤ val ∧ val < 2 ^ 63
  | _ => True

def Reply.Fits : Reply → Prop
  | .one v => v.Fits
  | .arr vs => ∀ v ∈ vs, v.Fits

end Greenis
