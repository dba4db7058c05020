/-
  `lib/utils.cpp`: reading fields of a request, and numbers from strings.

  A `const uint8_t *` into `data` is an index; no pointer addition wraps. `strtoll` is that of the C
  library in the "C" locale; it and `strtod` read a string up to its first NUL.
-/
import Greenis.Lib.Exec
import Greenis.Lib.LittleEndian
import Greenis.Lib.Binary64
import Greenis.Model.Defs

namespace Greenis
open CExec LittleEndian

/-- The value and the cursor after it, if the field ends by `end`. -/
def readU32 (data : Bytes) (cur end' : Nat) : Exec (Option (Nat × Nat)) :=
  if cur + 4 > end' then .ok none
  else do
    let out ← slice data cur 4
    .ok (some (valueOf out, cur + 4))

def readStr (data : Bytes) (cur end' n : Nat) : Exec (Option (Bytes × Nat)) :=
  if cur + n > end' then .ok none
  else do
    let out ← slice data cur n
    .ok (some (out, cur + n))

/-- What `s.c_str()` is to a function that reads up to the first NUL. -/
def cStr (s : Bytes) : Bytes := s.takeWhile (· ≠ 0)

/-- `isspace` in the "C" locale. -/
def isSpace (b : UInt8) : Bool := b == 32 || (9 ≤ b && b ≤ 13)

def isDigit (b : UInt8) : Bool := 48 ≤ b && b ≤ 57

/-- The number some decimal digits stand for. -/
def decimal (ds : Bytes) : Nat := ds.foldl (fun n d => n * 10 + (d.toNat - 48)) 0

/-- An integer outside of the range of `long long` becomes the nearest one inside. -/
def saturate (x : Int) : Int := max (-2 ^ 63) (min x (2 ^ 63 - 1))

/-- `strtoll(s, &endp, 10)` with the number of bytes before `endp`: white space, a sign, digits.
    Without a digit nothing is consumed. -/
def strtoll (s : Bytes) : Int × Nat :=
  let s := cStr s
  let spaces := s.takeWhile isSpace
  let rest := s.drop spaces.length
  let (neg, sign) : Bool × Nat :=
    match rest with
    | 45 :: _ => (true, 1)
    | 43 :: _ => (false, 1)
    | _ => (false, 0)
  let digits := (rest.drop sign).takeWhile isDigit
  if digits.isEmpty then (0, 0)
  else
    (saturate (if neg then -(decimal digits : Int) else decimal digits),
      spaces.length + sign + digits.length)

/-- The number, if all of `s` was consumed. -/
def str2int (s : Bytes) : Option Int64 :=
  let (x, n) := strtoll s
  if n = s.length then some (Int64.ofInt x) else none

/-- `strtod`, with the number of bytes before `endp`. -/
abbrev Strtod := Bytes → Binary64 × Nat

def str2dbl (strtod : Strtod) (s : Bytes) : Option Binary64 :=
  let (x, n) := strtod (cStr s)
  if n = s.length ∧ ¬ x.isNaN then some x else none

end Greenis
