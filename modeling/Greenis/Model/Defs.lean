/-
  Constants, error codes and tags of `inc/defs.h`, and the byte strings of the program.
-/
import Greenis.Lib.Binary64

namespace Greenis

/-- `std::string`, `Buffer` and raw `uint8_t` data. -/
abbrev Bytes := List UInt8

abbrev Double := Binary64

/-- A string constant of the program. -/
def ascii (s : String) : Bytes := s.toList.map fun c => UInt8.ofNat c.toNat

def kMaxArgs : Nat := 200 * 1000

def kMaxMsg : Nat := 4096

def kIdleTimeoutMs : UInt64 := 5 * 1000

def kMaxWorks : Nat := 2000

def kMaxLoadFactor : Nat := 8

def kRehashingWork : Nat := 128

inductive ErrorCode where
  | unknown
  | tooBig
  | badTyp
  | badArg
  deriving DecidableEq, Repr

def ErrorCode.code : ErrorCode → UInt32
  | .unknown => 1
  | .tooBig => 2
  | .badTyp => 3
  | .badArg => 4

def tagNil : UInt8 := 0
def tagErr : UInt8 := 1
def tagStr : UInt8 := 2
def tagInt : UInt8 := 3
def tagDbl : UInt8 := 4
def tagArr : UInt8 := 5

/-- `ValueType`: `T_INIT`, `T_STR`, `T_ZSET`. -/
inductive ValueType where
  | init
  | str
  | zset
  deriving DecidableEq, Repr, Inhabited

end Greenis
