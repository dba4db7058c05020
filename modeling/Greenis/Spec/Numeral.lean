/-
  Decimal numerals, as `strtoll` reads them: white space, a sign or none, and digits.
-/
import Greenis.Model.Utils

namespace Greenis

/-- A sign, and what the number is multiplied by. -/
inductive Sign : Bytes → Int → Prop
  | none : Sign [] 1
  | plus : Sign [43] 1
  | minus : Sign [45] (-1)

/-- All of the string is a numeral, for the number. -/
inductive Numeral : Bytes → Int → Prop
  | mk {spaces sign digits : Bytes} {factor : Int} : (∀ b ∈ spaces, isSpace b = true) →
      Sign sign factor → digits ≠ [] → (∀ b ∈ digits, isDigit b = true) →
      Numeral (spaces ++ (sign ++ digits)) (factor * decimal digits)

def InInt64 (v : Int) : Prop := -2 ^ 63 ≤ v ∧ v < 2 ^ 63

/-- The string is a numeral for a number of 64 bits. -/
def DenotesInt64 (s : Bytes) : Prop := ∃ v, Numeral s v ∧ InInt64 v

/-- The string is not empty, and a numeral at most for a number of 64 bits. -/
def Regular (s : Bytes) : Prop := s ≠ [] ∧ ∀ v, Numeral s v → InInt64 v

/-- The string is neither empty nor a numeral. -/
def Malformed (s : Bytes) : Prop := s ≠ [] ∧ ∀ v, ¬ Numeral s v

theorem not_numeral_nil (v : Int) : ¬ Numeral [] v := by
  generalize hs : ([] : Bytes) = s
  rintro ⟨-, -, hne, -⟩
  exact hne (List.append_eq_nil_iff.mp (List.append_eq_nil_iff.mp hs.symm).2).2

end Greenis
