/-
  What a sorted set is: a finite map from names to scores, listed by (score, name).

  Scores that are not NaN are ordered by their rank, names as byte strings, and a tuple is a point
  of the lexicographic product (`tupleKey`).
-/
import Mathlib.Data.Finmap
import Mathlib.Data.Int.Order.Basic
import Mathlib.Data.List.Lex
import Mathlib.Data.Prod.Lex
import Mathlib.Order.Nat
import Greenis.Model.Defs

namespace Greenis

/-- A byte string as a point of the lexicographic order of unsigned bytes. -/
def byteKey (s : Bytes) : List Nat := s.map UInt8.toNat

/-- Where a (score, name) tuple stands in the order. -/
def tupleKey (score : Double) (name : Bytes) : ℤ ×ₗ List Nat := toLex (score.rank, byteKey name)

theorem byteKey_injective : Function.Injective byteKey :=
  List.map_injective_iff.mpr fun _ _ h => UInt8.toNat_inj.mp h

theorem tupleKey_name {s s' : Double} {n n' : Bytes} (h : tupleKey s n = tupleKey s' n') :
    n = n' :=
  byteKey_injective (Prod.ext_iff.mp (toLex.injective h)).2

theorem tupleKey_lt {s s' : Double} {n n' : Bytes} : tupleKey s n < tupleKey s' n' ↔
    s.rank < s'.rank ∨ s.rank = s'.rank ∧ byteKey n < byteKey n' := Prod.Lex.toLex_lt_toLex

/-- The unsigned lexicographic order: `a` is a proper start of `b`, or has the lesser byte where
    they first differ. -/
def Precedes (a b : Bytes) : Prop :=
  (∃ t, t ≠ [] ∧ b = a ++ t) ∨
    ∃ p x y s t, a = p ++ x :: s ∧ b = p ++ y :: t ∧ x.toNat < y.toNat

theorem precedes_cons {x y : UInt8} {a b : Bytes} :
    Precedes (x :: a) (y :: b) ↔ x.toNat < y.toNat ∨ x = y ∧ Precedes a b := by
  constructor
  · rintro (⟨t, ht, h⟩ | ⟨p, u, v, s, t, ha, hb, hlt⟩)
    · obtain ⟨rfl, rfl⟩ := List.cons.inj h
      exact Or.inr ⟨rfl, Or.inl ⟨t, ht, rfl⟩⟩
    · cases p with
      | nil =>
        obtain ⟨rfl, -⟩ := List.cons.inj ha
        obtain ⟨rfl, -⟩ := List.cons.inj hb
        exact Or.inl hlt
      | cons w p =>
        obtain ⟨rfl, rfl⟩ := List.cons.inj ha
        obtain ⟨rfl, rfl⟩ := List.cons.inj hb
        exact Or.inr ⟨rfl, Or.inr ⟨p, u, v, s, t, rfl, rfl, hlt⟩⟩
  · rintro (hlt | ⟨rfl, ⟨t, ht, rfl⟩ | ⟨p, u, v, s, t, rfl, rfl, hlt⟩⟩)
    · exact Or.inr ⟨[], x, y, a, b, rfl, rfl, hlt⟩
    · exact Or.inl ⟨t, ht, rfl⟩
    · exact Or.inr ⟨x :: p, u, v, s, t, rfl, rfl, hlt⟩

theorem byteKey_lt {a b : Bytes} : byteKey a < byteKey b ↔ Precedes a b := by
  induction a generalizing b with
  | nil => cases b <;> simp [byteKey, Precedes]
  | cons x a ih =>
    cases b with
    | nil => simp [byteKey, Precedes]
    | cons y b =>
      rw [precedes_cons, ← ih, ← UInt8.toNat_inj]
      exact List.cons_lt_cons_iff

/-- The abstract sorted set. -/
abbrev Scores := Finmap fun _ : Bytes => Double

/-- The score kept when `new` is set over `old`. -/
def keptScore (old : Option Double) (new : Double) : Double :=
  match old with
  | some s => if s.eq new then s else new
  | none => new

/-- A (name, score) tuple of a set. -/
abbrev Tuple := Bytes × Double

def Tuple.key (t : Tuple) : ℤ ×ₗ List Nat := tupleKey t.2 t.1

/-- `ts` are the tuples of `m`, in order. -/
structure Listing (m : Scores) (ts : List Tuple) : Prop where
  sorted : ts.Pairwise fun t u => t.key < u.key
  mem : ∀ name score, (name, score) ∈ ts ↔ m.lookup name = some score

theorem Listing.empty : Listing ∅ [] := ⟨List.Pairwise.nil, by simp⟩

/-- The number of tuples before (score, name). -/
def seekRank (ts : List Tuple) (score : Double) (name : Bytes) : Nat :=
  ts.countP fun t => decide (t.key < tupleKey score name)

/-- The tuples a query asks for: at most half of `limit`, rounded up, from the first tuple that is
    not before (score, name) moved by `offset`. -/
def window (ts : List Tuple) (score : Double) (name : Bytes) (offset limit : Int) : List Tuple :=
  let start := seekRank ts score name
  if 0 < limit ∧ start < ts.length ∧ 0 ≤ start + offset then
    (ts.drop (start + offset).toNat).take ((limit.toNat + 1) / 2)
  else []

end Greenis
