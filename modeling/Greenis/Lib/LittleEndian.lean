/-
  Fixed-width little-endian encodings.

  `bytesOf w n` are the `w` low bytes of `n`, least significant first, and `valueOf` reads bytes
  back: `valueOf (bytesOf w n) = n % 256 ^ w`, and `bytesOf` of the value of some bytes are those
  bytes.
-/
import Mathlib.Algebra.Group.Nat.Defs
import Mathlib.Data.Nat.Notation
import Mathlib.Logic.Function.Basic

namespace LittleEndian

/-- The `w` low bytes of `n`. -/
def bytesOf : ℕ → ℕ → List UInt8
  | 0, _ => []
  | w + 1, n => UInt8.ofNat n :: bytesOf w (n / 256)

/-- The number some bytes stand for. -/
def valueOf : List UInt8 → ℕ
  | [] => 0
  | b :: bs => b.toNat + 256 * valueOf bs

@[simp] theorem length_bytesOf (w n : ℕ) : (bytesOf w n).length = w := by
  induction w generalizing n with
  | zero => rfl
  | succ w ih => rw [bytesOf, List.length_cons, ih]

theorem valueOf_bytesOf (w n : ℕ) : valueOf (bytesOf w n) = n % 256 ^ w := by
  induction w generalizing n with
  | zero => rw [Nat.pow_zero, Nat.mod_one]; rfl
  | succ w ih =>
    have hmod : (UInt8.ofNat n).toNat = n % 256 := UInt8.toNat_ofNat'
    rw [bytesOf, valueOf, ih, hmod, Nat.pow_succ', Nat.mod_mul]

theorem valueOf_bytesOf_of_lt {w n : ℕ} (h : n < 256 ^ w) : valueOf (bytesOf w n) = n := by
  rw [valueOf_bytesOf, Nat.mod_eq_of_lt h]

theorem bytesOf_valueOf (bs : List UInt8) : bytesOf bs.length (valueOf bs) = bs := by
  induction bs with
  | nil => rfl
  | cons b bs ih =>
    have hlt : b.toNat < 256 := b.toNat_lt
    have hdiv : (b.toNat + 256 * valueOf bs) / 256 = valueOf bs := by omega
    have hbyte : UInt8.ofNat (b.toNat + 256 * valueOf bs) = b := by
      apply UInt8.toNat_inj.mp
      rw [UInt8.toNat_ofNat', show 2 ^ 8 = 256 from rfl]
      omega
    rw [List.length_cons, valueOf, bytesOf, hdiv, hbyte, ih]

/-- The bytes of a number depend on its low part only. -/
theorem bytesOf_mod (w n : ℕ) : bytesOf w (n % 256 ^ w) = bytesOf w n := by
  have h := bytesOf_valueOf (bytesOf w n)
  rwa [length_bytesOf, valueOf_bytesOf] at h

theorem valueOf_lt (bs : List UInt8) : valueOf bs < 256 ^ bs.length := by
  induction bs with
  | nil => simp [valueOf]
  | cons b bs ih =>
    have hlt : b.toNat < 256 := b.toNat_lt
    rw [valueOf, List.length_cons, Nat.pow_succ']
    omega

theorem bytesOf_injOn {w n m : ℕ} (hn : n < 256 ^ w) (hm : m < 256 ^ w)
    (h : bytesOf w n = bytesOf w m) : n = m := by
  rw [← valueOf_bytesOf_of_lt hn, h, valueOf_bytesOf_of_lt hm]

end LittleEndian
