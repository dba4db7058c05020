/-
  Which strings `str2int` takes for numbers.

  It takes every numeral, and none but these and the empty string (`str2int_spec`). The number is
  that of the numeral if it has 64 bits, and the nearest one of 64 bits if it has not.
-/
import Mathlib.Data.List.TakeWhile
import Greenis.Spec.Numeral

namespace Greenis

theorem isDigit_not_space {b : UInt8} (h : isDigit b = true) : isSpace b = false := by
  simp only [isDigit, Bool.and_eq_true, decide_eq_true_eq, UInt8.le_iff_toNat_le] at h
  simp only [isSpace, Bool.or_eq_false_iff, beq_eq_false_iff_ne, ne_eq, Bool.and_eq_false_iff,
    decide_eq_false_iff_not, UInt8.le_iff_toNat_le, ← UInt8.toNat_inj]
  have h48 : (48 : UInt8).toNat = 48 := rfl
  have h32 : (32 : UInt8).toNat = 32 := rfl
  have h13 : (13 : UInt8).toNat = 13 := rfl
  omega

/-- The sign that `strtoll` reads: whether it is a minus, and its length. -/
def leadingSign (rest : Bytes) : Bool × Nat :=
  match rest with
  | 45 :: _ => (true, 1)
  | 43 :: _ => (false, 1)
  | _ => (false, 0)

theorem strtoll_eq (s : Bytes) : strtoll s =
    let spaces := (cStr s).takeWhile isSpace
    let rest := (cStr s).drop spaces.length
    let digits := (rest.drop (leadingSign rest).2).takeWhile isDigit
    if digits.isEmpty then (0, 0)
    else
      (saturate (if (leadingSign rest).1 then -(decimal digits : Int) else decimal digits),
        spaces.length + (leadingSign rest).2 + digits.length) := rfl

/-! ## Numerals are taken -/

section

variable {spaces sign digits : Bytes} {factor : Int}

theorem leadingSign_append (hsign : Sign sign factor) (hne : digits ≠ [])
    (hdigits : ∀ b ∈ digits, isDigit b = true) :
    leadingSign (sign ++ digits) = (decide (factor = -1), sign.length) := by
  cases hsign with
  | none =>
    cases digits with
    | nil => exact absurd rfl hne
    | cons d ds =>
      have hd := hdigits d List.mem_cons_self
      rw [List.nil_append]
      unfold leadingSign
      split
      · rename_i heq
        rw [(List.cons.inj heq).1] at hd
        exact absurd hd (by decide)
      · rename_i heq
        rw [(List.cons.inj heq).1] at hd
        exact absurd hd (by decide)
      · rfl
  | plus => rfl
  | minus => rfl

theorem takeWhile_space_append (hspaces : ∀ b ∈ spaces, isSpace b = true)
    (hsign : Sign sign factor) (hne : digits ≠ []) (hdigits : ∀ b ∈ digits, isDigit b = true) :
    (spaces ++ (sign ++ digits)).takeWhile isSpace = spaces := by
  have hstop : (sign ++ digits).takeWhile isSpace = [] := by
    cases hsign with
    | none =>
      cases digits with
      | nil => exact absurd rfl hne
      | cons d ds =>
        have hd := isDigit_not_space (hdigits d List.mem_cons_self)
        rw [List.nil_append, List.takeWhile_cons_of_neg (by rw [hd]; exact Bool.false_ne_true)]
    | plus => rfl
    | minus => rfl
  rw [List.takeWhile_append_of_pos hspaces, hstop, List.append_nil]

theorem cStr_numeral (hspaces : ∀ b ∈ spaces, isSpace b = true) (hsign : Sign sign factor)
    (hdigits : ∀ b ∈ digits, isDigit b = true) :
    cStr (spaces ++ (sign ++ digits)) = spaces ++ (sign ++ digits) := by
  apply List.takeWhile_eq_self_iff.mpr
  intro b hb
  apply decide_eq_true
  rintro rfl
  rcases List.mem_append.mp hb with hb | hb
  · exact absurd (hspaces 0 hb) (by decide)
  · rcases List.mem_append.mp hb with hb | hb
    · cases hsign <;> simp at hb
    · exact absurd (hdigits 0 hb) (by decide)

theorem strtoll_append (hspaces : ∀ b ∈ spaces, isSpace b = true) (hsign : Sign sign factor)
    (hne : digits ≠ []) (hdigits : ∀ b ∈ digits, isDigit b = true) :
    strtoll (spaces ++ (sign ++ digits)) =
      (saturate (factor * decimal digits), (spaces ++ (sign ++ digits)).length) := by
  have hall : digits.takeWhile isDigit = digits := List.takeWhile_eq_self_iff.mpr hdigits
  have hempty : digits.isEmpty = false := by
    rw [List.isEmpty_eq_false_iff]
    exact hne
  rw [strtoll_eq, cStr_numeral hspaces hsign hdigits]
  dsimp only
  rw [takeWhile_space_append hspaces hsign hne hdigits, List.drop_left,
    leadingSign_append hsign hne hdigits, List.drop_left, hall, hempty, if_neg Bool.false_ne_true,
    List.length_append, List.length_append, Nat.add_assoc]
  cases hsign <;> simp

end

/-! ## Nothing else is taken -/

theorem leadingSign_spec (rest : Bytes) : ∃ sign factor, Sign sign factor ∧
    leadingSign rest = (decide (factor = -1), sign.length) ∧
    rest = sign ++ rest.drop (leadingSign rest).2 := by
  unfold leadingSign
  split
  · exact ⟨_, _, .minus, rfl, rfl⟩
  · exact ⟨_, _, .plus, rfl, rfl⟩
  · exact ⟨_, _, .none, rfl, rfl⟩

/-- A string that is consumed to its end is empty or a numeral. -/
theorem numeral_of_consumed {s : Bytes} (h : (strtoll s).2 = s.length) :
    s = [] ∨ ∃ v, Numeral s v := by
  rw [strtoll_eq] at h
  dsimp only at h
  set spaces := (cStr s).takeWhile isSpace with hspaces
  set rest := (cStr s).drop spaces.length with hrest
  set digits := (rest.drop (leadingSign rest).2).takeWhile isDigit with hdigits
  cases hempty : digits.isEmpty with
  | true =>
    rw [hempty, if_pos rfl] at h
    exact Or.inl (List.length_eq_zero_iff.mp h.symm)
  | false =>
    rw [hempty, if_neg Bool.false_ne_true] at h
    obtain ⟨sign, factor, hsign, hlead, hsplit⟩ := leadingSign_spec rest
    have hwhole : cStr s = spaces ++ (sign ++ rest.drop (leadingSign rest).2) := by
      rw [← hsplit, hrest]
      exact (List.prefix_iff_eq_append.mp (List.takeWhile_prefix _)).symm
    have hlen := congrArg List.length hwhole
    have hc : (cStr s).length ≤ s.length := (List.takeWhile_prefix _).length_le
    have hd : digits.length ≤ (rest.drop (leadingSign rest).2).length :=
      (List.takeWhile_prefix _).length_le
    have hsigned : (leadingSign rest).2 = sign.length := by rw [hlead]
    rw [List.length_append, List.length_append] at hlen
    -- Both the NUL and the end of the digits are the end of the string.
    have hcs : cStr s = s :=
      (List.takeWhile_prefix _).eq_of_length_le (show s.length ≤ (cStr s).length by omega)
    have hds : digits = rest.drop (leadingSign rest).2 :=
      (List.takeWhile_prefix _).eq_of_length_le
        (show (rest.drop (leadingSign rest).2).length ≤ digits.length by omega)
    rw [← hds, hcs] at hwhole
    rw [hwhole]
    exact Or.inr ⟨_, .mk (fun b hb => List.mem_takeWhile_imp hb) hsign
      (List.isEmpty_eq_false_iff.mp hempty) fun b hb => List.mem_takeWhile_imp hb⟩

theorem Numeral.strtoll {s : Bytes} {v : Int} (h : Numeral s v) :
    strtoll s = (saturate v, s.length) := by
  obtain ⟨hspaces, hsign, hne, hdigits⟩ := h
  exact strtoll_append hspaces hsign hne hdigits

/-- A string is a numeral for one number. -/
theorem Numeral.unique {s : Bytes} {v w : Int} (hv : Numeral s v) (hw : Numeral s w) : v = w := by
  generalize hs : s = t at hw
  obtain ⟨hspaces, hsign, hne, hdigits⟩ := hv
  obtain ⟨hspaces', hsign', hne', hdigits'⟩ := hw
  have heq := congrArg (List.takeWhile isSpace) hs
  rw [takeWhile_space_append hspaces hsign hne hdigits,
    takeWhile_space_append hspaces' hsign' hne' hdigits'] at heq
  rw [heq] at hs
  have hrest := List.append_cancel_left hs
  have hlead := congrArg leadingSign hrest
  rw [leadingSign_append hsign hne hdigits, leadingSign_append hsign' hne' hdigits'] at hlead
  obtain ⟨hfactor, hlen⟩ := Prod.mk.inj hlead
  rw [(List.append_inj hrest hlen).2]
  congr 1
  cases hsign <;> cases hsign' <;> first | rfl | exact absurd hfactor (by decide)

theorem saturate_of {v : Int} (h : InInt64 v) : saturate v = v := by
  obtain ⟨hlow, hhigh⟩ := h
  unfold saturate
  omega

theorem saturate_inInt64 (v : Int) : InInt64 (saturate v) := by
  unfold saturate InInt64
  omega

theorem toInt_saturate (v : Int) : (Int64.ofInt (saturate v)).toInt = saturate v :=
  Int64.toInt_ofInt_of_le (saturate_inInt64 v).1 (saturate_inInt64 v).2

/-- **What `str2int` takes**: a numeral, for the nearest number of 64 bits, and the empty string for
    0. -/
theorem str2int_spec (s : Bytes) (x : Int64) : str2int s = some x ↔
    s = [] ∧ x = 0 ∨ ∃ v, Numeral s v ∧ x.toInt = saturate v := by
  have heq : str2int s =
      if (strtoll s).2 = s.length then some (Int64.ofInt (strtoll s).1) else none := rfl
  rw [heq]
  constructor
  · intro h
    by_cases hcons : (strtoll s).2 = s.length
    · rw [if_pos hcons] at h
      rcases numeral_of_consumed hcons with rfl | ⟨v, hv⟩
      · cases h
        exact Or.inl ⟨rfl, rfl⟩
      · rw [hv.strtoll] at h
        cases h
        exact Or.inr ⟨v, hv, toInt_saturate v⟩
    · rw [if_neg hcons] at h
      cases h
  · rintro (⟨rfl, rfl⟩ | ⟨v, hv, hx⟩)
    · rfl
    · rw [hv.strtoll, if_pos rfl, ← hx, Int64.ofInt_toInt]

-- The empty string, and a number that is too large by one.
example : str2int [] = some 0 ∧
    str2int (ascii "9223372036854775808") = some 9223372036854775807 := by decide

theorem str2int_eq_none {s : Bytes} : str2int s = none ↔ Malformed s := by
  constructor
  · intro hnone
    refine ⟨fun hnil => ?_, fun v hv => ?_⟩
    · have hsome := (str2int_spec s 0).mpr (Or.inl ⟨hnil, rfl⟩)
      rw [hnone] at hsome
      cases hsome
    · have hsome := (str2int_spec s _).mpr (Or.inr ⟨v, hv, toInt_saturate v⟩)
      rw [hnone] at hsome
      cases hsome
  · rintro ⟨hne, hnot⟩
    cases h : str2int s with
    | none => rfl
    | some x =>
      rcases (str2int_spec s x).mp h with ⟨hnil, -⟩ | ⟨v, hv, -⟩
      · exact absurd hnil hne
      · exact absurd hv (hnot v)

theorem DenotesInt64.regular {s : Bytes} (h : DenotesInt64 s) : Regular s := by
  obtain ⟨v, hv, hfit⟩ := h
  refine ⟨fun hnil => ?_, fun w hw => ?_⟩
  · rw [hnil] at hv
    exact not_numeral_nil v hv
  · rwa [hw.unique hv]

/-- The strings for which `str2int` is exact. -/
theorem str2int_exact (s : Bytes) :
    (∀ x, str2int s = some x → ∃ v, Numeral s v ∧ InInt64 v ∧ x.toInt = v) ↔ Regular s := by
  constructor
  · intro h
    constructor
    · rintro rfl
      obtain ⟨v, hv, -⟩ := h 0 rfl
      exact not_numeral_nil v hv
    · intro v hv
      obtain ⟨w, hw, hfit, -⟩ := h _ ((str2int_spec s _).mpr (Or.inr ⟨v, hv, toInt_saturate v⟩))
      rwa [hv.unique hw]
  · rintro ⟨hne, hfit⟩ x hx
    rcases (str2int_spec s x).mp hx with ⟨hnil, -⟩ | ⟨v, hv, heq⟩
    · exact absurd hnil hne
    · exact ⟨v, hv, hfit v hv, heq.trans (saturate_of (hfit v hv))⟩

/-- The strings that `str2int` refuses if they denote no number of 64 bits. -/
theorem refuses_iff (s : Bytes) : (¬ DenotesInt64 s → str2int s = none) ↔ Regular s := by
  constructor
  · intro h
    by_cases hden : DenotesInt64 s
    · exact hden.regular
    · obtain ⟨hne, hnot⟩ := str2int_eq_none.mp (h hden)
      exact ⟨hne, fun v hv => absurd hv (hnot v)⟩
  · rintro ⟨hne, hfit⟩ hden
    exact str2int_eq_none.mpr ⟨hne, fun v hv => hden ⟨v, hv, hfit v hv⟩⟩

end Greenis
