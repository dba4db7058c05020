/-
  Threads that wait on a condition variable.

  `asleep` tells the threads that are blocked, and `woken` is a thread after it has been woken. A
  signal wakes some threads, at least one if any is blocked. With a demand of `n` for threads that
  are awake, one signal is enough for a demand that has grown by one (`Signalled.supply`).
-/
import Mathlib.Data.List.Forall2

namespace CondVar

variable {τ : Type} {asleep : τ → Bool} {woken : τ}

/-- The number of threads that are awake. -/
def awake (asleep : τ → Bool) (ts : List τ) : Nat := ts.countP fun t => !asleep t

/-- Some blocked threads have been woken. -/
def Woke (asleep : τ → Bool) (woken : τ) : List τ → List τ → Prop :=
  List.Forall₂ fun t t' => t' = t ∨ (asleep t = true ∧ t' = woken)

/-- What a signal does: it wakes at least one thread if any is blocked. -/
structure Signalled (asleep : τ → Bool) (woken : τ) (ts ts' : List τ) : Prop where
  woke : Woke asleep woken ts ts'
  one : (∃ t ∈ ts, asleep t = true) → ts' ≠ ts

/-- What `n` signals do, one after another. -/
inductive Signals (asleep : τ → Bool) (woken : τ) : Nat → List τ → List τ → Prop
  | zero (ts : List τ) : Signals asleep woken 0 ts ts
  | succ {n : Nat} {ts ts1 ts' : List τ} : Signalled asleep woken ts ts1 →
      Signals asleep woken n ts1 ts' → Signals asleep woken (n + 1) ts ts'

/-- Enough threads are awake for a demand of `n`. -/
def Supplied (asleep : τ → Bool) (n : Nat) (ts : List τ) : Prop :=
  min n ts.length ≤ awake asleep ts

theorem awake_cons (t : τ) (ts : List τ) :
    awake asleep (t :: ts) = awake asleep ts + if asleep t then 0 else 1 := by
  unfold awake
  rw [List.countP_cons]
  cases asleep t <;> rfl

theorem awake_eq_length {ts : List τ} (h : ¬ ∃ t ∈ ts, asleep t = true) :
    awake asleep ts = ts.length := by
  apply List.countP_eq_length.mpr
  intro t ht
  cases hs : asleep t with
  | false => rfl
  | true => exact absurd ⟨t, ht, hs⟩ h

theorem Woke.awake_le {ts ts' : List τ} (h : Woke asleep woken ts ts')
    (hwoken : asleep woken = false) : awake asleep ts ≤ awake asleep ts' := by
  induction h with
  | nil => exact Nat.le_refl _
  | cons hhead _ ih =>
    rw [awake_cons, awake_cons]
    rcases hhead with rfl | ⟨hs, rfl⟩
    · omega
    · rw [hs, hwoken]
      simp only [if_true, Bool.false_eq_true, if_false]
      omega

/-- A thread that has been woken counts. -/
theorem Woke.awake_lt {ts ts' : List τ} (h : Woke asleep woken ts ts')
    (hwoken : asleep woken = false) (hne : ts' ≠ ts) : awake asleep ts < awake asleep ts' := by
  induction h with
  | nil => exact absurd rfl hne
  | @cons t t' ts ts' hhead htail ih =>
    have hle : awake asleep ts ≤ awake asleep ts' := Woke.awake_le htail hwoken
    rw [awake_cons, awake_cons]
    rcases hhead with rfl | ⟨hs, rfl⟩
    · have hlt := ih fun heq => hne (congrArg _ heq)
      omega
    · rw [hs, hwoken]
      simp only [if_true, Bool.false_eq_true, if_false]
      omega

theorem Woke.length_eq {ts ts' : List τ} (h : Woke asleep woken ts ts') :
    ts'.length = ts.length :=
  (List.Forall₂.length_eq h).symm

/-- One signal is enough for a demand that grows by one. -/
theorem Signalled.supply {ts ts' : List τ} {n : Nat} (h : Signalled asleep woken ts ts')
    (hwoken : asleep woken = false) (hn : Supplied asleep n ts) :
    Supplied asleep (n + 1) ts' := by
  unfold Supplied at hn ⊢
  have hlen := h.woke.length_eq
  by_cases hs : ∃ t ∈ ts, asleep t = true
  · have hlt := h.woke.awake_lt hwoken (h.one hs)
    omega
  · have hall := awake_eq_length hs
    have hle := h.woke.awake_le hwoken
    omega

theorem Signals.supply {ts ts' : List τ} {k n : Nat} (h : Signals asleep woken k ts ts')
    (hwoken : asleep woken = false) (hn : Supplied asleep n ts) :
    Supplied asleep (n + k) ts' := by
  induction h generalizing n with
  | zero => exact hn
  | succ hsignal _ ih =>
    have := ih (hsignal.supply hwoken hn)
    rwa [Nat.add_assoc, Nat.add_comm 1] at this

theorem Woke.refl (ts : List τ) : Woke asleep woken ts ts :=
  List.forall₂_same.mpr fun _ _ => Or.inl rfl

theorem Woke.trans {ts ts1 ts' : List τ} (h : Woke asleep woken ts ts1)
    (h' : Woke asleep woken ts1 ts') (hwoken : asleep woken = false) :
    Woke asleep woken ts ts' := by
  induction h generalizing ts' with
  | nil => exact h'
  | cons hhead _ ih =>
    cases h' with
    | cons hhead' htail' =>
      refine .cons ?_ (ih htail')
      rcases hhead with rfl | ⟨hs, rfl⟩
      · exact hhead'
      · rcases hhead' with rfl | ⟨hs', -⟩
        · exact Or.inr ⟨hs, rfl⟩
        · rw [hwoken] at hs'
          cases hs'

theorem Signals.woke {ts ts' : List τ} {k : Nat} (h : Signals asleep woken k ts ts')
    (hwoken : asleep woken = false) : Woke asleep woken ts ts' := by
  induction h with
  | zero => exact Woke.refl _
  | succ hsignal _ ih => exact hsignal.woke.trans ih hwoken

/-- A thread that is neither blocked nor woken by the signal is where it was. -/
theorem Woke.getElem?_eq {ts ts' : List τ} (h : Woke asleep woken ts ts') {i : Nat} {t : τ}
    (hawake : asleep t = false) (hne : t ≠ woken) : ts'[i]? = some t ↔ ts[i]? = some t := by
  induction h generalizing i with
  | nil => rfl
  | cons hhead _ ih =>
    cases i with
    | zero =>
      rw [List.getElem?_cons_zero, List.getElem?_cons_zero]
      rcases hhead with rfl | ⟨hs, rfl⟩
      · rfl
      · constructor
        · exact fun h => absurd (Option.some.inj h).symm hne
        · intro h
          rw [Option.some.inj h, hawake] at hs
          cases hs
    | succ i => exact ih

/-- Signals that find nobody asleep. -/
theorem signals_awake {ts : List τ} (h : ∀ t ∈ ts, asleep t = false) (n : Nat) :
    Signals asleep woken n ts ts := by
  induction n with
  | zero => exact .zero ts
  | succ n ih =>
    refine .succ ⟨Woke.refl ts, ?_⟩ ih
    rintro ⟨t, ht, hs⟩
    rw [h t ht] at hs
    cases hs

/-- One thread moves on. -/
theorem awake_set {ts : List τ} {i : Nat} {t : τ} (h : ts[i]? = some t) (t' : τ) :
    awake asleep (ts.set i t') + (if asleep t then 0 else 1) =
      awake asleep ts + if asleep t' then 0 else 1 := by
  induction ts generalizing i with
  | nil => cases h
  | cons u ts ih =>
    cases i with
    | zero =>
      cases h
      rw [List.set_cons_zero, awake_cons, awake_cons]
      omega
    | succ i =>
      have := ih h
      rw [List.set_cons_succ, awake_cons, awake_cons]
      omega

end CondVar
