/-
  Programs that work on a part of the memory.

  `m.join d` is the memory `m`, and `d` where `m` has no cell. The primitives do to `m.join d` what
  they do to `m`, where they return there (the frame rule). `Follows r x y` says so of whole
  programs: if `x` returns a value, then `y` returns its image under `r`.
-/
import Greenis.Lib.Exec

namespace CExec

/-! ## Programs -/

section Programs

variable {α β γ δ : Type}

/-- Where `x` returns `a`, `y` returns `r a`. -/
def Follows (r : α → β) (x : Exec α) (y : Exec β) : Prop := ∀ a, x = .ok a → y = .ok (r a)

theorem Follows.ok (r : α → β) (a : α) : Follows r (.ok a) (.ok (r a)) := by
  rintro b ⟨⟩
  rfl

theorem Follows.refl (x : Exec α) : Follows id x x := fun _ h => h

theorem Follows.bind {r : α → β} {s : γ → δ} {x : Exec α} {y : Exec β} {f : α → Exec γ}
    {g : β → Exec δ} (h : Follows r x y) (hf : ∀ a, x = .ok a → Follows s (f a) (g (r a))) :
    Follows s (x >>= f) (y >>= g) := by
  intro c hc
  obtain ⟨a, ha, hc⟩ := bind_eq_ok.mp hc
  rw [h a ha, ok_bind]
  exact hf a ha c hc

/-- Both begin with the same program. -/
theorem Follows.after {s : γ → δ} (x : Exec α) {f : α → Exec γ} {g : α → Exec δ}
    (hf : ∀ a, x = .ok a → Follows s (f a) (g a)) : Follows s (x >>= f) (x >>= g) :=
  (Follows.refl x).bind hf

theorem Follows.ite {r : α → β} {c : Prop} [Decidable c] {x x' : Exec α} {y y' : Exec β}
    (h : Follows r x y) (h' : Follows r x' y') :
    Follows r (if c then x else x') (if c then y else y') := by
  split
  · exact h
  · exact h'

/-- `y` does what `x` does, in every case. -/
def Mirrors (r : α → β) (x : Exec α) (y : Exec β) : Prop := y = x >>= fun a => .ok (r a)

theorem Mirrors.ok (r : α → β) (a : α) : Mirrors r (.ok a) (.ok (r a)) := rfl

/-- A program that returns is followed exactly. -/
theorem Follows.mirrors {r : α → β} {x : Exec α} {y : Exec β} (h : Follows r x y) {a : α}
    (ha : x = .ok a) : Mirrors r x y := by
  unfold Mirrors
  rw [h a ha, ha, ok_bind]

theorem Mirrors.after {s : γ → δ} (x : Exec α) {f : α → Exec γ} {g : α → Exec δ}
    (hf : ∀ a, x = .ok a → Mirrors s (f a) (g a)) : Mirrors s (x >>= f) (x >>= g) := by
  cases x with
  | error e => rfl
  | ok a => exact hf a rfl

/-- The first parts return. -/
theorem Mirrors.bind {r : α → β} {s : γ → δ} {x : Exec α} {y : Exec β} {f : α → Exec γ}
    {g : β → Exec δ} (h : Follows r x y) {a : α} (ha : x = .ok a)
    (hf : Mirrors s (f a) (g (r a))) : Mirrors s (x >>= f) (y >>= g) := by
  rw [ha, h a ha]
  exact hf

theorem Mirrors.of_ok {r : α → β} {x : Exec α} {y : Exec β} (h : Mirrors r x y) {b : β}
    (hb : y = .ok b) : ∃ a, x = .ok a ∧ b = r a := by
  rw [h] at hb
  obtain ⟨a, ha, hb⟩ := bind_eq_ok.mp hb
  exact ⟨a, ha, (Except.ok.inj hb).symm⟩

/-- Of two programs that do what a third one does. -/
theorem Mirrors.compare {r : α → β} {s : α → γ} {f : β → γ} {x : Exec α} {y : Exec β} {z : Exec γ}
    (h : Mirrors r x y) (h' : Mirrors s x z) (hf : ∀ a, x = .ok a → f (r a) = s a) :
    Mirrors f y z := by
  unfold Mirrors at h h' ⊢
  rw [h, h']
  cases x with
  | error e => rfl
  | ok a =>
    simp only [ok_bind]
    rw [hf a rfl]

end Programs

/-! ## Memories -/

namespace Store

variable {α : Type} {m d m' : Store α} {p : Ptr}

def join (m d : Store α) : Store α := fun p => (m p).or (d p)

/-- No address is allocated in both. -/
def Apart (m d : Store α) : Prop := ∀ p, d p ≠ none → m p = none

/-- The cells outside of `s`, and those in it. -/
def hide (m : Store α) (s : Ptr → Bool) : Store α := fun p => if s p then none else m p

def only (m : Store α) (s : Ptr → Bool) : Store α := fun p => if s p then m p else none

theorem join_of_some {a : α} (h : m p = some a) : m.join d p = some a := by
  unfold join
  rw [h, Option.some_or]

theorem join_of_none (h : m p = none) : m.join d p = d p := by
  unfold join
  rw [h, Option.none_or]

theorem hide_join_only (m : Store α) (s : Ptr → Bool) : (m.hide s).join (m.only s) = m := by
  funext p
  unfold join hide only
  cases s p
  · rw [if_neg Bool.false_ne_true, if_neg Bool.false_ne_true, Option.or_none]
  · rw [if_pos rfl, if_pos rfl, Option.none_or]

theorem hide_apart_only (m : Store α) (s : Ptr → Bool) : (m.hide s).Apart (m.only s) := by
  intro p hp
  unfold only at hp
  unfold hide
  split at hp
  · rw [if_pos ‹_›]
  · exact absurd rfl hp

theorem load_join (m d : Store α) (p : Ptr) : Follows id (m.load p) ((m.join d).load p) :=
  fun _ h => load_eq_ok.mpr (join_of_some (load_eq_ok.mp h))

theorem write_join (m d : Store α) (p : Ptr) (a : α) :
    (m.join d).write p a = (m.write p a).join d := by
  funext q
  unfold join
  by_cases hq : q = p
  · rw [hq, write_same, write_same, Option.some_or]
  · rw [write_other _ _ hq, write_other _ _ hq]

theorem modify_join (m d : Store α) (p : Ptr) (f : α → α) :
    Follows (join · d) (m.modify p f) ((m.join d).modify p f) := by
  refine (load_join m d p).bind fun a _ => ?_
  rw [id_eq, write_join]
  exact Follows.ok _ _

theorem free_join (h : m.Apart d) (p : Ptr) :
    Follows (join · d) (m.free p) ((m.join d).free p) := by
  refine (load_join m d p).bind fun a ha => ?_
  have hp : d p = none := by
    by_contra hd
    have := h p hd
    rw [load_eq_ok.mp ha] at this
    cases this
  have hfree : Function.update (m.join d) p none = join (Function.update m p none) d := by
    funext q
    unfold join
    by_cases hq : q = p
    · rw [hq, Function.update_self, Function.update_self, hp, Option.or_none]
    · rw [Function.update_of_ne hq, Function.update_of_ne hq]
  rw [hfree]
  exact Follows.ok _ _

/-- Freeing a cell of `d`. -/
theorem update_join (h : m p = none) :
    Function.update (m.join d) p none = m.join (Function.update d p none) := by
  funext q
  unfold join
  by_cases hq : q = p
  · rw [hq, Function.update_self, Function.update_self, h, Option.or_none]
  · rw [Function.update_of_ne hq, Function.update_of_ne hq]

theorem Apart.update (h : m.Apart d) (p : Ptr) : m.Apart (Function.update d p none) := by
  intro q hq
  by_cases hqp : q = p
  · rw [hqp, Function.update_self] at hq
    exact absurd rfl hq
  · rw [Function.update_of_ne hqp] at hq
    exact h q hq

end Store

end CExec
