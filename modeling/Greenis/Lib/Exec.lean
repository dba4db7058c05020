/-
  Executions of C-like code as values of `Exec`.

  A function of the modelled program returns `.ok r`, or stops with a `Fault` where the C
  text would dereference a null or freed pointer, read outside an array, fail an assertion,
  overflow a signed integer, or run a loop longer than its budget. So `f x = .ok r` says
  at once that `f` returns `r` on `x` and that nothing of the above happens on the way.

  `Store` is a memory of cells of one type: `none` is an address that is not allocated.
-/
import Mathlib.Algebra.Group.Int.Defs
import Mathlib.Algebra.Group.Nat.Defs
import Mathlib.Logic.Function.Basic
import Mathlib.Data.List.Basic

namespace CExec

/-- Why an execution stops. `fuel` is a loop that outruns its iteration budget, `callee` any fault
    inside a call that is looked at from outside only. -/
inductive Fault where
  | null
  | bounds
  | assertion
  | overflow
  | fuel
  | callee
  deriving DecidableEq, Repr

abbrev Exec := Except Fault

section Monad

variable {α β : Type}

@[simp] theorem ok_bind (a : α) (f : α → Exec β) : ((Except.ok a : Exec α) >>= f) = f a := rfl

@[simp] theorem error_bind (e : Fault) (f : α → Exec β) :
    ((Except.error e : Exec α) >>= f) = .error e := rfl

@[simp] theorem pure_eq_ok (a : α) : (pure a : Exec α) = .ok a := rfl

/-- A sequence returns `b` exactly when its first part returns and the rest returns `b`. -/
theorem bind_eq_ok {x : Exec α} {f : α → Exec β} {b : β} :
    x >>= f = .ok b ↔ ∃ a, x = .ok a ∧ f a = .ok b := by
  cases x with
  | error e => simp
  | ok a => simp

/-- An execution has one result. -/
theorem ok_unique {x : Exec α} {a b : α} (h : x = .ok a) (h' : x = .ok b) : a = b :=
  Except.ok.inj (h.symm.trans h')

/-- `y` returns what `x` returns, as a loop does that has a larger budget. -/
def Below (x y : Exec α) : Prop := ∀ a, x = .ok a → y = .ok a

theorem Below.refl (x : Exec α) : Below x x := fun _ h => h

theorem Below.error (e : Fault) (y : Exec α) : Below (.error e) y := nofun

theorem Below.bind {x y : Exec α} {f g : α → Exec β} (h : Below x y) (hf : ∀ a, Below (f a) (g a)) :
    Below (x >>= f) (y >>= g) := fun b hb => by
  obtain ⟨a, hx, hfa⟩ := bind_eq_ok.mp hb
  exact bind_eq_ok.mpr ⟨a, h a hx, hf a b hfa⟩

/-- A step that both take. -/
theorem Below.step {x : Exec α} {f g : α → Exec β} (hf : ∀ a, Below (f a) (g a)) :
    Below (x >>= f) (x >>= g) := (Below.refl x).bind hf

/-- A call whose faults are not told apart. -/
def within (x : Exec α) : Exec α :=
  match x with
  | .ok a => .ok a
  | .error _ => .error .callee

theorem within_eq_ok {x : Exec α} {a : α} : within x = .ok a ↔ x = .ok a := by
  cases x <;> simp [within]

theorem within_eq_error {x : Exec α} {e : Fault} (h : within x = .error e) : e = .callee := by
  cases x <;> simp_all [within]

/-- No fault happens inside a call that is looked at from outside only. -/
def Clean (x : Exec α) : Prop := x ≠ .error .callee

theorem Clean.ok (a : α) : Clean (.ok a) := nofun

theorem Clean.of_ok {x : Exec α} (h : ∃ a, x = .ok a) : Clean x := by
  obtain ⟨a, rfl⟩ := h
  exact .ok a

theorem Clean.bind {x : Exec α} {f : α → Exec β} (hx : Clean x)
    (hf : ∀ a, x = .ok a → Clean (f a)) : Clean (x >>= f) := by
  cases x with
  | error e => exact fun he => hx (congrArg Except.error (Except.error.inj he))
  | ok a => exact hf a rfl

/-- Follow a pointer that may be null. -/
def deref : Option α → Exec α
  | some a => .ok a
  | none => .error .null

@[simp] theorem deref_some (a : α) : deref (some a) = .ok a := rfl

theorem clean_deref (p : Option α) : Clean (deref p) := by
  cases p <;> exact nofun

/-- `xs[i]` on a vector. -/
def index (xs : List α) (i : Nat) : Exec α :=
  match xs[i]? with
  | some a => .ok a
  | none => .error .bounds

theorem index_of_getElem? {xs : List α} {i : Nat} {a : α} (h : xs[i]? = some a) :
    index xs i = .ok a := by
  unfold index
  rw [h]

theorem index_of_lt {xs : List α} {i : Nat} (h : i < xs.length) : index xs i = .ok xs[i] :=
  index_of_getElem? (List.getElem?_eq_getElem h)

theorem clean_index (xs : List α) (i : Nat) : Clean (index xs i) := by
  unfold index
  split <;> exact nofun

/-- The `n` elements from `xs[i]` on. -/
def slice (xs : List α) (i n : Nat) : Exec (List α) :=
  if i + n ≤ xs.length then .ok ((xs.drop i).take n) else .error .bounds

theorem slice_of_le {xs : List α} {i n : Nat} (h : i + n ≤ xs.length) :
    slice xs i n = .ok ((xs.drop i).take n) := if_pos h

/-- `assert(b)`. -/
def check (b : Bool) : Exec Unit := if b then .ok () else .error .assertion

theorem check_of {b : Bool} (h : b = true) : check b = .ok () := if_pos h

theorem clean_check (b : Bool) : Clean (check b) := by
  cases b <;> exact nofun

end Monad

/-! ## Memories -/

abbrev Ptr := Nat

/-- A memory of cells of type `α`. -/
abbrev Store (α : Type) := Ptr → Option α

namespace Store

variable {α : Type}

def load (m : Store α) (p : Ptr) : Exec α := deref (m p)

def write (m : Store α) (p : Ptr) (a : α) : Store α := Function.update m p (some a)

/-- Assign to fields of the cell at `p`. -/
def modify (m : Store α) (p : Ptr) (f : α → α) : Exec (Store α) := do
  let a ← m.load p
  .ok (m.write p (f a))

/-- `free(p)`: a second `free` of the same cell is a fault. -/
def free (m : Store α) (p : Ptr) : Exec (Store α) := do
  let _ ← m.load p
  .ok (Function.update m p none)

theorem load_of {m : Store α} {p : Ptr} {a : α} (h : m p = some a) : m.load p = .ok a := by
  simp [load, h]

theorem load_eq_ok {m : Store α} {p : Ptr} {a : α} : m.load p = .ok a ↔ m p = some a := by
  unfold load deref
  cases m p <;> simp

theorem modify_of {m : Store α} {p : Ptr} {a : α} (h : m p = some a) (f : α → α) :
    m.modify p f = .ok (m.write p (f a)) := by
  simp [modify, load_of h]

theorem clean_load (m : Store α) (p : Ptr) : Clean (m.load p) := clean_deref _

theorem clean_modify (m : Store α) (p : Ptr) (f : α → α) : Clean (m.modify p f) :=
  (clean_load m p).bind fun _ _ => .ok _

theorem clean_free (m : Store α) (p : Ptr) : Clean (m.free p) :=
  (clean_load m p).bind fun _ _ => .ok _

theorem free_of {m : Store α} {p : Ptr} {a : α} (h : m p = some a) :
    m.free p = .ok (Function.update m p none) := by
  simp [free, load_of h]

@[simp] theorem write_same (m : Store α) (p : Ptr) (a : α) : m.write p a p = some a := by
  simp [write]

theorem write_other (m : Store α) {p q : Ptr} (a : α) (h : q ≠ p) : m.write p a q = m q := by
  simp [write, h]

theorem write_apply (m : Store α) (p q : Ptr) (a : α) :
    m.write p a q = if q = p then some a else m q := by
  by_cases h : q = p
  · simp [h]
  · simp [h, write_other]

end Store

end CExec
