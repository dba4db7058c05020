/-
  Requests, and the bytes that stand for them.

  A command is the number of its strings, then each string with its length before it. A frame is a
  body with its length before it; all numbers are 32-bit fields. The bytes a server has received
  are a sequence of valid frames (`Frames`), then bytes that begin with an unfinished or an invalid
  frame (`head_cases`).
-/
import Mathlib.Algebra.Ring.Nat
import Greenis.Lib.LittleEndian
import Greenis.Model.Defs

namespace Greenis
open LittleEndian

def encodeStr (s : Bytes) : Bytes := bytesOf 4 s.length ++ s

def encodeCmd (cmd : List Bytes) : Bytes := bytesOf 4 cmd.length ++ cmd.flatMap encodeStr

def frame (body : Bytes) : Bytes := bytesOf 4 body.length ++ body

/-- The body `body` is a request for the command `cmd`. -/
structure IsRequest (body : Bytes) (cmd : List Bytes) : Prop where
  bytes : body = encodeCmd cmd
  args : cmd.length ≤ kMaxArgs
  short : ∀ s ∈ cmd, s.length < 2 ^ 32

@[simp] theorem length_encodeStr (s : Bytes) : (encodeStr s).length = 4 + s.length := by
  simp [encodeStr]

theorem length_encodeCmd (cmd : List Bytes) :
    (encodeCmd cmd).length = 4 + (cmd.map fun s => 4 + s.length).sum := by
  rw [encodeCmd, List.length_append, length_bytesOf, List.length_flatMap]
  simp only [length_encodeStr]

@[simp] theorem length_frame (body : Bytes) : (frame body).length = 4 + body.length := by
  simp [frame]

theorem encodeStrs_injective {cmd cmd' : List Bytes} (h : ∀ s ∈ cmd, s.length < 2 ^ 32)
    (h' : ∀ s ∈ cmd', s.length < 2 ^ 32) (hlen : cmd.length = cmd'.length)
    (he : cmd.flatMap encodeStr = cmd'.flatMap encodeStr) : cmd = cmd' := by
  induction cmd generalizing cmd' with
  | nil => exact (List.eq_nil_of_length_eq_zero hlen.symm).symm
  | cons s cmd ih =>
    cases cmd' with
    | nil => cases hlen
    | cons s' cmd' =>
      simp only [List.flatMap_cons, encodeStr, List.append_assoc] at he
      have hfield := List.append_inj he (by simp)
      have hs : s.length = s'.length := by
        rw [← valueOf_bytesOf_of_lt (w := 4) (h s List.mem_cons_self), hfield.1,
          valueOf_bytesOf_of_lt (h' s' List.mem_cons_self)]
      obtain ⟨rfl, hrest⟩ := List.append_inj hfield.2 hs
      rw [ih (fun x hx => h x (List.mem_cons_of_mem _ hx))
        (fun x hx => h' x (List.mem_cons_of_mem _ hx)) (Nat.succ.inj hlen) hrest]

theorem IsRequest.unique {body : Bytes} {cmd cmd' : List Bytes} (h : IsRequest body cmd)
    (h' : IsRequest body cmd') : cmd = cmd' := by
  have hmax : kMaxArgs < 256 ^ 4 := by decide
  have hbytes := List.append_inj (h.bytes.symm.trans h'.bytes) (by simp)
  have hlen : cmd.length = cmd'.length := by
    rw [← valueOf_bytesOf_of_lt (Nat.lt_of_le_of_lt h.args hmax), hbytes.1,
      valueOf_bytesOf_of_lt (Nat.lt_of_le_of_lt h'.args hmax)]
  exact encodeStrs_injective h.short h'.short hlen hbytes.2

/-! ## Streams of frames -/

/-- The number in the first four bytes. -/
def headerOf (b : Bytes) : Nat := valueOf (b.take 4)

/-- The bytes begin with a valid frame for `cmd`, then `rest`. -/
def StartsWith (b : Bytes) (cmd : List Bytes) (rest : Bytes) : Prop :=
  ∃ body, b = frame body ++ rest ∧ body.length ≤ kMaxMsg ∧ IsRequest body cmd

/-- The bytes begin with a header that is too large, or with a whole frame that is no request. -/
def Invalid (b : Bytes) : Prop :=
  (4 ≤ b.length ∧ kMaxMsg < headerOf b) ∨
    ∃ body rest, b = frame body ++ rest ∧ body.length ≤ kMaxMsg ∧ ∀ cmd, ¬ IsRequest body cmd

/-- More bytes are needed to tell. -/
def Unfinished (b : Bytes) : Prop :=
  b.length < 4 ∨ (headerOf b ≤ kMaxMsg ∧ b.length < 4 + headerOf b)

/-- `b` is valid frames for `cmds`, in order, then `rest`. -/
inductive Frames : Bytes → List (List Bytes) → Bytes → Prop
  | nil (b : Bytes) : Frames b [] b
  | cons {b b' rest : Bytes} {cmd : List Bytes} {cmds : List (List Bytes)} :
      StartsWith b cmd b' → Frames b' cmds rest → Frames b (cmd :: cmds) rest

theorem headerOf_frame {body : Bytes} (h : body.length ≤ kMaxMsg) (rest : Bytes) :
    headerOf (frame body ++ rest) = body.length := by
  have hlt : body.length < 256 ^ 4 := by unfold kMaxMsg at h; omega
  rw [headerOf, frame, List.append_assoc, List.take_left' (length_bytesOf 4 _),
    valueOf_bytesOf_of_lt hlt]

/-- A whole frame, by its header. -/
theorem eq_frame {b : Bytes} (h4 : 4 ≤ b.length) (hlen : 4 + headerOf b ≤ b.length) :
    b = frame ((b.drop 4).take (headerOf b)) ++ b.drop (4 + headerOf b) := by
  have hbody : ((b.drop 4).take (headerOf b)).length = headerOf b := by
    rw [List.length_take_of_le]
    rw [List.length_drop]
    omega
  have htake : bytesOf 4 (headerOf b) = b.take 4 := by
    have := bytesOf_valueOf (b.take 4)
    rwa [List.length_take_of_le h4] at this
  rw [frame, hbody, htake, List.append_assoc, ← List.drop_drop, List.take_append_drop,
    List.take_append_drop]

theorem head_cases (b : Bytes) :
    Unfinished b ∨ Invalid b ∨ ∃ cmd rest, StartsWith b cmd rest := by
  by_cases h4 : b.length < 4
  · exact Or.inl (Or.inl h4)
  · by_cases hmax : kMaxMsg < headerOf b
    · exact Or.inr (Or.inl (Or.inl ⟨by omega, hmax⟩))
    · by_cases hlen : b.length < 4 + headerOf b
      · exact Or.inl (Or.inr ⟨by omega, hlen⟩)
      · have heq := eq_frame (by omega) (by omega : 4 + headerOf b ≤ b.length)
        have hbody : ((b.drop 4).take (headerOf b)).length ≤ kMaxMsg :=
          Nat.le_trans (List.length_take_le _ _) (by omega)
        by_cases hreq : ∃ cmd, IsRequest ((b.drop 4).take (headerOf b)) cmd
        · obtain ⟨cmd, hcmd⟩ := hreq
          exact Or.inr (Or.inr ⟨cmd, _, _, heq, hbody, hcmd⟩)
        · exact Or.inr (Or.inl (Or.inr ⟨_, _, heq, hbody, fun cmd h => hreq ⟨cmd, h⟩⟩))

theorem frame_injective {body body' rest rest' : Bytes} (h : body.length ≤ kMaxMsg)
    (h' : body'.length ≤ kMaxMsg) (he : frame body ++ rest = frame body' ++ rest') :
    body = body' ∧ rest = rest' := by
  have hlen : body.length = body'.length := by
    rw [← headerOf_frame h rest, he, headerOf_frame h']
  have hframe := List.append_inj he (by simp [hlen])
  exact ⟨(List.append_inj hframe.1 (by simp)).2, hframe.2⟩

theorem StartsWith.unique {b rest rest' : Bytes} {cmd cmd' : List Bytes}
    (h : StartsWith b cmd rest) (h' : StartsWith b cmd' rest') : cmd = cmd' ∧ rest = rest' := by
  obtain ⟨body, rfl, hlen, hreq⟩ := h
  obtain ⟨body', he, hlen', hreq'⟩ := h'
  obtain ⟨rfl, rfl⟩ := frame_injective hlen hlen' he
  exact ⟨hreq.unique hreq', rfl⟩

/-- What begins with a valid frame begins with nothing else. -/
theorem StartsWith.not_other {b rest : Bytes} {cmd : List Bytes} (h : StartsWith b cmd rest) :
    ¬ Unfinished b ∧ ¬ Invalid b := by
  obtain ⟨body, rfl, hlen, hreq⟩ := h
  have hhead := headerOf_frame hlen rest
  refine ⟨?_, ?_⟩
  · rintro (hlt | ⟨-, hlt⟩)
    · rw [List.length_append, length_frame] at hlt
      omega
    · rw [hhead, List.length_append, length_frame] at hlt
      omega
  · rintro (⟨-, hmax⟩ | ⟨body', rest', he, hlen', hno⟩)
    · rw [hhead] at hmax
      omega
    · obtain ⟨rfl, rfl⟩ := frame_injective hlen hlen' he
      exact hno cmd hreq

theorem Invalid.not_unfinished {b : Bytes} (h : Invalid b) : ¬ Unfinished b := by
  rcases h with ⟨h4, hmax⟩ | ⟨body, rest, rfl, hlen, -⟩
  · rintro (hlt | ⟨hle, -⟩) <;> omega
  · rintro (hlt | ⟨-, hlt⟩)
    · rw [List.length_append, length_frame] at hlt
      omega
    · rw [headerOf_frame hlen, List.length_append, length_frame] at hlt
      omega

theorem Frames.append {b b' rest : Bytes} {cmds cmds' : List (List Bytes)} (h : Frames b cmds b')
    (h' : Frames b' cmds' rest) : Frames b (cmds ++ cmds') rest := by
  induction h with
  | nil => exact h'
  | cons hs _ ih => exact .cons hs (ih h')

/-- More bytes at the end of the stream. -/
theorem Frames.extend {b rest : Bytes} {cmds : List (List Bytes)} (h : Frames b cmds rest)
    (more : Bytes) : Frames (b ++ more) cmds (rest ++ more) := by
  induction h with
  | nil => exact .nil _
  | cons hs _ ih =>
    obtain ⟨body, rfl, hlen, hreq⟩ := hs
    exact .cons ⟨body, List.append_assoc _ _ _, hlen, hreq⟩ ih

/-- The longest sequence of valid frames is unique. -/
theorem Frames.unique {b rest rest' : Bytes} {cmds cmds' : List (List Bytes)}
    (h : Frames b cmds rest) (h' : Frames b cmds' rest')
    (hmax : ∀ cmd r, ¬ StartsWith rest cmd r) (hmax' : ∀ cmd r, ¬ StartsWith rest' cmd r) :
    cmds = cmds' ∧ rest = rest' := by
  induction h generalizing cmds' with
  | nil b =>
    cases h' with
    | nil => exact ⟨rfl, rfl⟩
    | cons hs _ => exact absurd hs (hmax _ _)
  | cons hs _ ih =>
    cases h' with
    | nil => exact absurd hs (hmax' _ _)
    | cons hs' htail =>
      obtain ⟨rfl, rfl⟩ := hs.unique hs'
      obtain ⟨rfl, rfl⟩ := ih htail hmax
      exact ⟨rfl, rfl⟩

end Greenis
