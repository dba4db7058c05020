/-
  Integer arguments of commands.

  `pexpire` and `zquery` refuse what `str2int` refuses. What it takes without being a number of 64
  bits, the empty string and numerals that are too large, they act on (`int_arguments_exact`):
  `pexpire k ""` sets a TTL of 0 (`empty_ttl_sets`).
-/
import Greenis.Proofs.Numerals
import Greenis.Proofs.TtlPass

namespace Greenis
open CExec LTS LittleEndian

/-! ## Replies that are no `ERR_BAD_ARG` -/

section Refusals

variable {out : Buffer} {msg : Bytes}

theorem badArg_ne_tag {tag : UInt8} (htag : tag ≠ tagErr) (bs : Bytes) :
    outErr out .badArg msg ≠ out ++ tag :: bs := by
  rw [outErr_eq]
  intro h
  exact htag (List.cons.inj (List.append_cancel_left h)).1.symm

theorem badArg_ne_badTyp (msg' : Bytes) : outErr out .badArg msg ≠ outErr out .badTyp msg' := by
  rw [outErr_eq, outErr_eq]
  intro h
  have htail := (List.cons.inj (List.append_cancel_left h)).2
  rw [List.append_assoc, List.append_assoc] at htail
  exact absurd (List.append_inj htail rfl).1 (by decide)

end Refusals

/-! ## Commands -/

section Commands

variable {strtod : Strtod} {g : KData} {a : Keyspace}

theorem doRequest_pexpire (strtod : Strtod) (g : KData) (now : UInt64) (key arg : Bytes)
    (out : Buffer) : doRequest strtod g now [ascii "pexpire", key, arg] out =
      doExpire g now [ascii "pexpire", key, arg] out := rfl

theorem doRequest_zquery (strtod : Strtod) (g : KData) (now : UInt64)
    (key score name offset limit : Bytes) (out : Buffer) :
    doRequest strtod g now [ascii "zquery", key, score, name, offset, limit] out =
      doZquery strtod g [ascii "zquery", key, score, name, offset, limit] out := rfl

/-- `pexpire` refuses what `str2int` refuses, and then no expiry changes. -/
theorem pexpire_refuses (h : Refines g a) (now : UInt64) (key arg : Bytes) (out : Buffer) :
    (∃ g' a' msg, doRequest strtod g now [ascii "pexpire", key, arg] out =
        .ok (g', outErr out .badArg msg) ∧ Refines g' a' ∧
        ∀ k, a'.expiryAt k = a.expiryAt k) ↔ str2int arg = none := by
  rw [doRequest_pexpire]
  constructor
  · rintro ⟨g', a', msg, hrun, -⟩
    obtain ⟨res, hrun', hans⟩ := doExpire_spec h now (ascii "pexpire") key arg out
    cases ok_unique hrun' hrun
    cases hx : str2int arg with
    | none => rfl
    | some ttlMs =>
      rw [hx] at hans
      obtain ⟨r, hout, rfl⟩ := hans.reply
      exact absurd hout (badArg_ne_tag (by decide) _)
  · intro hnone
    refine ⟨g, a, ascii "expect int64", ?_, h, fun _ => rfl⟩
    unfold doExpire
    rw [index_of_getElem? (a := arg) rfl, ok_bind, hnone]

/-- `zquery` refuses what `str2dbl` and `str2int` refuse. -/
theorem zquery_refuses (h : Refines g a) (now : UInt64) (key score name offset limit : Bytes)
    (out : Buffer) :
    (∃ g' msg, doRequest strtod g now [ascii "zquery", key, score, name, offset, limit] out =
        .ok (g', outErr out .badArg msg)) ↔
      str2dbl strtod score = none ∨ str2int offset = none ∨ str2int limit = none := by
  rw [doRequest_zquery]
  constructor
  · rintro ⟨g', msg, hrun⟩
    by_contra hsome
    rw [not_or, not_or] at hsome
    obtain ⟨x, hx⟩ := Option.ne_none_iff_exists'.mp hsome.1
    obtain ⟨o, ho⟩ := Option.ne_none_iff_exists'.mp hsome.2.1
    obtain ⟨l, hl⟩ := Option.ne_none_iff_exists'.mp hsome.2.2
    -- The reply is another error, or an array.
    obtain ⟨g1, -, -, ⟨-, hrun1⟩ | ⟨z, t, m, -, -, -, hrun1⟩⟩ :=
      doZquery_eq (ascii "zquery") key name out h hx ho hl
    · exact absurd (Prod.mk.inj (ok_unique hrun hrun1)).2 (badArg_ne_badTyp _)
    · rw [hrun1] at hrun
      by_cases hle : l ≤ 0
      · rw [if_pos hle] at hrun
        have hout := (Prod.mk.inj (Except.ok.inj hrun)).2
        exact badArg_ne_tag (by decide) _ (hout.symm.trans (outArr_eq out 0))
      · rw [if_neg hle] at hrun
        obtain ⟨out', hwin, hrun⟩ := bind_eq_ok.mp hrun
        obtain ⟨ts, hout, -⟩ := zqueryWindow_array hwin
        exact badArg_ne_tag (by decide) _ ((Prod.mk.inj (Except.ok.inj hrun)).2.symm.trans hout)
  · intro hnone
    cases hx : str2dbl strtod score with
    | none => exact ⟨g, _, doZquery_badScore g _ key name offset limit out hx⟩
    | some x =>
      rw [hx] at hnone
      exact ⟨g, _, doZquery_badInt _ key name out hx (hnone.resolve_left (by simp))⟩

end Commands

/-! ## Runs -/

/-- **When integer arguments are taken exactly.** `str2int` is exact on the regular strings. In
    every state a run reaches, `pexpire` refuses an argument that denotes no number of 64 bits, and
    leaves the expiries as they are, exactly if the argument is regular; and `zquery` refuses such
    arguments exactly if the score is refused, or both are regular, or one of them is malformed. -/
theorem int_arguments_exact {strtod : Strtod} {ls : List KEvent} {s : KState}
    (hrun : Run (KStep strtod) {} ls s) :
    (∀ arg, (∀ x, str2int arg = some x → ∃ v, Numeral arg v ∧ InInt64 v ∧ x.toInt = v) ↔
      arg ≠ [] ∧ ∀ v, Numeral arg v → InInt64 v) ∧
    (∃ a, Refines s.data a) ∧ ∀ a, Refines s.data a →
      (∀ now key arg out, (¬ DenotesInt64 arg →
          ∃ g' a' msg, doRequest strtod s.data now [ascii "pexpire", key, arg] out =
            .ok (g', outErr out .badArg msg) ∧ Refines g' a' ∧
            ∀ k, a'.expiryAt k = a.expiryAt k) ↔
        arg ≠ [] ∧ ∀ v, Numeral arg v → InInt64 v) ∧
      ∀ now key score name offset limit out, (¬ DenotesInt64 offset ∨ ¬ DenotesInt64 limit →
          ∃ g' msg, doRequest strtod s.data now
            [ascii "zquery", key, score, name, offset, limit] out =
              .ok (g', outErr out .badArg msg)) ↔
        str2dbl strtod score = none ∨ Regular offset ∧ Regular limit ∨ Malformed offset ∨
          Malformed limit := by
  refine ⟨str2int_exact, exists_refines (run_keeps KInv.empty hrun).1, fun a ha =>
    ⟨fun now key arg out => ?_, fun now key score name offset limit out => ?_⟩⟩
  · rw [pexpire_refuses ha now key arg out]
    exact refuses_iff arg
  · rw [zquery_refuses ha, str2int_eq_none, str2int_eq_none]
    constructor
    · intro h
      by_cases hden : ¬ DenotesInt64 offset ∨ ¬ DenotesInt64 limit
      · exact (h hden).imp_right Or.inr
      · rw [not_or, not_not, not_not] at hden
        exact Or.inr (Or.inl ⟨hden.1.regular, hden.2.regular⟩)
    · rintro (hscore | ⟨hoffset, hlimit⟩ | hbad) hden
      · exact Or.inl hscore
      · right
        rcases hden with hden | hden
        · exact Or.inl (str2int_eq_none.mp ((refuses_iff offset).mpr hoffset hden))
        · exact Or.inr (str2int_eq_none.mp ((refuses_iff limit).mpr hlimit hden))
      · exact Or.inr hbad

/-- A number with something behind it, for a key that has a TTL. -/
theorem int_arguments_exact_rest : ∃ (ls : List KEvent) (s : KState) (a a' : Keyspace)
    (g g' : KData) (msg msg' : Bytes), Run (KStep fun s => (⟨0⟩, s.length)) {} ls s ∧ Refines s.data a ∧
      a.expiryAt (ascii "k") = some 1000 ∧
      doRequest (fun s => (⟨0⟩, s.length)) s.data 7 [ascii "pexpire", ascii "k", ascii "1x"] [] =
        .ok (g, outErr [] .badArg msg) ∧
      Refines g a' ∧ a'.expiryAt (ascii "k") = some 1000 ∧
      doRequest (fun s => (⟨0⟩, s.length)) s.data 7
        [ascii "zquery", ascii "z", ascii "0", [], ascii "0", ascii "1x"] [] =
          .ok (g', outErr [] .badArg msg') := by
  set strtod : Strtod := fun s => (⟨0⟩, s.length)
  obtain ⟨hne, hnot⟩ : Malformed (ascii "1x") := str2int_eq_none.mp (by decide)
  have hdenotes : ¬ DenotesInt64 (ascii "1x") := fun ⟨v, hv, _⟩ => hnot v hv
  obtain ⟨ls, s, hrun, -, -, ha⟩ := exists_run strtod
    [[ascii "set", ascii "k", ascii "v"], [ascii "pexpire", ascii "k", ascii "1000"]]
    fun cmd hcmd a => by
      simp only [List.mem_cons, List.not_mem_nil, or_false] at hcmd
      rcases hcmd with rfl | rfl <;> trivial
  generalize hcmds : afterAll strtod _ = a at ha
  have hexpiry : a.expiryAt (ascii "k") = some 1000 := by
    rw [← hcmds]
    rfl
  obtain ⟨-, -, hall⟩ := int_arguments_exact hrun
  obtain ⟨hexpire, hquery⟩ := hall a ha
  obtain ⟨g, a', msg, hpexpire, ha', hsame⟩ := (hexpire 7 (ascii "k") (ascii "1x") []).mpr
    ⟨hne, fun v hv => absurd hv (hnot v)⟩ hdenotes
  obtain ⟨g', msg', hzquery⟩ :=
    (hquery 7 (ascii "z") (ascii "0") [] (ascii "0") (ascii "1x") []).mpr
      (Or.inr (Or.inr (Or.inr ⟨hne, hnot⟩))) (Or.inr hdenotes)
  exact ⟨ls, s, a, a', g, g', msg, msg', hrun, ha, hexpiry, hpexpire, ha',
    (hsame _).trans hexpiry, hzquery⟩

/-- The empty string is taken for 0, and so `pexpire` sets a TTL. -/
theorem empty_ttl_sets :
    (¬ ∀ (arg : Bytes) (x : Int64), str2int arg = some x →
      ∃ v, Numeral arg v ∧ InInt64 v ∧ x.toInt = v) ∧
    ∃ (ls : List KEvent) (s : KState) (g : KData),
      Run (KStep fun _ => (⟨0⟩, 0)) {} ls s ∧ s.data.heap.a = [] ∧ ¬ DenotesInt64 [] ∧
      doRequest (fun _ => (⟨0⟩, 0)) s.data 1000 [ascii "pexpire", ascii "k", []] [] =
        .ok (g, outInt [] 1) ∧ g.heap.a.map HeapItem.val = [1000] := by
  constructor
  · intro h
    obtain ⟨v, hv, -⟩ := h [] 0 rfl
    exact not_numeral_nil v hv
  · have hset : KStep (fun _ => (⟨0⟩, 0)) {}
        (.request 0 [ascii "set", ascii "k", ascii "v"] (outNil [])) ⟨0, _⟩ :=
      .request (by decide) (show doRequest _ _ 0 _ [] = .ok (_, [] ++ outNil []) from rfl)
    exact ⟨_, _, _, (Run.refl _).snoc hset, rfl, fun ⟨v, hv, _⟩ => not_numeral_nil v hv, rfl, rfl⟩

end Greenis
