/-
  Requests: what the client writes is what the server parses.

  `parse_req` accepts the encodings of commands and nothing else (`parseReq_iff`), and returns on
  all data. `send_req` writes one frame with the encoding of the command (`sendReq_spec`), however
  few bytes each `write` takes.
-/
import Greenis.Model.Query
import Greenis.Model.Response
import Greenis.Proofs.Reply
import Greenis.Spec.Request

namespace Greenis
open CExec LittleEndian

/-! ## Fields -/

theorem slice_mid (pre mid post : Bytes) :
    slice (pre ++ mid ++ post) pre.length mid.length = .ok mid := by
  rw [slice_of_le (by simp), List.append_assoc, List.drop_left, List.take_left]

theorem readU32_field (pre : Bytes) {b : Bytes} (post : Bytes) (hb : b.length = 4) :
    readU32 (pre ++ b ++ post) pre.length (pre ++ b ++ post).length =
      .ok (some (valueOf b, pre.length + 4)) := by
  have hslice := slice_mid pre b post
  rw [hb] at hslice
  unfold readU32
  rw [if_neg (by simp [hb]), hslice, ok_bind]

theorem readU32_short (pre : Bytes) {rest : Bytes} (h : rest.length < 4) :
    readU32 (pre ++ rest) pre.length (pre ++ rest).length = .ok none := by
  unfold readU32
  rw [if_pos (by simp; omega)]

theorem readStr_field (pre s post : Bytes) :
    readStr (pre ++ s ++ post) pre.length (pre ++ s ++ post).length s.length =
      .ok (some (s, pre.length + s.length)) := by
  unfold readStr
  rw [if_neg (by simp), slice_mid, ok_bind]

theorem readStr_short {pre rest : Bytes} {n : Nat} (h : rest.length < n) :
    readStr (pre ++ rest) pre.length (pre ++ rest).length n = .ok none := by
  unfold readStr
  rw [if_pos (by simp; omega)]

/-- The first field of some bytes, if there are enough. -/
theorem split_at {rest : Bytes} {n : Nat} (h : n ≤ rest.length) :
    ∃ b post, rest = b ++ post ∧ b.length = n :=
  ⟨rest.take n, rest.drop n, (List.take_append_drop n rest).symm, List.length_take_of_le h⟩

/-! ## Parsing -/

/-- The loop of `parse_req` takes encoded strings. -/
theorem parseLoop_encode (post : Bytes) : ∀ (strs : List Bytes) (pre : Bytes) (out : List Bytes),
    (∀ s ∈ strs, s.length < 2 ^ 32) →
    parseLoop (pre ++ strs.flatMap encodeStr ++ post) strs.length pre.length out =
      .ok (some (pre.length + (strs.flatMap encodeStr).length, out ++ strs)) := by
  intro strs
  induction strs with
  | nil => intro pre out _; simp [parseLoop]
  | cons s strs ih =>
    intro pre out hshort
    have hlt : s.length < 256 ^ 4 := hshort s List.mem_cons_self
    have hdata : pre ++ (s :: strs).flatMap encodeStr ++ post =
        pre ++ bytesOf 4 s.length ++ (s ++ (strs.flatMap encodeStr ++ post)) := by
      simp [encodeStr]
    have hdata' : pre ++ bytesOf 4 s.length ++ (s ++ (strs.flatMap encodeStr ++ post)) =
        (pre ++ bytesOf 4 s.length) ++ s ++ (strs.flatMap encodeStr ++ post) := by simp
    have hlen : pre.length + 4 = (pre ++ bytesOf 4 s.length).length := by simp
    rw [hdata, List.length_cons, parseLoop, readU32_field _ _ (length_bytesOf 4 _), ok_bind,
      valueOf_bytesOf_of_lt hlt]
    dsimp only
    rw [hdata', hlen, readStr_field, ok_bind]
    dsimp only
    have hrest := ih (pre ++ bytesOf 4 s.length ++ s) (out ++ [s])
      fun x hx => hshort x (List.mem_cons_of_mem _ hx)
    rw [List.length_append, List.append_assoc _ _ post] at hrest
    rw [hrest]
    simp [encodeStr]
    omega

/-- The loop of `parse_req` returns, and takes nothing but encoded strings. -/
theorem parseLoop_sound : ∀ (missing : Nat) (pre rest : Bytes) (out : List Bytes),
    ∃ r, parseLoop (pre ++ rest) missing pre.length out = .ok r ∧
      ∀ cur out', r = some (cur, out') → ∃ strs post, rest = strs.flatMap encodeStr ++ post ∧
        strs.length = missing ∧ (∀ s ∈ strs, s.length < 2 ^ 32) ∧ out' = out ++ strs ∧
        cur = pre.length + (strs.flatMap encodeStr).length := by
  intro missing
  induction missing with
  | zero =>
    intro pre rest out
    refine ⟨_, rfl, fun cur out' h => ⟨[], rest, ?_⟩⟩
    cases h
    simp
  | succ missing ih =>
    intro pre rest out
    unfold parseLoop
    by_cases h4 : 4 ≤ rest.length
    · obtain ⟨b, rest, rfl, hb⟩ := split_at h4
      rw [← List.append_assoc, readU32_field _ _ hb, ok_bind]
      have hlen : pre.length + 4 = (pre ++ b).length := by simp [hb]
      dsimp only
      rw [hlen]
      by_cases hn : valueOf b ≤ rest.length
      · obtain ⟨s, rest, rfl, hs⟩ := split_at hn
        rw [← hs, ← List.append_assoc, readStr_field, ok_bind]
        dsimp only
        rw [← List.length_append]
        obtain ⟨r, hrun, hr⟩ := ih (pre ++ b ++ s) rest (out ++ [s])
        refine ⟨r, hrun, fun cur out' he => ?_⟩
        obtain ⟨strs, post, rfl, hmiss, hshort, rfl, rfl⟩ := hr cur out' he
        have hfield : bytesOf 4 s.length = b := by
          rw [hs, ← hb]
          exact bytesOf_valueOf b
        have hlt : s.length < 2 ^ 32 := by
          have := valueOf_lt b
          rwa [hb, ← hs] at this
        refine ⟨s :: strs, post, ?_, by rw [List.length_cons, hmiss], ?_, by simp, ?_⟩
        · simp [encodeStr, hfield]
        · rintro x (_ | ⟨_, hx⟩)
          · exact hlt
          · exact hshort x hx
        · simp [hb]
          omega
      · rw [readStr_short (by omega), ok_bind]
        exact ⟨none, rfl, fun _ _ h => by cases h⟩
    · rw [readU32_short _ (by omega), ok_bind]
      exact ⟨none, rfl, fun _ _ h => by cases h⟩

/-- `parse_req` accepts the encodings of commands, and returns -1 on everything else. -/
theorem parseReq_spec (data : Bytes) :
    ∃ r, parseReq data = .ok r ∧ ∀ cmd, r = some cmd ↔ IsRequest data cmd := by
  have hnone : ∀ r : Option (List Bytes), r = none → (¬ ∃ cmd, IsRequest data cmd) →
      ∀ cmd, r = some cmd ↔ IsRequest data cmd := fun r hr hno cmd =>
    ⟨fun h => absurd (hr.symm.trans h) (by simp), fun h => absurd ⟨cmd, h⟩ hno⟩
  unfold parseReq
  by_cases h4 : 4 ≤ data.length
  · obtain ⟨b, rest, rfl, hb⟩ := split_at h4
    have hfield := readU32_field [] rest hb
    rw [List.nil_append, List.length_nil] at hfield
    rw [hfield, ok_bind]
    dsimp only
    -- The number of strings of any command these bytes encode.
    have hcount : ∀ cmd, IsRequest (b ++ rest) cmd → valueOf b = cmd.length := fun cmd h => by
      have hb' : b = bytesOf 4 cmd.length := (List.append_inj h.bytes (by simp [hb])).1
      rw [hb', valueOf_bytesOf_of_lt (by have := h.args; unfold kMaxArgs at this; omega)]
    by_cases hmax : valueOf b > kMaxArgs
    · rw [if_pos hmax]
      refine ⟨none, rfl, hnone none rfl ?_⟩
      rintro ⟨cmd, h⟩
      have := h.args
      rw [hcount cmd h] at hmax
      omega
    · rw [if_neg hmax]
      obtain ⟨r, hrun, hr⟩ := parseLoop_sound (valueOf b) b rest []
      rw [hb] at hrun
      rw [show 0 + 4 = 4 from rfl, hrun, ok_bind]
      -- An encoded command is taken as it is.
      have hcomplete : ∀ cmd, IsRequest (b ++ rest) cmd →
          r = some ((b ++ rest).length, cmd) := fun cmd h => by
        have hrest : rest = cmd.flatMap encodeStr :=
          (List.append_inj h.bytes (by simp [hb])).2
        have henc := parseLoop_encode [] cmd b [] h.short
        rw [List.append_nil, ← hrest, ← hcount cmd h, hb, hrun] at henc
        rw [Except.ok.inj henc, List.length_append, hb]
        rfl
      cases r with
      | none =>
        refine ⟨none, rfl, hnone none rfl ?_⟩
        rintro ⟨cmd, h⟩
        cases hcomplete cmd h
      | some res =>
        obtain ⟨cur, out⟩ := res
        dsimp only
        obtain ⟨strs, post, hrest, hlen, hshort, hout, hcur⟩ := hr cur out rfl
        by_cases hend : cur ≠ (b ++ rest).length
        · rw [if_pos hend]
          refine ⟨none, rfl, hnone none rfl ?_⟩
          rintro ⟨cmd, h⟩
          have := hcomplete cmd h
          cases this
          exact hend rfl
        · rw [if_neg hend]
          refine ⟨some out, rfl, fun cmd => ⟨fun h => ?_, fun h => ?_⟩⟩
          · cases h
            have hpost : post = [] := by
              rw [not_not, hcur, List.length_append, hrest, List.length_append] at hend
              exact List.eq_nil_of_length_eq_zero (by omega)
            rw [List.nil_append] at hout
            rw [hout, hrest, hpost, List.append_nil]
            refine ⟨?_, by omega, hshort⟩
            rw [encodeCmd, hlen, ← hb, bytesOf_valueOf]
          · have := hcomplete cmd h
            cases this
            rfl
  · have hshort := readU32_short [] (show data.length < 4 by omega)
    rw [List.nil_append, List.length_nil] at hshort
    rw [hshort, ok_bind]
    refine ⟨none, rfl, hnone none rfl ?_⟩
    rintro ⟨cmd, h⟩
    have := congrArg List.length h.bytes
    simp [encodeCmd] at this
    omega

theorem parseReq_iff {data : Bytes} {cmd : List Bytes} :
    parseReq data = .ok (some cmd) ↔ IsRequest data cmd := by
  obtain ⟨r, hrun, hr⟩ := parseReq_spec data
  rw [hrun, ← hr, Except.ok.injEq]

/-! ## Sending -/

/-- `write_all` writes everything, if each `write` takes at least one byte. -/
theorem writeAll_spec {write : Nat → Nat → Int}
    (hw : ∀ i n, 0 < n → 0 < write i n ∧ write i n ≤ n) :
    ∀ (fuel i : Nat) (buf : Bytes), buf.length ≤ fuel →
      writeAll write fuel i buf = .ok (0, buf) := by
  intro fuel
  induction fuel with
  | zero =>
    intro i buf h
    obtain rfl : buf = [] := List.eq_nil_of_length_eq_zero (by omega)
    rfl
  | succ fuel ih =>
    intro i buf h
    cases buf with
    | nil => rfl
    | cons b buf =>
      obtain ⟨hpos, hle⟩ := hw i (b :: buf).length (by simp)
      unfold writeAll
      dsimp only
      rw [if_neg (by omega), check_of (by simpa using hle), ok_bind,
        ih (i + 1) _ (by rw [List.length_drop]; omega), ok_bind, List.take_append_drop]

/-- Writing at the end of `pre`. -/
theorem bufWriteAt_front (pre : Bytes) {old data : Bytes} (h : data.length ≤ old.length) :
    bufWriteAt (pre ++ old) pre.length data = .ok (pre ++ data ++ old.drop data.length) := by
  have hmid := bufWriteAt_mid pre (old.take data.length) (old.drop data.length) data
    (List.length_take_of_le h)
  rwa [List.append_assoc pre, List.take_append_drop] at hmid

theorem putStrs_spec : ∀ (cmd : List Bytes) (pre old : Bytes),
    (cmd.flatMap encodeStr).length ≤ old.length →
    putStrs cmd pre.length (pre ++ old) =
      .ok (pre ++ cmd.flatMap encodeStr ++ old.drop (cmd.flatMap encodeStr).length) := by
  intro cmd
  induction cmd with
  | nil => intro pre old _; simp [putStrs]
  | cons s cmd ih =>
    intro pre old h
    simp only [List.flatMap_cons, List.length_append, length_encodeStr] at h
    have hcur : pre.length + 4 = (pre ++ bytesOf 4 s.length).length := by simp
    have hnext : pre.length + (4 + s.length) = (pre ++ bytesOf 4 s.length ++ s).length := by
      simp
    unfold putStrs
    rw [bytesOf_u32, bufWriteAt_front _ (by rw [length_bytesOf]; omega), ok_bind, hcur,
      bufWriteAt_front _ (by rw [List.length_drop, length_bytesOf]; omega), ok_bind, hnext,
      ih _ _ (by rw [List.length_drop, List.length_drop, length_bytesOf]; omega)]
    simp only [List.flatMap_cons, encodeStr, List.append_assoc, List.drop_drop, List.length_append,
      length_bytesOf, Nat.add_assoc]

/-- Below 2^32, `len` is the length of the encoding. -/
theorem reqLen_eq {cmd : List Bytes} (h : (encodeCmd cmd).length < 2 ^ 32) :
    (reqLen cmd).toNat = (encodeCmd cmd).length := by
  have hfold : ∀ (cmd : List Bytes) (len : UInt32),
      len.toNat + (cmd.flatMap encodeStr).length < 2 ^ 32 →
      (cmd.foldl (fun len s => UInt32.ofNat (len.toNat + (4 + s.length))) len).toNat =
        len.toNat + (cmd.flatMap encodeStr).length := by
    intro cmd
    induction cmd with
    | nil => intro len _; rfl
    | cons s cmd ih =>
      intro len hlt
      simp only [List.flatMap_cons, List.length_append, length_encodeStr] at hlt ⊢
      have hlen : (UInt32.ofNat (len.toNat + (4 + s.length))).toNat =
          len.toNat + (4 + s.length) := by
        rw [UInt32.toNat_ofNat', Nat.mod_eq_of_lt (by omega)]
      rw [List.foldl_cons, ih _ (by omega), hlen]
      omega
  unfold encodeCmd at h ⊢
  rw [List.length_append, length_bytesOf] at h ⊢
  exact hfold cmd 4 h

/-- `send_req` writes the frame of the command, as far as `write` takes it. -/
theorem sendReq_eq (write : Nat → Nat → Int) {wbuf : Buffer} (hbuf : wbuf.length = 4 + kMaxMsg)
    {cmd : List Bytes} (hlen : (encodeCmd cmd).length ≤ kMaxMsg) :
    sendReq write wbuf cmd =
      writeAll write (frame (encodeCmd cmd)).length 0 (frame (encodeCmd cmd)) := by
  have hmax : kMaxMsg = 4096 := rfl
  have hreq := reqLen_eq (show (encodeCmd cmd).length < 2 ^ 32 by omega)
  have hstrs : (encodeCmd cmd).length = 4 + (cmd.flatMap encodeStr).length := by simp [encodeCmd]
  unfold sendReq
  dsimp only
  rw [hreq, if_neg (by omega)]
  -- The header, the count and the strings.
  have h0 := bufWriteAt_front []
    (show (bytesOf 4 (encodeCmd cmd).length).length ≤ wbuf.length by simp; omega)
  rw [List.length_nil, List.nil_append, List.nil_append, length_bytesOf] at h0
  have h4 := bufWriteAt_front (bytesOf 4 (encodeCmd cmd).length)
    (show (bytesOf 4 cmd.length).length ≤ (wbuf.drop 4).length by simp; omega)
  rw [length_bytesOf, length_bytesOf, List.drop_drop] at h4
  have h8 := putStrs_spec cmd (bytesOf 4 (encodeCmd cmd).length ++ bytesOf 4 cmd.length)
    (wbuf.drop (4 + 4)) (by rw [List.length_drop]; omega)
  rw [List.length_append, length_bytesOf, length_bytesOf] at h8
  rw [h0, ok_bind, bytesOf_u32, h4, ok_bind, h8, ok_bind]
  have hmsg : bytesOf 4 (encodeCmd cmd).length ++ bytesOf 4 cmd.length ++ cmd.flatMap encodeStr =
      frame (encodeCmd cmd) := by
    rw [frame, encodeCmd, List.append_assoc]
  have hslice := slice_mid [] (frame (encodeCmd cmd))
    ((wbuf.drop (4 + 4)).drop (cmd.flatMap encodeStr).length)
  rw [List.nil_append, List.length_nil, length_frame] at hslice
  rw [hmsg, hslice, ok_bind]

theorem sendReq_spec {write : Nat → Nat → Int} (hw : ∀ i n, 0 < n → 0 < write i n ∧ write i n ≤ n)
    {wbuf : Buffer} (hbuf : wbuf.length = 4 + kMaxMsg) {cmd : List Bytes}
    (hlen : (encodeCmd cmd).length ≤ kMaxMsg) :
    sendReq write wbuf cmd = .ok (0, frame (encodeCmd cmd)) := by
  rw [sendReq_eq write hbuf hlen, writeAll_spec hw _ _ _ (Nat.le_refl _)]

end Greenis
