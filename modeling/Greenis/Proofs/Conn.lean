/-
  A connection: requests are taken off the incoming bytes, and replies are put on the outgoing ones.

  `try_one_request` tells the three kinds of bytes apart: unfinished, invalid, or a valid frame, for
  which `do_request` is called once (`Tried`). The loop serves all valid frames (`Drained`). The
  handlers lose no bytes, and fault nowhere but inside `do_request` (`Written`, `Handled`).
-/
import Greenis.Model.Conn
import Greenis.Proofs.RequestCodec

namespace Greenis
open CExec LittleEndian

/-! ## Framing a reply -/

theorem responseEnd_spec (out body : Bytes) :
    responseEnd (out ++ bytesOf 4 0 ++ body) out.length = .ok (out ++ frame (capped body)) := by
  have hsize : ∀ b : Bytes, responseSize (out ++ bytesOf 4 0 ++ b) out.length = b.length := by
    intro b
    unfold responseSize
    rw [List.length_append, List.length_append, length_bytesOf]
    omega
  have hwrite : ∀ b : Bytes, bufWriteAt (out ++ bytesOf 4 0 ++ b) out.length
      (bytesOf 4 (UInt32.ofNat b.length).toNat) = .ok (out ++ frame b) := by
    intro b
    rw [bytesOf_u32, bufWriteAt_mid _ _ _ _ (by simp), frame, List.append_assoc]
  unfold responseEnd
  dsimp only
  rw [hsize]
  by_cases hbig : body.length > kMaxMsg
  · have htake : (out ++ bytesOf 4 0 ++ body).take (out.length + 4) = out ++ bytesOf 4 0 :=
      List.take_left' (by simp)
    rw [if_pos hbig, htake, outErr_eq, hsize, hwrite, capped, if_pos hbig]
  · rw [if_neg hbig, hsize, hwrite, capped, if_neg hbig]

section Handlers

variable {σ : Type} {app : σ → UInt64 → List Bytes → Buffer → Exec (σ × Buffer)} {s : σ}
  {now : UInt64} {conn : Conn}

/-! ## One request -/

theorem tryOneRequest_unfinished (h : Unfinished conn.incoming) :
    tryOneRequest app s now conn = .ok (false, s, conn) := by
  unfold tryOneRequest
  by_cases hshort : conn.incoming.length < 4
  · rw [if_pos hshort]
  · obtain ⟨hmax, hlen⟩ := h.resolve_left hshort
    unfold headerOf at hmax hlen
    rw [if_neg hshort, slice_of_le (by omega), ok_bind]
    dsimp only
    rw [List.drop_zero, if_neg (by omega), if_pos (by omega)]

/-- The bytes of a whole frame are read up to its body. -/
theorem tryOneRequest_frame {body rest : Bytes} (h : conn.incoming = frame body ++ rest)
    (hlen : body.length ≤ kMaxMsg) :
    tryOneRequest app s now conn = (do
      match ← parseReq body with
      | none => .ok (false, s, { conn with wantClose := true })
      | some cmd => do
        let (s', outgoing) ← within (app s now cmd (conn.outgoing ++ bytesOf 4 0))
        let outgoing ← responseEnd outgoing conn.outgoing.length
        .ok (true, s', { conn with incoming := rest, outgoing := outgoing })) := by
  have htotal : conn.incoming.length = 4 + body.length + rest.length := by
    rw [h, List.length_append, length_frame]
  have hhead := headerOf_frame hlen rest
  rw [← h, headerOf] at hhead
  have hslice := slice_mid (bytesOf 4 body.length) body rest
  rw [length_bytesOf] at hslice
  unfold tryOneRequest
  rw [if_neg (by omega), slice_of_le (by omega), ok_bind]
  dsimp only
  rw [List.drop_zero, hhead, if_neg (by omega), if_neg (by omega), h, frame, hslice, ok_bind]
  have hconsume : bufConsume (bytesOf 4 body.length ++ body ++ rest) (4 + body.length) =
      .ok rest := by
    unfold bufConsume
    rw [if_pos (by simp), List.drop_left' (by simp)]
  rw [hconsume]
  rfl

theorem tryOneRequest_invalid (h : Invalid conn.incoming) :
    tryOneRequest app s now conn = .ok (false, s, { conn with wantClose := true }) := by
  rcases h with ⟨h4, hmax⟩ | ⟨body, rest, heq, hlen, hno⟩
  · unfold tryOneRequest
    unfold headerOf at hmax
    rw [if_neg (by omega), slice_of_le (by omega), ok_bind]
    dsimp only
    rw [List.drop_zero, if_pos hmax]
  · obtain ⟨r, hparse, hr⟩ := parseReq_spec body
    have hnone : r = none := Option.eq_none_iff_forall_ne_some.mpr fun cmd hc =>
      hno cmd ((hr cmd).mp hc)
    rw [tryOneRequest_frame heq hlen, hparse, hnone, ok_bind]

theorem tryOneRequest_startsWith {cmd : List Bytes} {rest : Bytes}
    (h : StartsWith conn.incoming cmd rest) :
    tryOneRequest app s now conn = (do
      let (s', outgoing) ← within (app s now cmd (conn.outgoing ++ bytesOf 4 0))
      let outgoing ← responseEnd outgoing conn.outgoing.length
      .ok (true, s', { conn with incoming := rest, outgoing := outgoing })) := by
  obtain ⟨body, heq, hlen, hreq⟩ := h
  rw [tryOneRequest_frame heq hlen, parseReq_iff.mpr hreq, ok_bind]

/-- A request keeps the invariant `I`, and appends the body of a reply. -/
def Appends (app : σ → UInt64 → List Bytes → Buffer → Exec (σ × Buffer)) (I : σ → Prop) : Prop :=
  ∀ s now cmd out s' out', I s → app s now cmd out = .ok (s', out') →
    I s' ∧ ∃ body, out' = out ++ body

/-- The bytes sent for some replies. -/
def responses (calls : List (List Bytes × Bytes)) : Bytes :=
  calls.flatMap fun c => frame (capped c.2)

/-- The results `try_one_request` may have. -/
inductive Tried (app : σ → UInt64 → List Bytes → Buffer → Exec (σ × Buffer)) (s : σ) (now : UInt64)
    (conn : Conn) : Exec (Bool × σ × Conn) → Prop
  | unfinished : Unfinished conn.incoming → Tried app s now conn (.ok (false, s, conn))
  | invalid : Invalid conn.incoming →
      Tried app s now conn (.ok (false, s, { conn with wantClose := true }))
  | failed : Tried app s now conn (.error .callee)
  | served {cmd : List Bytes} {rest body out : Bytes} {s' : σ} :
      StartsWith conn.incoming cmd rest → app s now cmd out = .ok (s', out ++ body) →
      Tried app s now conn (.ok (true, s',
        { conn with incoming := rest, outgoing := conn.outgoing ++ frame (capped body) }))

theorem tryOneRequest_spec {I : σ → Prop} (happ : Appends app I) (hs : I s) (now : UInt64)
    (conn : Conn) : Tried app s now conn (tryOneRequest app s now conn) := by
  rcases head_cases conn.incoming with h | h | ⟨cmd, rest, h⟩
  · rw [tryOneRequest_unfinished h]
    exact .unfinished h
  · rw [tryOneRequest_invalid h]
    exact .invalid h
  · rw [tryOneRequest_startsWith h]
    cases hrun : within (app s now cmd (conn.outgoing ++ bytesOf 4 0)) with
    | error e =>
      obtain rfl := within_eq_error hrun
      exact .failed
    | ok res =>
      obtain ⟨s', out'⟩ := res
      have happly := within_eq_ok.mp hrun
      obtain ⟨-, body, rfl⟩ := happ _ _ _ _ _ _ hs happly
      rw [ok_bind]
      dsimp only
      rw [responseEnd_spec, ok_bind]
      exact .served h happly

/-! ## All requests -/

/-- Calls of `app` in a row, each with its command and the body of the reply. -/
inductive Calls (app : σ → UInt64 → List Bytes → Buffer → Exec (σ × Buffer)) :
    σ → List (List Bytes × Bytes) → σ → Prop
  | nil (s : σ) : Calls app s [] s
  | cons {s s1 s2 : σ} {now : UInt64} {cmd : List Bytes} {out body : Bytes}
      {calls : List (List Bytes × Bytes)} :
      app s now cmd out = .ok (s1, out ++ body) → Calls app s1 calls s2 →
      Calls app s ((cmd, body) :: calls) s2

theorem Calls.keeps {I : σ → Prop} (happ : Appends app I) {s s' : σ}
    {calls : List (List Bytes × Bytes)} (h : Calls app s calls s') (hs : I s) : I s' := by
  induction h with
  | nil => exact hs
  | cons hrun _ ih => exact ih (happ _ _ _ _ _ _ hs hrun).1

/-- The results the loop over the requests may have. -/
inductive Drained (app : σ → UInt64 → List Bytes → Buffer → Exec (σ × Buffer)) (s : σ)
    (conn : Conn) : Exec (σ × Conn) → Prop
  | failed : Drained app s conn (.error .callee)
  | unfinished {calls : List (List Bytes × Bytes)} {rest : Bytes} {s' : σ} :
      Calls app s calls s' → Frames conn.incoming (calls.map Prod.fst) rest → Unfinished rest →
      Drained app s conn (.ok (s',
        { conn with incoming := rest, outgoing := conn.outgoing ++ responses calls }))
  | invalid {calls : List (List Bytes × Bytes)} {rest : Bytes} {s' : σ} :
      Calls app s calls s' → Frames conn.incoming (calls.map Prod.fst) rest → Invalid rest →
      Drained app s conn (.ok (s',
        { conn with incoming := rest, outgoing := conn.outgoing ++ responses calls
                    wantClose := true }))

/-- No valid frame is left, and the connection is to be closed if what is left is invalid. -/
def Conn.Rests (conn : Conn) : Prop :=
  (conn.wantClose = false ∧ Unfinished conn.incoming) ∨
    (conn.wantClose = true ∧ Invalid conn.incoming)

theorem Conn.Rests.congr {conn conn' : Conn} (h : conn.Rests)
    (hin : conn'.incoming = conn.incoming) (hclose : conn'.wantClose = conn.wantClose) :
    conn'.Rests := by
  unfold Conn.Rests
  rw [hin, hclose]
  exact h

theorem Drained.calls {s s' : σ} {conn conn' : Conn} (h : Drained app s conn (.ok (s', conn')))
    (hopen : conn.wantClose = false) : ∃ calls, Calls app s calls s' ∧
      Frames conn.incoming (calls.map Prod.fst) conn'.incoming ∧ conn'.Rests ∧
      conn' = { conn with incoming := conn'.incoming, outgoing := conn.outgoing ++ responses calls
                          wantClose := conn'.wantClose } := by
  cases h with
  | @unfinished calls _ _ hcalls hframes hrest =>
    exact ⟨calls, hcalls, hframes, Or.inl ⟨hopen, hrest⟩, rfl⟩
  | @invalid calls _ _ hcalls hframes hrest =>
    exact ⟨calls, hcalls, hframes, Or.inr ⟨rfl, hrest⟩, rfl⟩

theorem StartsWith.length_lt {b rest : Bytes} {cmd : List Bytes} (h : StartsWith b cmd rest) :
    rest.length < b.length := by
  obtain ⟨body, rfl, -, -⟩ := h
  rw [List.length_append, length_frame]
  omega

/-- The loop serves the requests in order, and `fuel` suffices. -/
theorem requestLoop_spec {I : σ → Prop} (happ : Appends app I) (nows : Nat → UInt64) :
    ∀ (fuel i : Nat) (s : σ) (conn : Conn), I s → conn.incoming.length < fuel →
      Drained app s conn (requestLoop app nows fuel i s conn) := by
  intro fuel
  induction fuel with
  | zero => intro i s conn _ h; exact absurd h (Nat.not_lt_zero _)
  | succ fuel ih =>
    intro i s conn hs hfuel
    unfold requestLoop
    have htry := tryOneRequest_spec happ hs (nows i) conn
    generalize tryOneRequest app s (nows i) conn = res at htry
    cases htry with
    | unfinished h =>
      have hcalls : Calls app s [] s := .nil s
      simpa [responses] using Drained.unfinished hcalls (.nil conn.incoming) h
    | invalid h =>
      have hcalls : Calls app s [] s := .nil s
      simpa [responses] using Drained.invalid hcalls (.nil conn.incoming) h
    | failed => exact .failed
    | @served cmd rest body out s' h happly =>
      have hlt := h.length_lt
      have hrest := ih (i + 1) s'
        { conn with incoming := rest, outgoing := conn.outgoing ++ frame (capped body) }
        (happ _ _ _ _ _ _ hs happly).1 (by dsimp only; omega)
      rw [ok_bind]
      dsimp only
      rw [if_pos rfl]
      generalize requestLoop app nows fuel (i + 1) s' _ = res at hrest
      cases hrest with
      | failed => exact .failed
      | unfinished hcalls hframes hrest =>
        have := Drained.unfinished (.cons happly hcalls) (.cons h hframes) hrest
        simpa [responses, List.append_assoc] using this
      | invalid hcalls hframes hrest =>
        have := Drained.invalid (.cons happly hcalls) (.cons h hframes) hrest
        simpa [responses, List.append_assoc] using this

/-! ## Events -/

/-- The results `handle_write` may have: the connection, and the bytes that are written. -/
inductive Written (conn : Conn) : WriteResult → Conn × Bytes → Prop
  | again : Written conn .again (conn, [])
  | error : Written conn .error ({ conn with wantClose := true }, [])
  | some {n : Nat} {sent rest : Bytes} : conn.outgoing = sent ++ rest → rest ≠ [] →
      Written conn (.count n) ({ conn with outgoing := rest }, sent)
  | all {n : Nat} : Written conn (.count n)
      ({ conn with outgoing := [], wantRead := true, wantWrite := false }, conn.outgoing)

theorem Written.keeps {conn conn' : Conn} {sent : Bytes} {write : WriteResult}
    (h : Written conn write (conn', sent)) (hwant : conn.wantWrite = true)
    (hout : conn.outgoing ≠ []) (hw : write ≠ .error) :
    sent ++ conn'.outgoing = conn.outgoing ∧ conn'.incoming = conn.incoming ∧
      conn'.wantClose = conn.wantClose ∧ (conn'.wantWrite = true ↔ conn'.outgoing ≠ []) := by
  cases h with
  | again => exact ⟨rfl, rfl, rfl, by simp [hwant, hout]⟩
  | error => exact absurd rfl hw
  | some heq hrest => exact ⟨heq.symm, rfl, rfl, by simp [hwant, hrest]⟩
  | all => exact ⟨List.append_nil _, rfl, rfl, by simp⟩

/-- With something to write, the assertion of `handle_write` holds. -/
theorem handleWrite_spec (conn : Conn) (h : conn.outgoing ≠ []) (write : WriteResult) :
    ∃ res, handleWrite conn write = .ok res ∧ Written conn write res := by
  have hpos : conn.outgoing.length > 0 := List.length_pos_iff.mpr h
  unfold handleWrite
  rw [check_of (by simpa using hpos), ok_bind]
  cases write with
  | again => exact ⟨_, rfl, .again⟩
  | error => exact ⟨_, rfl, .error⟩
  | count n =>
    have hconsume : bufConsume conn.outgoing (min n conn.outgoing.length) =
        .ok (conn.outgoing.drop (min n conn.outgoing.length)) := if_pos (Nat.min_le_right _ _)
    dsimp only
    rw [hconsume, ok_bind]
    by_cases hall : (conn.outgoing.drop (min n conn.outgoing.length)).length = 0
    · rw [if_pos hall]
      have hle : conn.outgoing.length ≤ min n conn.outgoing.length := by
        rw [List.length_drop] at hall
        omega
      rw [List.take_of_length_le hle, List.drop_of_length_le hle]
      exact ⟨_, rfl, .all⟩
    · rw [if_neg hall]
      exact ⟨_, rfl, .some (List.take_append_drop _ _).symm
        fun hnil => hall (List.length_eq_zero_iff.mpr hnil)⟩

/-- The results `handle_read` may have. -/
inductive Handled (app : σ → UInt64 → List Bytes → Buffer → Exec (σ × Buffer)) (s : σ)
    (conn : Conn) : ReadResult → WriteResult → Exec (σ × Conn × Bytes) → Prop
  | again {write : WriteResult} : Handled app s conn .again write (.ok (s, conn, []))
  | error {write : WriteResult} :
      Handled app s conn .error write (.ok (s, { conn with wantClose := true }, []))
  | eof {write : WriteResult} :
      Handled app s conn (.data []) write (.ok (s, { conn with wantClose := true }, []))
  | failed {bs : Bytes} {write : WriteResult} :
      Handled app s conn (.data bs) write (.error .callee)
  | quiet {bs : Bytes} {write : WriteResult} {s' : σ} {conn' : Conn} : bs ≠ [] →
      Drained app s { conn with incoming := conn.incoming ++ bs.take readBufSize }
        (.ok (s', conn')) →
      conn'.outgoing = [] → Handled app s conn (.data bs) write (.ok (s', conn', []))
  | answered {bs sent : Bytes} {write : WriteResult} {s' : σ} {conn' conn'' : Conn} : bs ≠ [] →
      Drained app s { conn with incoming := conn.incoming ++ bs.take readBufSize }
        (.ok (s', conn')) →
      conn'.outgoing ≠ [] →
      Written { conn' with wantRead := false, wantWrite := true } write (conn'', sent) →
      Handled app s conn (.data bs) write (.ok (s', conn'', sent))

theorem handleRead_spec {I : σ → Prop} (happ : Appends app I) (hs : I s) (conn : Conn)
    (nows : Nat → UInt64) (read : ReadResult) (write : WriteResult) :
    Handled app s conn read write (handleRead app s conn nows read write) := by
  unfold handleRead
  cases read with
  | again => exact .again
  | error => exact .error
  | data bs =>
    dsimp only
    by_cases hnil : bs = []
    · rw [hnil]
      exact .eof
    · have hpos : ¬ (bs.take readBufSize).length = 0 := by
        have := List.length_pos_iff.mpr hnil
        rw [List.length_take, readBufSize]
        omega
      rw [if_neg hpos]
      have hloop := requestLoop_spec happ nows
        ((bufAppend conn.incoming (bs.take readBufSize)).length + 1) 0 s
        { conn with incoming := conn.incoming ++ bs.take readBufSize } hs (Nat.lt_succ_self _)
      unfold bufAppend at hloop ⊢
      generalize requestLoop app nows _ 0 s _ = res at hloop
      cases res with
      | error e =>
        cases hloop
        exact .failed
      | ok res =>
        obtain ⟨s', conn'⟩ := res
        rw [ok_bind]
        dsimp only
        by_cases hout : conn'.outgoing = []
        · rw [if_neg (by rw [hout, List.length_nil]; omega)]
          exact .quiet hnil hloop hout
        · obtain ⟨⟨conn'', sent⟩, hwrite, hwritten⟩ :=
            handleWrite_spec { conn' with wantRead := false, wantWrite := true } hout write
          rw [if_pos (List.length_pos_iff.mpr hout), hwrite, ok_bind]
          exact .answered hnil hloop hout hwritten

end Handlers

end Greenis
