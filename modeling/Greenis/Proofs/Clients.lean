/-
  A client and the server, end to end.

  `greenis_cli` sends one command and reads one reply. Whatever part of its bytes comes in at the
  server, the command is carried out exactly once if all of them do, and not at all otherwise; and
  what is written back are the bytes of a reply that is right at that point of the history, which
  `read_res` accepts (`client_served_once`).
-/
import Greenis.Proofs.Histories
import Greenis.Proofs.ReplyFrames

namespace Greenis
open CExec LTS LittleEndian

/-! ## Requests -/

/-- `write_all` writes a part from the front. -/
theorem writeAll_part {write : Nat → Nat → Int} : ∀ {fuel i : Nat} {buf : Bytes} {err : Int}
    {sent : Bytes}, writeAll write fuel i buf = .ok (err, sent) → sent <+: buf := by
  intro fuel
  induction fuel with
  | zero =>
    intro i buf err sent h
    cases buf with
    | nil =>
      cases h
      exact List.prefix_refl _
    | cons b buf => cases h
  | succ fuel ih =>
    intro i buf err sent h
    cases buf with
    | nil =>
      cases h
      exact List.prefix_refl _
    | cons b buf =>
      unfold writeAll at h
      dsimp only at h
      split at h
      · cases h
        exact List.nil_prefix
      · obtain ⟨u, -, h⟩ := bind_eq_ok.mp h
        obtain ⟨⟨err', sent'⟩, hrest, h⟩ := bind_eq_ok.mp h
        cases h
        obtain ⟨rest, hpre⟩ := ih hrest
        exact ⟨rest, by rw [List.append_assoc, hpre, List.take_append_drop]⟩

/-- A client sends a part of the frame of its command, and nothing if it is too long. -/
theorem sendReq_part {write : Nat → Nat → Int} {wbuf : Buffer}
    (hbuf : wbuf.length = 4 + kMaxMsg) {cmd : List Bytes} (hlen : (encodeCmd cmd).length < 2 ^ 32)
    {err : Int} {sent : Bytes} (h : sendReq write wbuf cmd = .ok (err, sent)) :
    sent <+: frame (encodeCmd cmd) ∧ (kMaxMsg < (encodeCmd cmd).length → sent = []) := by
  by_cases hmax : (encodeCmd cmd).length ≤ kMaxMsg
  · rw [sendReq_eq write hbuf hmax] at h
    exact ⟨writeAll_part h, fun hlt => absurd hmax (Nat.not_le.mpr hlt)⟩
  · unfold sendReq at h
    dsimp only at h
    rw [reqLen_eq hlen, if_pos (Nat.lt_of_not_le hmax)] at h
    cases h
    exact ⟨List.nil_prefix, fun _ => rfl⟩

/-- A frame that has not come in whole. -/
theorem unfinished_of_part {b body : Bytes} (h : b <+: frame body) (hne : b ≠ frame body)
    (hlen : body.length ≤ kMaxMsg) : Unfinished b := by
  have hlt : b.length < 4 + body.length := by
    have hle := h.length_le
    rw [length_frame] at hle
    refine Nat.lt_of_le_of_ne hle fun heq => hne (h.eq_of_length ?_)
    rw [length_frame, heq]
  by_cases h4 : b.length < 4
  · exact Or.inl h4
  · have hhead : headerOf b = body.length := by
      have hwhole := headerOf_frame hlen []
      rw [List.append_nil] at hwhole
      rw [← hwhole, headerOf, headerOf]
      obtain ⟨t, ht⟩ := h
      rw [← ht, List.take_append_of_le_length (by omega)]
    exact Or.inr ⟨by omega, by omega⟩

/-- The commands of a client that sends one frame. -/
theorem frames_of_frame {b rest : Bytes} {cmd : List Bytes} {cmds : List (List Bytes)}
    (hb : b <+: frame (encodeCmd cmd)) (hlen : (encodeCmd cmd).length ≤ kMaxMsg)
    (h : Frames b cmds rest) (hmax : ∀ c r, ¬ StartsWith rest c r) :
    (b ≠ frame (encodeCmd cmd) ∧ cmds = []) ∨ (b = frame (encodeCmd cmd) ∧ cmds = [cmd]) := by
  have hnil : ∀ c r, ¬ StartsWith [] c r := fun c r hs =>
    hs.not_other.1 (Or.inl (Nat.zero_lt_succ 3))
  by_cases hwhole : b = frame (encodeCmd cmd)
  · have hstart : StartsWith b cmd [] :=
      ⟨encodeCmd cmd, by rw [hwhole, List.append_nil], hlen, isRequest_encodeCmd hlen⟩
    exact Or.inr ⟨hwhole, (h.unique (.cons hstart (.nil [])) hmax hnil).1⟩
  · have hun := unfinished_of_part hb hwhole hlen
    exact Or.inl ⟨hwhole, (h.unique (.nil b) hmax fun c r hs => hs.not_other.1 hun).1⟩

/-! ## Replies -/

/-- A call of the history is answered as the machine does that has come to it. -/
theorem Recorded.answered {strtod : Strtod} {t : TracedState} (hr : Recorded strtod t)
    (hclock : t.server.clock.toNat < 2 ^ 63) {pre post : List History.Entry} {p : Ptr} {call : Call}
    (h : t.history.entries = pre ++ .call p call :: post) :
    ∃ k m r, Run (Machine.Step strtod) {} (pre.map History.Entry.event) m ∧ Simulates k m ∧
      m.clock ≤ call.now.toNat ∧ m.keys.Replies call.now.toNat (Command.of strtod call.cmd) r ∧
      call.body = r.encode := by
  obtain ⟨k', hrun, hk⟩ := hr.run
  have hlast := UInt64.le_iff_toNat_le.mp hk.clock
  have htime := run_timely hrun (by omega)
  rw [h, List.map_append, List.map_cons] at hrun htime
  obtain ⟨k, k2, hpre, hstep⟩ := hrun.stepAt
  obtain ⟨m, hm, hsim⟩ := run_simulate hpre fun l hl => htime l (List.mem_append_left _ hl)
  have hcall := htime _ (List.mem_append_right _ List.mem_cons_self)
  obtain ⟨m', hanswer, -⟩ := hstep.simulate hsim hcall
  generalize he : History.Entry.event (.call p call) = e at hanswer
  cases hanswer with
  | request hle hreplies =>
    obtain ⟨rfl, rfl, hbody⟩ := KEvent.request.inj he
    exact ⟨k, m, _, hm, hsim, hle, hreplies, hbody⟩
  | timers => cases he
  | work => cases he

theorem entry_of_call {h : History} {p : Ptr} {call : Call} (hc : call ∈ h.calls p) :
    ∃ pre post, h.entries = pre ++ .call p call :: post := by
  obtain ⟨e, he, hcall⟩ := List.mem_filterMap.mp hc
  cases e with
  | call conn c =>
    dsimp only [History.Entry.callOf] at hcall
    split at hcall
    · rename_i hp
      obtain rfl := Option.some.inj hcall
      obtain ⟨pre, post, h⟩ := List.append_of_mem he
      exact ⟨pre, post, hp ▸ h⟩
    · cases hcall
  | timers now => cases hcall
  | work => cases hcall

/-- **A command is carried out once.** Let what has come in at a connection be a part of what
    `send_req` has written. If it is not the whole frame, the command has not been carried out, and
    nothing is written back. If it is, the command has one place in the history; what is written
    back is a part of the frame of a reply that the machine allows at this place, and as soon as
    all of it has been written, `read_res` accepts it. -/
theorem client_served_once {strtod : Strtod} {es : List LoopEvent} {t : TracedState}
    (hrun : Run (TracedStep strtod) {} es t) (hclock : t.server.clock.toNat < 2 ^ 63)
    {write : Nat → Nat → Int} {wbuf : Buffer} (hbuf : wbuf.length = 4 + kMaxMsg) {cmd : List Bytes}
    (hlen : (encodeCmd cmd).length < 2 ^ 32) {err : Int} {sent : Bytes}
    (hsend : sendReq write wbuf cmd = .ok (err, sent)) {p : Ptr}
    (hin : t.history.received p <+: sent) :
    (t.history.received p ≠ frame (encodeCmd cmd) ∧ t.history.calls p = [] ∧
        t.history.written p = []) ∨
      (t.history.received p = frame (encodeCmd cmd) ∧ ∃ pre call post m r,
        t.history.entries = pre ++ .call p call :: post ∧ t.history.calls p = [call] ∧
        call.cmd = cmd ∧ Run (Machine.Step strtod) {} (pre.map History.Entry.event) m ∧
        m.keys.Replies call.now.toNat (Command.of strtod cmd) r ∧
        t.history.written p <+: frame (capped r.encode) ∧
        (∀ c, t.server.loop.data.conns p = some c →
          t.history.written p ++ c.outgoing = frame (capped r.encode)) ∧
        ∀ read read', Reads read → Reads read' → t.history.written p = frame (capped r.encode) →
          readRes read read' (t.history.written p) =
            .ok (Int32.ofNat (capped r.encode).length)) := by
  have hr := run_recorded hrun
  obtain ⟨rest, hframes, hmax, hout, hopen⟩ := hr.exchanged p
  obtain ⟨hsent, hnone⟩ := sendReq_part hbuf hlen hsend
  have hcmds : (t.history.received p ≠ frame (encodeCmd cmd) ∧
      (t.history.calls p).map Call.cmd = []) ∨ (t.history.received p = frame (encodeCmd cmd) ∧
      (t.history.calls p).map Call.cmd = [cmd]) := by
    by_cases hfits : (encodeCmd cmd).length ≤ kMaxMsg
    · exact frames_of_frame (hin.trans hsent) hfits hframes hmax
    · rw [hnone (Nat.lt_of_not_le hfits), List.prefix_nil] at hin
      rw [hin] at hframes ⊢
      have hnil : ∀ c r, ¬ StartsWith [] c r := fun c r hs =>
        hs.not_other.1 (Or.inl (Nat.zero_lt_succ 3))
      refine Or.inl ⟨fun heq => ?_, (hframes.unique (.nil []) hmax hnil).1⟩
      have := congrArg List.length heq
      rw [length_frame, List.length_nil] at this
      omega
  rcases hcmds with ⟨hpart, hcalls⟩ | ⟨hwhole, hcalls⟩
  · rw [List.map_eq_nil_iff.mp hcalls] at hout
    exact Or.inl ⟨hpart, List.map_eq_nil_iff.mp hcalls, List.prefix_nil.mp hout⟩
  · obtain ⟨call, hcall, hcmd⟩ := List.map_eq_singleton_iff.mp hcalls
    obtain ⟨pre, post, hentries⟩ := entry_of_call (hcall ▸ List.mem_singleton_self call)
    obtain ⟨-, m, r, hpre, -, -, hreplies, hbody⟩ := hr.answered hclock hentries
    have hframe : replies (t.history.calls p) = frame (capped r.encode) := by
      rw [hcall, ← hbody]
      simp [replies, responses]
    rw [hframe] at hout hopen
    refine Or.inr ⟨hwhole, pre, call, post, m, r, hentries, hcall, hcmd, hpre, hcmd ▸ hreplies,
      hout, fun c hc => (hopen c hc).2, fun read read' hread hread' hall => ?_⟩
    have hread := readRes_value hread hread' (capped_isValue r) (capped_length_le _) []
    rwa [List.append_nil, ← hall] at hread

/-- The client sends `keys`. -/
theorem client_served_once_keys : ∃ (t : TracedState) (call : Call),
    t.history.received 1 = frame (encodeCmd [ascii "keys"]) ∧ t.history.calls 1 = [call] ∧
      call.cmd = [ascii "keys"] := by
  obtain ⟨es, t, -, hrun, hclock, hin, -⟩ := exists_keys_run
  have hsend : sendReq (fun _ n => n) (List.replicate (4 + kMaxMsg) 0) [ascii "keys"] =
      .ok (0, frame (encodeCmd [ascii "keys"])) :=
    sendReq_spec (by omega) List.length_replicate (by decide)
  rcases client_served_once hrun (hclock ▸ Nat.two_pow_pos 63) List.length_replicate (by decide)
    hsend (by rw [hin]) with ⟨hpart, -⟩ | ⟨-, pre, call, post, m, r, -, hcall, hcmd, -⟩
  · exact absurd hin hpart
  · exact ⟨t, call, hin, hcall, hcmd⟩

end Greenis
