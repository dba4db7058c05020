/-
  Every handler returns.

  No request adds more than one member to a sorted set, and one `read` brings at most `maxRequests`
  requests. So while no set comes within `maxRequests` of 2^32 members, `do_request` returns in all
  of them, and with it every handler: the event loop goes on with each outcome of `poll`, `accept`,
  `read` and `write` that a `LoopEvent` can be (`handlers_return`). What ends the server from the
  outside is not among these events: an error of `poll` other than an interruption, a failure of
  `fcntl` in `fd_set_nb`, and the signal of a `write` to a closed socket.
-/
import Greenis.Lib.Allocation
import Greenis.Proofs.Buffers
import Greenis.Proofs.TtlPass

namespace Greenis
open CExec LTS Keyspace LittleEndian

variable {strtod : Strtod}

/-! ## The size of a set -/

def Value.members : Value → Nat
  | .str _ => 0
  | .zset m => m.keys.card

namespace Keyspace

variable {a : Keyspace} {n : Nat}

/-- No set has more than `n` members. -/
def Sized (n : Nat) (a : Keyspace) : Prop :=
  ∀ key item, a.lookup key = some item → item.value.members ≤ n

theorem Sized.zset (h : a.Sized n) {key : Bytes} {m : Scores} (hm : a.zset key = some m) :
    m.keys.card ≤ n := by
  unfold Keyspace.zset at hm
  cases ha : a.lookup key with
  | none =>
    rw [ha] at hm
    cases hm
    exact Nat.zero_le n
  | some item =>
    obtain ⟨v, expiry⟩ := item
    rw [ha] at hm
    cases v with
    | str s => cases hm
    | zset m' =>
      cases hm
      exact h key _ ha

/-- What a command leaves under a key: the value that was there, or what it stores. -/
inductive Stored (a : Keyspace) (key : Bytes) : Command → Value → Prop
  | kept {c : Command} {item : Item} {v : Value} : a.lookup key = some item → item.value = v →
      Stored a key c v
  | set (value : Bytes) : Stored a key (.set key value) (.str value)
  | zadd {m : Scores} (score : Double) (name : Bytes) : a.zset key = some m →
      Stored a key (.zadd key (some score) name)
        (.zset (m.insert name (keptScore (m.lookup name) score)))
  | zrem {m : Scores} (name : Bytes) : a.zset key = some m →
      Stored a key (.zrem key name) (.zset (m.erase name))

theorem after_stored {now : UInt64} {c : Command} {key : Bytes} {item : Item}
    (h : (a.after now c).lookup key = some item) : Stored a key c item.value := by
  cases c with
  | get | pttl | keys | zscore | zquery | unknown => exact .kept h rfl
  | set k value =>
    dsimp only [Keyspace.after, next] at h
    cases ha : a.lookup k with
    | none =>
      rw [ha] at h
      rcases Finmap.lookup_insert_cases h with ⟨rfl, rfl⟩ | h
      · exact .set value
      · exact .kept h rfl
    | some old =>
      obtain ⟨v, expiry⟩ := old
      rw [ha] at h
      cases v with
      | str s =>
        rcases Finmap.lookup_insert_cases h with ⟨rfl, rfl⟩ | h
        · exact .set value
        · exact .kept h rfl
      | zset m => exact .kept h rfl
  | del k => exact .kept (Finmap.lookup_erase_some h) rfl
  | pexpire k ttl =>
    cases ttl with
    | none => exact .kept h rfl
    | some ttlMs =>
      dsimp only [Keyspace.after] at h
      cases ha : a.lookup k with
      | none =>
        rw [ha] at h
        exact .kept h rfl
      | some old =>
        rw [ha] at h
        rcases Finmap.lookup_insert_cases h with ⟨rfl, rfl⟩ | h
        · exact .kept ha rfl
        · exact .kept h rfl
  | zadd k score name =>
    cases score with
    | none => exact .kept h rfl
    | some score =>
      dsimp only [Keyspace.after, next] at h
      cases ha : a.lookup k with
      | none =>
        rw [ha] at h
        rcases Finmap.lookup_insert_cases h with ⟨rfl, rfl⟩ | h
        · exact .zadd score name (by rw [Keyspace.zset, ha])
        · exact .kept h rfl
      | some old =>
        obtain ⟨v, expiry⟩ := old
        rw [ha] at h
        cases v with
        | str s => exact .kept h rfl
        | zset m =>
          rcases Finmap.lookup_insert_cases h with ⟨rfl, rfl⟩ | h
          · exact .zadd score name (by rw [Keyspace.zset, ha])
          · exact .kept h rfl
  | zrem k name =>
    dsimp only [Keyspace.after, next] at h
    cases hz : a.zset k with
    | none =>
      rw [hz] at h
      exact .kept h rfl
    | some m =>
      rw [hz] at h
      dsimp only [setZset] at h
      cases ha : a.lookup k with
      | none =>
        rw [ha] at h
        exact .kept h rfl
      | some old =>
        rw [ha] at h
        rcases Finmap.lookup_insert_cases h with ⟨rfl, rfl⟩ | h
        · exact .zrem name hz
        · exact .kept h rfl

/-- A command adds one member at most. -/
theorem Sized.after (h : a.Sized n) (now : UInt64) (c : Command) :
    (a.after now c).Sized (n + 1) := by
  intro key item hitem
  generalize hv : item.value = v
  cases hv ▸ after_stored hitem with
  | kept hold heq => exact Nat.le_succ_of_le (heq ▸ h key _ hold)
  | set value => exact Nat.zero_le _
  | zadd score name hm =>
    exact (Finmap.card_insert_le _ _ _).trans (Nat.succ_le_succ (h.zset hm))
  | @zrem m name hm =>
    have hle : (m.erase name).keys.card ≤ m.keys.card := by
      rw [Finmap.keys_erase]
      exact Finset.card_erase_le
    exact Nat.le_succ_of_le (hle.trans (h.zset hm))

theorem Sized.specified (h : a.Sized n) (hn : n < 2 ^ 32) (c : Command) : a.Specified c := by
  cases c with
  | zquery key score name offset limit =>
    intro m ts hm hts
    have hlen : m.keys.card = ts.length := by
      obtain ⟨hnodup, hmem⟩ := hts.names
      refine card_eq_length Prod.fst hts.nodup (List.inj_on_of_nodup_map hnodup) fun name => ?_
      rw [Finmap.mem_keys, ← hmem, List.mem_map]
    have := h.zset hm
    omega
  | _ => trivial

end Keyspace

/-! ## Handlers -/

/-- The server's memory stands for sets that may grow by `n` members. -/
def Roomy (n : Nat) (g : KData) : Prop := ∃ a m, Refines g a ∧ a.Sized m ∧ m + n < 2 ^ 32

theorem Roomy.request {n : Nat} {g : KData} (h : Roomy (n + 1) g) (now : UInt64)
    (cmd : List Bytes) (out : Buffer) :
    ∃ g' body, doRequest strtod g now cmd out = .ok (g', out ++ body) ∧ Roomy n g' := by
  obtain ⟨a, m, ha, hsized, hlt⟩ := h
  have hserves := doRequest_spec strtod ha now cmd out
  obtain ⟨⟨g', out'⟩, hrun⟩ := hserves.returns (hsized.specified (by omega) _)
  have hans := hserves.answered _ hrun
  obtain ⟨r, hr, -⟩ := hans.reply
  dsimp only at hr
  exact ⟨g', r.encode, hr ▸ hrun, _, m + 1, hans.after, hsized.after now _, by omega⟩

section Handlers

variable {σ : Type} {app : σ → UInt64 → List Bytes → Buffer → Exec (σ × Buffer)}
  {J : Nat → σ → Prop} {s : σ} {conn : Conn} {nows : Nat → UInt64}

/-- `J n` lets the application return `n` times. -/
def Returns (app : σ → UInt64 → List Bytes → Buffer → Exec (σ × Buffer)) (J : Nat → σ → Prop) :
    Prop :=
  ∀ n s now cmd out, J (n + 1) s → ∃ s' body, app s now cmd out = .ok (s', out ++ body) ∧ J n s'

/-- The loop returns when the application does, once for each eight bytes. -/
theorem requestLoop_returns (happ : Returns app J) : ∀ (fuel i n : Nat) (s : σ) (conn : Conn),
    J n s → conn.incoming.length < 8 * (n + 1) → conn.incoming.length < fuel →
      ∃ res, requestLoop app nows fuel i s conn = .ok res := by
  intro fuel
  induction fuel with
  | zero => intro i n s conn _ _ h; exact absurd h (Nat.not_lt_zero _)
  | succ fuel ih =>
    intro i n s conn hs hroom hfuel
    unfold requestLoop
    rcases head_cases conn.incoming with h | h | ⟨cmd, rest, h⟩
    · rw [tryOneRequest_unfinished h]
      exact ⟨_, rfl⟩
    · rw [tryOneRequest_invalid h]
      exact ⟨_, rfl⟩
    · have hle := h.eight_le
      obtain ⟨n, rfl⟩ : ∃ k, n = k + 1 := ⟨n - 1, by omega⟩
      obtain ⟨s', body, hrun, hs'⟩ := happ n s (nows i) cmd (conn.outgoing ++ bytesOf 4 0) hs
      rw [tryOneRequest_startsWith h, within_eq_ok.mpr hrun, ok_bind]
      dsimp only
      rw [responseEnd_spec, ok_bind, ok_bind]
      exact ih (i + 1) n s' _ hs' (by dsimp only; omega) (by dsimp only; omega)

theorem clean_handleWrite (conn : Conn) (write : WriteResult) : Clean (handleWrite conn write) :=
  (clean_check _).bind fun _ _ => by
    cases write with
    | again => exact .ok _
    | error => exact .ok _
    | count n =>
      refine Clean.bind ?_ fun outgoing _ => ?_
      · unfold bufConsume
        split <;> exact nofun
      · dsimp only
        split <;> exact .ok _

theorem clean_handleRead (happ : Returns app J) {n : Nat} (hs : J n s)
    (hroom : conn.incoming.length + readBufSize < 8 * (n + 1)) (read : ReadResult)
    (write : WriteResult) : Clean (handleRead app s conn nows read write) := by
  unfold handleRead
  cases read with
  | again => exact .ok _
  | error => exact .ok _
  | data bs =>
    dsimp only
    split
    · exact .ok _
    · have hlen := List.length_take_le readBufSize bs
      refine Clean.bind (.of_ok (requestLoop_returns happ _ _ n s _ hs ?_ (Nat.lt_succ_self _)))
        fun res _ => ?_
      · show (conn.incoming ++ bs.take readBufSize).length < 8 * (n + 1)
        rw [List.length_append]
        omega
      · split
        · exact (clean_handleWrite _ _).bind fun _ _ => .ok _
        · exact .ok _

end Handlers

/-! ## Sockets -/

theorem clean_dlistDetach (m : Store DList) (node : Ptr) : Clean (dlistDetach m node) :=
  (Store.clean_load m node).bind fun _ _ => (clean_deref _).bind fun _ _ =>
    (clean_deref _).bind fun _ _ => (Store.clean_modify _ _ _).bind fun _ _ =>
      Store.clean_modify _ _ _

theorem clean_dlistInsertBefore (m : Store DList) (target rookie : Ptr) :
    Clean (dlistInsertBefore m target rookie) :=
  (Store.clean_load m target).bind fun _ _ => (clean_deref _).bind fun _ _ =>
    (Store.clean_modify _ _ _).bind fun _ _ => (Store.clean_modify _ _ _).bind fun _ _ =>
      (Store.clean_modify _ _ _).bind fun _ _ => Store.clean_modify _ _ _

theorem clean_connDestroy (g : GData) (conn : Ptr) : Clean (connDestroy g conn) :=
  (Store.clean_load _ _).bind fun _ _ => (clean_index _ _).bind fun _ _ =>
    (clean_dlistDetach _ _).bind fun _ _ => (Store.clean_free _ _).bind fun _ _ =>
      (Store.clean_free _ _).bind fun _ _ => .ok _

/-- The connection at `p` holds less than what the sets have room for after the next `read`. -/
def Spacious (n : Nat) (g : GData) (p : Ptr) : Prop :=
  Roomy n g.kv ∧ ∀ c, g.conns p = some c → c.incoming.length + readBufSize < 8 * (n + 1)

section

variable {g : GData} {p : Ptr} {n : Nat} {ready : Revents} {io : Served}

theorem clean_handleIo (h : Spacious n g p) : Clean (handleIo strtod g p ready io) := by
  have hwrite : ∀ g1 : GData, Clean (if ready.pollout = true then do
      let c ← g1.conns.load p
      check c.wantWrite
      let written ← handleWrite c io.write
      .ok { g1 with conns := g1.conns.write p written.1 }
    else .ok g1 : Exec GData) := fun g1 => by
    split
    · exact (Store.clean_load _ _).bind fun _ _ => (clean_check _).bind fun _ _ =>
        (clean_handleWrite _ _).bind fun _ _ => .ok _
    · exact .ok _
  unfold handleIo
  dsimp only
  split
  · refine (Store.clean_load _ _).bind fun c hc => (clean_check _).bind fun _ _ => ?_
    exact (clean_handleRead (fun _ _ now cmd out h => h.request now cmd out) h.1
      (h.2 c (Store.load_eq_ok.mp hc)) _ _).bind fun _ _ => hwrite _
  · exact hwrite g

theorem clean_serveConn {fd : Nat} (h : ∀ p, Spacious n g p) :
    Clean (serveConn strtod g fd ready io) := by
  unfold serveConn
  split
  · exact .ok _
  · refine (clean_index _ _).bind fun _ _ => (clean_deref _).bind fun p _ =>
      (Store.clean_modify _ _ _).bind fun conns hconns => (clean_dlistDetach _ _).bind fun _ _ =>
        (clean_dlistInsertBefore _ _ _).bind fun idle _ => Clean.bind ?_ fun g' _ =>
          (Store.clean_load _ _).bind fun c _ => ?_
    · refine clean_handleIo ⟨(h p).1, fun c hc => ?_⟩
      obtain ⟨c0, hc0, hwrite⟩ := bind_eq_ok.mp hconns
      obtain rfl := Except.ok.inj hwrite
      obtain rfl : { c0 with lastActiveMs := io.now } = c :=
        Option.some.inj ((Store.write_same _ _ _).symm.trans hc)
      exact (h p).2 c0 (Store.load_eq_ok.mp hc0)
    · split
      · exact clean_connDestroy _ _
      · exact .ok _

end

/-! ## The event loop -/

/-- Each of the next events has a next state: the handler that it runs returns. -/
def LoopState.Goes (strtod : Strtod) (s : LoopState) : Prop :=
  (∃ s', LoopStep strtod s .work s') ∧
    match s.phase with
    | .poll => ∃ args, pollArgs s.data s.data.fd2conn = .ok args ∧
        ∀ now listening revents, List.Forall₂ Revents.For revents args →
          ∃ s', LoopStep strtod s (.polled now listening revents) s'
    | .accept _ => ∀ now accept, (∀ fd ∈ accept, fd ∉ s.data.fds) →
        ∃ s', LoopStep strtod s (.accepted now accept) s'
    | .serve [] => ∀ now, ∃ s', LoopStep strtod s (.timers now) s'
    | .serve (_ :: _) => ∀ io, ∃ s', LoopStep strtod s (.served io) s'

/-- **No handler fails.** In every state that the server reaches, as long as no sorted set comes
    within `maxRequests` of 2^32 members, the handler of each of the next events returns, whatever
    the clients have sent: no null pointer is followed, no assertion fails, and no loop runs for
    ever. -/
theorem handlers_return {es : List LoopEvent} {s : LoopState} (hrun : Run (LoopStep strtod) {} es s)
    {a : Keyspace} {m : Nat} (ha : Refines s.data.kv a) (hsized : a.Sized m)
    (hm : m + maxRequests < 2 ^ 32) : s.Goes strtod := by
  obtain ⟨ys, h, hrest⟩ := run_steady hrun
  refine ⟨?_, ?_⟩
  · obtain ⟨kv, hwork, -⟩ := poolWork_refines ha
    exact ⟨_, .work hwork⟩
  · obtain ⟨g, phase⟩ := s
    cases phase with
    | poll =>
      obtain ⟨args, hargs, -⟩ := h.listed.pollArgs
      exact ⟨args, hargs, fun now listening revents hfor => ⟨_, .polled hargs hfor⟩⟩
    | accept rest =>
      intro now accept hnew
      cases accept with
      | none => exact ⟨_, .accepted hnew rfl⟩
      | some fd =>
        obtain ⟨g', hg, -⟩ := handleAccept_spec h.listed (hnew fd rfl) now
        exact ⟨_, .accepted hnew hg⟩
    | serve rest =>
      cases rest with
      | nil =>
        intro now
        obtain ⟨g', hg, -⟩ := processTimers_spec h.listed h.kv now
        exact ⟨_, .timers hg⟩
      | cons x rest =>
        intro io
        obtain ⟨fd, ready⟩ := x
        obtain ⟨p, c, hp, rfl, hfor⟩ := hrest.conn (fd, ready) List.mem_cons_self
        have hspace : ∀ p, Spacious maxRequests g p := fun p =>
          ⟨⟨a, m, ha, hsized, hm⟩, fun c hc => by
            have hlen := (run_conns (connRule_bounded strtod) hrun hc).1.incoming.length_lt
            unfold maxRequests readBufSize kMaxMsg at *
            omega⟩
        rcases serveConn_spec strtod h.listed h.kv hp (h.settled p c hp) hfor io with
          hfail | ⟨g', ys', hg, -⟩
        · exact absurd hfail (clean_serveConn hspace)
        · exact ⟨_, .served hg⟩

/-- There are no more members in a set than there have been requests. -/
theorem run_sized {ls : List KEvent} {k : KState} (hrun : Run (KStep strtod) {} ls k) :
    ∃ a, Refines k.data a ∧ a.Sized ls.length := by
  refine hrun.traced (I := fun ls (k : KState) => ∃ a, Refines k.data a ∧ a.Sized ls.length)
    (fun ls k l k' h hstep => ?_)
    ⟨∅, Refines.empty, fun key item h => absurd (Finmap.mem_of_lookup_eq_some h) Finmap.notMem_empty⟩
  obtain ⟨a, ha, hsized⟩ := h
  rw [List.length_append, List.length_singleton]
  cases hstep with
  | @request now cmd out reply g _ hrequest =>
    have hans := (doRequest_spec strtod ha now cmd out).answered _ hrequest
    exact ⟨_, hans.after, hsized.after now _⟩
  | @timers now g _ htimers =>
    obtain ⟨g', a', htimers', ha', -, hexp⟩ := processTtl_spec ha now
    obtain rfl := ok_unique htimers' htimers
    refine ⟨a', ha', fun key item hitem => ?_⟩
    rw [hexp.exact.kept key (Finmap.mem_of_lookup_eq_some hitem)] at hitem
    exact (hsized key item hitem).trans (Nat.le_succ _)
  | work hwork =>
    obtain ⟨g', hwork', ha', -⟩ := poolWork_refines ha
    obtain rfl := ok_unique hwork' hwork
    exact ⟨a, ha', fun key item hitem => (hsized key item hitem).trans (Nat.le_succ _)⟩

/-- Two clients have sent requests, and one of them is about to be read from again. -/
theorem handlers_return_shared : ∃ s : LoopState, s.phase = .serve [(6, { pollin := true })] ∧
    (∃ c, s.data.conns 1 = some c ∧ c.outgoing ≠ []) ∧ s.Goes fun _ => (⟨0⟩, 0) := by
  obtain ⟨es, t, hrun, -, hentries, hphase, hout, -⟩ := exists_shared_run
  obtain ⟨k, hk, hosts⟩ := (run_recorded hrun).run
  obtain ⟨a, ha, hsized⟩ := run_sized hk
  rw [hentries] at hsized
  exact ⟨t.server.loop, hphase, hout,
    handlers_return (run_loop hrun) (hosts.data ▸ ha) hsized (by decide)⟩

end Greenis
