/-
  What the server does for all of its clients at once.

  The history of a run has an entry for each call of `do_request`, with the connection that sent the
  request, and for each timer pass and job, in the order in which they happen; and for each
  connection the bytes that came in and went out. `History.after` adds to it what an event does.
  Every history is one of the keyspace machine, and each client gets the replies to its own
  requests, in order (`server_linearizable`).
-/
import Greenis.Proofs.Traffic

namespace Greenis
open CExec LTS

/-! ## Histories -/

inductive History.Entry where
  | call (conn : Ptr) (call : Call)
  | timers (now : UInt64)
  | work

def History.Entry.event : History.Entry → KEvent
  | .call _ c => c.event
  | .timers now => .timers now
  | .work => .work

/-- The call, if it is one for the connection at `p`. -/
def History.Entry.callOf (p : Ptr) : History.Entry → Option Call
  | .call conn c => if conn = p then some c else none
  | _ => none

structure History where
  entries : List History.Entry := []
  received : Ptr → Bytes := fun _ => []
  written : Ptr → Bytes := fun _ => []

/-- The calls for the connection at `p`. -/
def History.calls (h : History) (p : Ptr) : List Call :=
  h.entries.filterMap (History.Entry.callOf p)

def History.add (h : History) (p : Ptr) (x : Exchange) : History where
  entries := h.entries ++ x.calls.map (.call p)
  received := Function.update h.received p (h.received p ++ x.received)
  written := Function.update h.written p (h.written p ++ x.sent)

def History.push (h : History) (e : History.Entry) : History :=
  { h with entries := h.entries ++ [e] }

/-- What is served next, and how. -/
def LoopState.serves (strtod : Strtod) (s : LoopState) (io : Served) : Option (Ptr × Exchange) :=
  match s.phase with
  | .serve ((fd, ready) :: _) =>
    match serveConnRecorded strtod s.data fd ready io with
    | .ok (_, served) => served
    | .error _ => none
  | _ => none

def History.after (strtod : Strtod) (h : History) (s : LoopState) : LoopEvent → History
  | .served io => (s.serves strtod io).elim h fun served => h.add served.1 served.2
  | .timers now => h.push (.timers now)
  | .work => h.push .work
  | _ => h

/-- The server with its history. -/
structure TracedState where
  server : TimedState := {}
  history : History := {}

inductive TracedStep (strtod : Strtod) : TracedState → LoopEvent → TracedState → Prop
  | mk {s s' : TimedState} {h : History} {e : LoopEvent} : TimedStep strtod s e s' →
      TracedStep strtod ⟨s, h⟩ e ⟨s', h.after strtod s.loop e⟩

/-- Every run has a history. -/
theorem exists_history {strtod : Strtod} {es : List LoopEvent} {s s' : TimedState} (h : History)
    (hrun : Run (TimedStep strtod) s es s') :
    ∃ h', Run (TracedStep strtod) ⟨s, h⟩ es ⟨s', h'⟩ := by
  induction hrun with
  | refl => exact ⟨h, .refl _⟩
  | snoc _ hstep ih =>
    obtain ⟨h', hrun'⟩ := ih
    exact ⟨_, hrun'.snoc (.mk hstep)⟩

theorem run_timed {strtod : Strtod} {es : List LoopEvent} {t t' : TracedState}
    (hrun : Run (TracedStep strtod) t es t') : Run (TimedStep strtod) t.server es t'.server := by
  induction hrun with
  | refl => exact .refl _
  | snoc _ hstep ih =>
    obtain ⟨htimed⟩ := hstep
    exact ih.snoc htimed

theorem run_loop {strtod : Strtod} {es : List LoopEvent} {t t' : TracedState}
    (hrun : Run (TracedStep strtod) t es t') :
    Run (LoopStep strtod) t.server.loop es t'.server.loop := by
  induction hrun with
  | refl => exact .refl _
  | snoc _ hstep ih =>
    obtain ⟨⟨hloop, -⟩⟩ := hstep
    exact ih.snoc hloop

theorem LoopStep.unique {strtod : Strtod} {s s1 s2 : LoopState} {e : LoopEvent}
    (h1 : LoopStep strtod s e s1) (h2 : LoopStep strtod s e s2) : s1 = s2 := by
  cases h1 with
  | interrupted => cases h2 with
    | interrupted => rfl
  | polled hargs _ => cases h2 with
    | polled hargs' _ => rw [ok_unique hargs hargs']
  | accepted _ hrun => cases h2 with
    | accepted _ hrun' => rw [ok_unique hrun hrun']
  | served hrun => cases h2 with
    | served hrun' => rw [ok_unique hrun hrun']
  | timers hrun => cases h2 with
    | timers hrun' => rw [ok_unique hrun hrun']
  | work hrun => cases h2 with
    | work hrun' => rw [ok_unique hrun hrun']

/-- The events determine the state and the history. -/
theorem run_unique {strtod : Strtod} {es : List LoopEvent} {t t1 t2 : TracedState}
    (h1 : Run (TracedStep strtod) t es t1) (h2 : Run (TracedStep strtod) t es t2) :
    t1.server.loop = t2.server.loop ∧ t1.history = t2.history := by
  refine Prod.mk.inj (h1.unique (f := fun t => (t.server.loop, t.history)) ?_ h2)
  rintro _ _ e _ _ heq ⟨hstep1, _⟩ ⟨hstep2, _⟩
  obtain ⟨hloop, hhistory⟩ := Prod.mk.inj heq
  dsimp only at hloop hhistory ⊢
  subst hloop hhistory
  rw [hstep1.unique hstep2]

section

variable (h : History) (p : Ptr)

@[simp] theorem calls_add_same (x : Exchange) : (h.add p x).calls p = h.calls p ++ x.calls := by
  have hown : ∀ call, History.Entry.callOf p (.call p call) = some call := fun call => if_pos rfl
  unfold History.calls History.add
  rw [List.filterMap_append, List.filterMap_map]
  congr 1
  exact (congrArg (List.filterMap · x.calls) (funext hown)).trans List.filterMap_some

theorem calls_add_other {q : Ptr} (hq : q ≠ p) (x : Exchange) :
    (h.add p x).calls q = h.calls q := by
  have hother : ∀ call, History.Entry.callOf q (.call p call) = none :=
    fun call => if_neg (Ne.symm hq)
  unfold History.calls History.add
  rw [List.filterMap_append, List.filterMap_map]
  have hnone : x.calls.filterMap (History.Entry.callOf q ∘ History.Entry.call p) = [] :=
    List.filterMap_eq_nil_iff.mpr fun call _ => hother call
  rw [hnone, List.append_nil]

theorem calls_push {e : History.Entry} (he : e.callOf p = none) :
    (h.push e).calls p = h.calls p := by
  unfold History.calls History.push
  rw [List.filterMap_append, List.filterMap_cons_none he, List.filterMap_nil, List.append_nil]

end

/-! ## What a history says -/

/-- The record of the connection at `p`, which is open, or closed. -/
inductive Accounts (h : History) (p : Ptr) : Option Conn → Prop
  | opened {c : Conn} : Frames (h.received p) ((h.calls p).map Call.cmd) c.incoming →
      Unfinished c.incoming → h.written p ++ c.outgoing = replies (h.calls p) →
      Accounts h p (some c)
  | closed {rest : Bytes} : Frames (h.received p) ((h.calls p).map Call.cmd) rest →
      (∀ cmd r, ¬ StartsWith rest cmd r) → h.written p <+: replies (h.calls p) →
      Accounts h p none

theorem Accounts.close {h : History} {p : Ptr} {c : Option Conn} (ha : Accounts h p c) :
    Accounts h p none := by
  cases ha with
  | opened hframes hun hsent =>
    exact .closed hframes (fun cmd r hs => hs.not_other.1 hun) ⟨_, hsent⟩
  | closed hframes hmax hsent => exact .closed hframes hmax hsent

theorem Accounts.congr {h h' : History} {p : Ptr} {c : Option Conn} (ha : Accounts h p c)
    (hcalls : h'.calls p = h.calls p) (hin : h'.received p = h.received p)
    (hout : h'.written p = h.written p) : Accounts h' p c := by
  cases ha with
  | opened hframes hun hsent =>
    refine .opened ?_ hun ?_
    · rwa [hin, hcalls]
    · rwa [hout, hcalls]
  | closed hframes hmax hsent =>
    refine .closed ?_ hmax ?_
    · rwa [hin, hcalls]
    · rwa [hout, hcalls]

/-- An exchange with the connection. -/
theorem Accounts.add {strtod : Strtod} {h : History} {p : Ptr} {c c' : Conn} {x : Exchange}
    {k : KState} {g : KData} {clock : UInt64} (ha : Accounts h p (some c))
    (hx : Exchanged strtod k c x g c' clock) :
    Accounts (h.add p x) p none ∧ (c'.wantClose = false → Accounts (h.add p x) p (some c')) := by
  obtain ⟨hframes, hun, hsent⟩ : Frames (h.received p) ((h.calls p).map Call.cmd) c.incoming ∧
      Unfinished c.incoming ∧ h.written p ++ c.outgoing = replies (h.calls p) := by
    cases ha with
    | opened hframes hun hsent => exact ⟨hframes, hun, hsent⟩
  have hframes' : Frames ((h.add p x).received p) (((h.add p x).calls p).map Call.cmd)
      c'.incoming := by
    rw [calls_add_same, List.map_append]
    dsimp only [History.add]
    rw [Function.update_self]
    exact (hframes.extend x.received).append hx.frames
  have hsent' : (h.add p x).written p ++ c'.outgoing = replies ((h.add p x).calls p) := by
    rw [calls_add_same, replies_append, ← hsent, List.append_assoc, hx.sent, ← List.append_assoc]
    dsimp only [History.add]
    rw [Function.update_self]
  exact ⟨.closed hframes' hx.rests.2 ⟨_, hsent'⟩, fun hopen => .opened hframes' (hx.rests.1 hopen)
    hsent'⟩

/-! ## Addresses -/

section

variable {g g' : GData} {now : UInt64}

theorem handleAccept_brk {accept : Option Nat} (hrun : handleAccept g accept now = .ok g') :
    g.brk ≤ g'.brk := by
  cases accept with
  | none =>
    cases hrun
    exact Nat.le_refl _
  | some connfd =>
    obtain ⟨idle, -, hrun⟩ := bind_eq_ok.mp hrun
    obtain ⟨old, -, hrun⟩ := bind_eq_ok.mp hrun
    obtain ⟨u, -, hrun⟩ := bind_eq_ok.mp hrun
    cases hrun
    exact Nat.le_succ _

theorem idleLoop_brk {fuel : Nat} (hrun : idleLoop now fuel g = .ok g') : g'.brk = g.brk := by
  induction fuel generalizing g with
  | zero => cases hrun
  | succ fuel ih =>
    obtain ⟨first, -, hrun⟩ := bind_eq_ok.mp hrun
    cases first with
    | none =>
      cases hrun
      rfl
    | some front =>
      dsimp only at hrun
      split at hrun
      · cases hrun
        rfl
      · obtain ⟨g1, hrun1, hrun⟩ := bind_eq_ok.mp hrun
        exact (ih hrun).trans (connDestroy_conns hrun1).2

/-- A timer pass is one of the keyspace. -/
theorem processTimers_step {strtod : Strtod} {k : KState} (hdata : k.data = g.kv)
    (hclock : k.clock ≤ now) (hrun : processTimers g now = .ok g') :
    KStep strtod k (.timers now) ⟨now, g'.kv⟩ ∧ g'.brk = g.brk := by
  obtain ⟨g1, hidle, hrun⟩ := bind_eq_ok.mp hrun
  obtain ⟨kv, hpass, hrun⟩ := bind_eq_ok.mp hrun
  cases hrun
  rw [idleLoop_kv hidle, ← hdata] at hpass
  have hbrk := idleLoop_brk hidle
  exact ⟨.timers hclock hpass, hbrk⟩

end

/-! ## Steps -/

/-- The history is one of the keyspace, and accounts for each connection. -/
structure Recorded (strtod : Strtod) (t : TracedState) : Prop where
  steady : ∃ ys, Steady t.server.loop.data ys ∧ Unserved t.server.loop.data t.server.loop.phase.rest
  run : ∃ k, Run (KStep strtod) {} (t.history.entries.map History.Entry.event) k ∧
    Hosts t.server k
  conn : ∀ p, Accounts t.history p (t.server.loop.data.conns p)
  /-- nothing has come in where there has been no connection -/
  fresh : ∀ p, t.server.loop.data.brk ≤ p →
    t.history.received p = [] ∧ t.history.written p = [] ∧ t.history.calls p = []

theorem Recorded.empty (strtod : Strtod) : Recorded strtod {} where
  steady := ⟨[], Steady.empty, .nil _⟩
  run := ⟨{}, .refl _, rfl, UInt64.le_refl 0, KInv.empty⟩
  conn _ := .closed (.nil _) (fun _ _ hs => hs.not_other.1 (Or.inl (Nat.zero_lt_succ 3)))
    (List.prefix_refl _)
  fresh _ _ := ⟨rfl, rfl, rfl⟩

theorem serveConnRecorded_none {strtod : Strtod} {g g' : GData} {fd : Nat} {ready : Revents}
    {io : Served} (hrun : serveConnRecorded strtod g fd ready io = .ok (g', none)) : g' = g := by
  unfold serveConnRecorded at hrun
  split at hrun
  · cases hrun
    rfl
  · obtain ⟨entry, -, hrun⟩ := bind_eq_ok.mp hrun
    obtain ⟨conn, -, hrun⟩ := bind_eq_ok.mp hrun
    obtain ⟨conns, -, hrun⟩ := bind_eq_ok.mp hrun
    obtain ⟨detached, -, hrun⟩ := bind_eq_ok.mp hrun
    obtain ⟨idle, -, hrun⟩ := bind_eq_ok.mp hrun
    obtain ⟨handled, -, hrun⟩ := bind_eq_ok.mp hrun
    obtain ⟨c, -, hrun⟩ := bind_eq_ok.mp hrun
    obtain ⟨g1, -, hrun⟩ := bind_eq_ok.mp hrun
    cases hrun

/-- What is served is an exchange with a connection, if it is anything. -/
theorem Recorded.serves {strtod : Strtod} {s s' : TimedState} {h : History} {io : Served}
    (hr : Recorded strtod ⟨s, h⟩) (hstep : TimedStep strtod s (.served io) s') :
    (s.loop.serves strtod io = none ∧ s'.loop.data = s.loop.data) ∨
      ∃ p x, s.loop.serves strtod io = some (p, x) ∧ ∀ k, Hosts s k → ∃ c c',
        s.loop.data.conns p = some c ∧ Exchanged strtod k c x s'.loop.data.kv c' s'.clock ∧
        s'.loop.data.brk = s.loop.data.brk ∧
        (s'.loop.data.conns = Function.update s.loop.data.conns p none ∨
          c'.wantClose = false ∧ s'.loop.data.conns = s.loop.data.conns.write p c') := by
  obtain ⟨hloop, hticks⟩ := hstep
  obtain ⟨ys, hsteady, -⟩ := hr.steady
  cases hloop with
  | @served g g' fd ready rest io hserve =>
    cases hticks with
    | served hbefore _ htimes =>
      rw [serveConn_recorded] at hserve
      obtain ⟨⟨g1, served⟩, hrecorded, hserve⟩ := bind_eq_ok.mp hserve
      cases hserve
      have hserves : LoopState.serves strtod ⟨g, .serve ((fd, ready) :: rest)⟩ io = served := by
        dsimp only [LoopState.serves]
        rw [hrecorded]
      cases served with
      | none => exact Or.inl ⟨hserves, serveConnRecorded_none hrecorded⟩
      | some served =>
        obtain ⟨p, x⟩ := served
        have hopen : ∀ q d, g.conns q = some d → d.wantClose = false ∧ Unfinished d.incoming := by
          intro q d hq
          refine ⟨(hsteady.settled q d hq).stays, ?_⟩
          have hown : Accounts h q (some d) := hq ▸ hr.conn q
          cases hown with
          | opened _ hun _ => exact hun
        exact Or.inr ⟨p, x, hserves, fun k hk => serveConnRecorded_spec hk.data hk.inv
          (UInt64.le_trans hk.clock hbefore) htimes hopen hrecorded⟩

/-- The connections are served one at a time. -/
theorem Recorded.served {strtod : Strtod} {s s' : TimedState} {h : History} {io : Served}
    (hr : Recorded strtod ⟨s, h⟩) (hstep : TimedStep strtod s (.served io) s') :
    Recorded strtod ⟨s', h.after strtod s.loop (.served io)⟩ := by
  have hserved := hr.serves hstep
  rcases hstep with @⟨s, s', clock, clock', -, hloop, hticks⟩
  obtain ⟨ys, hsteady, hrest⟩ := hr.steady
  obtain ⟨ys', hsteady', hrest', -⟩ := hloop.keeps hsteady hrest
  obtain ⟨k, hrun, hk⟩ := hr.run
  rcases hserved with ⟨hserves, hdata⟩ | ⟨p, x, hserves, hexchanged⟩
  · have hsame : h.after strtod s (.served io) = h := by
      rw [History.after, hserves]
      rfl
    rw [hsame]
    refine ⟨⟨ys', hsteady', hrest'⟩, ⟨k, hrun, ?_, UInt64.le_trans hk.clock hticks.le, hk.inv⟩, ?_,
      ?_⟩
    · rw [hdata]
      exact hk.data
    · rw [hdata]
      exact hr.conn
    · rw [hdata]
      exact hr.fresh
  · obtain ⟨c, c', hp, hx, hbrk, hconns⟩ := hexchanged k hk
    obtain ⟨k', hrun', hdata', hle'⟩ := hx.run
    have hkept := run_keeps hk.inv hrun'
    have hown : Accounts h p (some c) := hp ▸ hr.conn p
    obtain ⟨hclosed, hopened⟩ := hown.add hx
    have hadd : h.after strtod s (.served io) = h.add p x := by
      rw [History.after, hserves]
      rfl
    rw [hadd]
    refine ⟨⟨ys', hsteady', hrest'⟩, ⟨k', ?_, hdata', hle', hkept.1⟩, fun q => ?_, fun q hq => ?_⟩
    · dsimp only [History.add]
      rw [List.map_append, List.map_map]
      exact hrun.trans hrun'
    · by_cases hqp : q = p
      · subst q
        rcases hconns with hconns | ⟨hkeep, hconns⟩
        · dsimp only
          rw [hconns, Function.update_self]
          exact hclosed
        · dsimp only
          rw [hconns, Store.write_same]
          exact hopened hkeep
      · have hsame : s'.data.conns q = s.data.conns q := by
          rcases hconns with hconns | ⟨-, hconns⟩
          · rw [hconns, Function.update_of_ne hqp]
          · rw [hconns, Store.write_other _ _ hqp]
        dsimp only
        rw [hsame]
        exact (hr.conn q).congr (calls_add_other _ _ hqp _) (Function.update_of_ne hqp _ _)
          (Function.update_of_ne hqp _ _)
    · dsimp only at hq
      have hqp : q ≠ p := by
        rintro rfl
        have := hsteady.listed.fresh q ((hsteady.listed.conn q).mpr ⟨c, hp⟩)
        exact absurd this (Nat.not_lt.mpr (hbrk ▸ hq))
      obtain ⟨hin, hout, hcalls⟩ := hr.fresh q (hbrk ▸ hq)
      exact ⟨(Function.update_of_ne hqp _ _).trans hin,
        (Function.update_of_ne hqp _ _).trans hout, (calls_add_other _ _ hqp _).trans hcalls⟩

theorem Recorded.accepted {strtod : Strtod} {s s' : TimedState} {h : History} {now : UInt64}
    {accept : Option Nat} (hr : Recorded strtod ⟨s, h⟩)
    (hstep : TimedStep strtod s (.accepted now accept) s') : Recorded strtod ⟨s', h⟩ := by
  obtain ⟨hloop, hticks⟩ := hstep
  obtain ⟨ys, hsteady, hrest⟩ := hr.steady
  obtain ⟨ys', hsteady', hrest', hrelisted⟩ := hloop.keeps hsteady hrest
  obtain ⟨k, hrun, hk⟩ := hr.run
  cases hloop with
  | accepted _ haccept =>
    have hbrk := handleAccept_brk haccept
    refine ⟨⟨ys', hsteady', hrest'⟩, ⟨k, hrun, hk.data.trans (handleAccept_kv haccept).symm,
      UInt64.le_trans hk.clock hticks.le, hk.inv⟩, fun p => ?_,
      fun p hp => hr.fresh p (Nat.le_trans hbrk hp)⟩
    cases hrelisted with
    | same hconns =>
      dsimp only at hconns ⊢
      rw [hconns]
      exact hr.conn p
    | accepted hconns =>
      dsimp only at hconns ⊢
      rw [hconns, Store.write_apply]
      split
      · rename_i hpb
        obtain ⟨hin, hout, hcalls⟩ := hr.fresh p (Nat.le_of_eq hpb.symm)
        dsimp only at hin hout hcalls
        refine .opened ?_ (Or.inl (Nat.zero_lt_succ 3)) ?_
        · rw [hin, hcalls]
          exact .nil _
        · rw [hout, hcalls]
          rfl
      · exact hr.conn p

/-- A step of the keyspace that is not a call. Connections may be closed. -/
theorem Recorded.push {strtod : Strtod} {s s' : TimedState} {h : History} {e : History.Entry}
    (hr : Recorded strtod ⟨s, h⟩) (he : ∀ p, e.callOf p = none)
    (hsteady : ∃ ys, Steady s'.loop.data ys ∧ Unserved s'.loop.data s'.loop.phase.rest)
    (hstep : ∀ k, Hosts s k → ∃ k', KStep strtod k e.event k' ∧ Hosts s' k')
    (hconns : ∀ p, s'.loop.data.conns p = s.loop.data.conns p ∨ s'.loop.data.conns p = none)
    (hbrk : s'.loop.data.brk = s.loop.data.brk) : Recorded strtod ⟨s', h.push e⟩ := by
  obtain ⟨k, hrun, hk⟩ := hr.run
  obtain ⟨k', hkstep, hk'⟩ := hstep k hk
  refine ⟨hsteady, ⟨k', ?_, hk'⟩, fun p => ?_, fun p hp => ?_⟩
  · dsimp only [History.push]
    rw [List.map_append]
    exact hrun.snoc hkstep
  · have hsame : Accounts (h.push e) p (s.loop.data.conns p) :=
      (hr.conn p).congr (calls_push _ _ (he p)) rfl rfl
    dsimp only
    rcases hconns p with hconns | hconns
    · rw [hconns]
      exact hsame
    · rw [hconns]
      exact hsame.close
  · obtain ⟨hin, hout, hcalls⟩ := hr.fresh p (hbrk ▸ hp)
    exact ⟨hin, hout, (calls_push _ _ (he p)).trans hcalls⟩

theorem Recorded.timers {strtod : Strtod} {g g' : GData} {clock now : UInt64} {h : History}
    (hr : Recorded strtod ⟨⟨⟨g, .serve []⟩, clock⟩, h⟩) (hle : clock ≤ now)
    (hrun : processTimers g now = .ok g') :
    Recorded strtod ⟨⟨⟨g', .poll⟩, now⟩, h.push (.timers now)⟩ := by
  obtain ⟨ys, hsteady, hrest⟩ := hr.steady
  have hstep : LoopStep strtod ⟨g, .serve []⟩ (.timers now) ⟨g', .poll⟩ := .timers hrun
  obtain ⟨ys', hsteady', hrest', hrelisted⟩ := hstep.keeps hsteady hrest
  obtain ⟨k, -, hk⟩ := hr.run
  have hpass : ∀ k, Hosts ⟨⟨g, .serve []⟩, clock⟩ k →
      KStep strtod k (.timers now) ⟨now, g'.kv⟩ ∧ g'.brk = g.brk := fun k hk =>
    processTimers_step hk.data (UInt64.le_trans hk.clock hle) hrun
  refine hr.push (fun _ => rfl) ⟨ys', hsteady', hrest'⟩ (fun k hk => ?_) (fun p => ?_)
    (hpass k hk).2
  · exact ⟨⟨now, g'.kv⟩, (hpass k hk).1, rfl, UInt64.le_refl _, hsteady'.kv⟩
  · cases hrelisted with
    | same hconns => exact Or.inl (congrFun hconns p)
    | timers hconns =>
      by_cases hp : p ∈ ys.dropWhile (g.expired now)
      · exact Or.inl (hconns p hp)
      · refine Or.inr (Option.eq_none_iff_forall_ne_some.mpr fun c hc => hp ?_)
        exact (hsteady'.listed.conn p).mpr ⟨c, hc⟩

theorem TracedStep.recorded {strtod : Strtod} {t t' : TracedState} {e : LoopEvent}
    (hr : Recorded strtod t) (hstep : TracedStep strtod t e t') : Recorded strtod t' := by
  obtain ⟨⟨hloop, hticks⟩⟩ := hstep
  obtain ⟨ys, hsteady, hrest⟩ := hr.steady
  obtain ⟨ys', hsteady', hrest', hrelisted⟩ := hloop.keeps hsteady hrest
  obtain ⟨k, hrun, hk⟩ := hr.run
  cases hloop with
  | interrupted =>
    exact ⟨hr.steady, ⟨k, hrun, hk.data, UInt64.le_trans hk.clock hticks.le, hk.inv⟩, hr.conn,
      hr.fresh⟩
  | polled =>
    exact ⟨⟨ys', hsteady', hrest'⟩,
      ⟨k, hrun, hk.data, UInt64.le_trans hk.clock hticks.le, hk.inv⟩, hr.conn, hr.fresh⟩
  | accepted hnew haccept => exact hr.accepted ⟨.accepted hnew haccept, hticks⟩
  | served hserve => exact hr.served ⟨.served hserve, hticks⟩
  | timers htimers =>
    cases hticks with
    | timers hle => exact hr.timers hle htimers
  | @work g phase kv hwork =>
    cases hticks
    refine hr.push (fun _ => rfl) ⟨ys', hsteady', hrest'⟩ (fun k hk => ?_) (fun _ => Or.inl rfl) rfl
    have hdata := hk.data
    dsimp only at hdata
    rw [← hdata] at hwork
    exact ⟨_, .work hwork, rfl, hk.clock, hsteady'.kv⟩

theorem run_recorded {strtod : Strtod} {es : List LoopEvent} {t : TracedState}
    (hrun : Run (TracedStep strtod) {} es t) : Recorded strtod t :=
  hrun.invariant (P := fun _ => True) (fun _ _ _ hr _ hstep => hstep.recorded hr)
    (Recorded.empty strtod) fun _ _ => trivial

/-! ## Linearizability -/

/-- The history of a run is one of the machine, with the replies that have been given. -/
theorem Recorded.machine {strtod : Strtod} {t : TracedState} (hr : Recorded strtod t)
    (hclock : t.server.clock.toNat < 2 ^ 63) :
    ∃ m, Run (Machine.Step strtod) {} (t.history.entries.map History.Entry.event) m ∧
      Refines t.server.loop.data.kv m.keys := by
  obtain ⟨k, hrun, hk⟩ := hr.run
  have hle := UInt64.le_iff_toNat_le.mp hk.clock
  obtain ⟨m, hm, h⟩ := run_simulate hrun (run_timely hrun (by omega))
  refine ⟨m, hm, ?_⟩
  rw [← hk.data]
  exact h.refines

/-- What the history says of a connection, open or not. -/
theorem Recorded.exchanged {strtod : Strtod} {t : TracedState} (hr : Recorded strtod t) (p : Ptr) :
    ∃ rest, Frames (t.history.received p) ((t.history.calls p).map Call.cmd) rest ∧
      (∀ cmd r, ¬ StartsWith rest cmd r) ∧ t.history.written p <+: replies (t.history.calls p) ∧
      ∀ c, t.server.loop.data.conns p = some c →
        c.incoming = rest ∧ t.history.written p ++ c.outgoing = replies (t.history.calls p) := by
  have hconn := hr.conn p
  generalize t.server.loop.data.conns p = c at hconn
  cases hconn with
  | opened hframes hun hsent =>
    refine ⟨_, hframes, fun cmd r hs => hs.not_other.1 hun, ⟨_, hsent⟩, fun c hc => ?_⟩
    obtain rfl := Option.some.inj hc
    exact ⟨rfl, hsent⟩
  | closed hframes hmax hsent => exact ⟨_, hframes, hmax, hsent, nofun⟩

/-- **The server is linearizable.** A run has a history, in which each client's calls are the valid
    frames at the front of what it has sent, in order, and what has been written to it are the
    replies of these calls, up to what is still to be written if its connection is open. The calls
    of all clients, with the timer passes, are a run of the keyspace machine, in the order in which
    they happened. -/
theorem server_linearizable {strtod : Strtod} {es : List LoopEvent} {s : TimedState}
    (hrun : Run (TimedStep strtod) {} es s) (hclock : s.clock.toNat < 2 ^ 63) :
    ∃ h : History, Run (TracedStep strtod) {} es ⟨s, h⟩ ∧
      (∃ m, Run (Machine.Step strtod) {} (h.entries.map History.Entry.event) m ∧
        Refines s.loop.data.kv m.keys) ∧
      ∀ p, ∃ rest, Frames (h.received p) ((h.calls p).map Call.cmd) rest ∧
        (∀ cmd r, ¬ StartsWith rest cmd r) ∧ h.written p <+: replies (h.calls p) ∧
        ∀ c, s.loop.data.conns p = some c →
          c.incoming = rest ∧ h.written p ++ c.outgoing = replies (h.calls p) := by
  obtain ⟨h, htraced⟩ := exists_history {} hrun
  have hr := run_recorded htraced
  exact ⟨h, htraced, hr.machine hclock, hr.exchanged⟩

/-- A client is about to be read from. -/
theorem run_readable (strtod : Strtod) : Run (TracedStep strtod) {}
    [.polled 0 true [], .accepted 0 (some 5), .timers 0, .polled 0 false [{ pollin := true }]]
    ⟨⟨⟨oneClient, .serve [(5, { pollin := true })]⟩, 0⟩, { entries := [.timers 0] }⟩ := by
  have hle := UInt64.le_refl 0
  have hpolled : TimedStep strtod {} (.polled 0 true []) ⟨⟨{}, .accept []⟩, 0⟩ :=
    .mk (.polled rfl .nil) (.polled hle)
  have haccepted : TimedStep strtod ⟨⟨{}, .accept []⟩, 0⟩ (.accepted 0 (some 5))
      ⟨⟨oneClient, .serve []⟩, 0⟩ := .mk (.accepted (by simp) rfl) (.accepted hle)
  have htimers : TimedStep strtod ⟨⟨oneClient, .serve []⟩, 0⟩ (.timers 0) ⟨⟨oneClient, .poll⟩, 0⟩ :=
    .mk (.timers rfl) (.timers hle)
  have hargs : pollArgs oneClient oneClient.fd2conn = .ok [⟨5, true, false⟩] := rfl
  have hreadable : TimedStep strtod ⟨⟨oneClient, .poll⟩, 0⟩ (.polled 0 false [{ pollin := true }])
      ⟨⟨oneClient, .serve [(5, { pollin := true })]⟩, 0⟩ :=
    .mk (LoopStep.polled hargs (.cons ⟨fun _ => rfl, fun h => absurd h Bool.false_ne_true⟩ .nil))
      (.polled hle)
  exact ((((Run.refl _).snoc (.mk hpolled)).snoc (.mk haccepted)).snoc (.mk htimers)).snoc
    (.mk hreadable)

/-- A client sends `keys`, and a part of the reply is still to be written. -/
theorem exists_keys_run : ∃ (es : List LoopEvent) (t : TracedState),
    Run (TimedStep fun _ => (⟨0⟩, 0)) {} es t.server ∧ Run (TracedStep fun _ => (⟨0⟩, 0)) {} es t ∧
      t.server.clock = 0 ∧ t.history.received 1 = frame (encodeCmd [ascii "keys"]) ∧
      t.history.entries = [.timers 0, .call 1 ⟨0, [ascii "keys"], (Reply.arr []).encode⟩] ∧
      ∃ c, t.server.loop.data.conns 1 = some c ∧ c.outgoing ≠ [] := by
  have hrun := (run_readable fun _ => (⟨0⟩, 0)).snoc (l := .served ⟨0, fun _ => 0,
    .data (frame (encodeCmd [ascii "keys"])), .count 3, .again⟩)
    (.mk (.mk (.served rfl) (.still 0)))
  exact ⟨_, _, run_timed hrun, hrun, rfl, rfl, rfl, _, rfl, by decide⟩

/-- What two clients ask for and get. One sets a key that expires. The other sees it, and sets a key
    that the first one finds. -/
def sharedEntries : List History.Entry :=
  [.timers 0, .call 1 ⟨0, [ascii "set", ascii "k", ascii "v"], (Reply.one .nil).encode⟩,
    .timers 0, .timers 0,
    .call 1 ⟨0, [ascii "pexpire", ascii "k", ascii "1"], (Reply.one (.int 1)).encode⟩,
    .call 2 ⟨0, [ascii "get", ascii "k"], (Reply.one (.str (ascii "v"))).encode⟩,
    .call 2 ⟨0, [ascii "set", ascii "j", ascii "w"], (Reply.one .nil).encode⟩,
    .call 2 ⟨0, [ascii "keys"], (Reply.arr [.str (ascii "k"), .str (ascii "j")]).encode⟩,
    .timers 2, .call 1 ⟨2, [ascii "get", ascii "k"], (Reply.one .nil).encode⟩,
    .call 1 ⟨2, [ascii "get", ascii "j"], (Reply.one (.str (ascii "w"))).encode⟩]

/-- The calls of two clients, one after the other and in turns. A part of the replies to the first
    client is still to be written, and the second one is about to be read from. -/
theorem exists_shared_run : ∃ (es : List LoopEvent) (t : TracedState),
    Run (TracedStep fun _ => (⟨0⟩, 0)) {} es t ∧ t.server.clock = 2 ∧
      t.history.entries = sharedEntries ∧
      t.server.loop.phase = .serve [(6, { pollin := true })] ∧
      (∃ c, t.server.loop.data.conns 1 = some c ∧ c.outgoing ≠ []) ∧
      ∃ c, t.server.loop.data.conns 2 = some c ∧ c.outgoing = [] := by
  have hle := UInt64.le_refl 0
  have hle2 := UInt64.le_refl 2
  have hidle : ∀ pfd, Revents.For {} pfd := fun _ => ⟨nofun, nofun⟩
  have hready : ∀ fd, Revents.For { pollin := true } ⟨fd, true, false⟩ := fun _ =>
    ⟨fun _ => rfl, nofun⟩
  -- The first client sets `k`, and the second one is accepted.
  have hset := (run_readable fun _ => (⟨0⟩, 0)).snoc (l := .served ⟨0, fun _ => 0,
    .data (frame (encodeCmd [ascii "set", ascii "k", ascii "v"])), .count 9, .again⟩)
    (.mk (.mk (.served rfl) (.still 0)))
  have htimers := hset.snoc (l := .timers 0) (.mk (.mk (.timers rfl) (.timers hle)))
  have hpolled := htimers.snoc (l := .polled 0 true [{}])
    (.mk (.mk (.polled rfl (.cons (hidle _) .nil)) (.polled hle)))
  have haccepted := hpolled.snoc (l := .accepted 0 (some 6))
    (.mk (.mk (.accepted (by decide) rfl) (.accepted hle)))
  have hskipped := haccepted.snoc (l := .served ⟨0, fun _ => 0, .again, .again, .again⟩)
    (.mk (.mk (.served rfl) (.still 0)))
  have htimers' := hskipped.snoc (l := .timers 0) (.mk (.mk (.timers rfl) (.timers hle)))
  -- Both send requests. Then the TTL of `k` is over.
  have hboth := htimers'.snoc (l := .polled 0 false [{ pollin := true }, { pollin := true }])
    (.mk (.mk (.polled rfl (.cons (hready _) (.cons (hready _) .nil))) (.polled hle)))
  have hfirst := hboth.snoc (l := .served ⟨0, fun _ => 0,
    .data (frame (encodeCmd [ascii "pexpire", ascii "k", ascii "1"])), .count 13, .again⟩)
    (.mk (.mk (.served rfl) (.still 0)))
  have hsecond := hfirst.snoc (l := .served ⟨0, fun _ => 0,
    .data (frame (encodeCmd [ascii "get", ascii "k"]) ++
      frame (encodeCmd [ascii "set", ascii "j", ascii "w"]) ++
      frame (encodeCmd [ascii "keys"])), .count 100, .again⟩)
    (.mk (.mk (.served rfl) (.still 0)))
  have hexpired := hsecond.snoc (l := .timers 2)
    (.mk (.mk (.timers rfl) (.timers (show (0 : UInt64) ≤ 2 by decide))))
  have hagain := hexpired.snoc (l := .polled 2 false [{ pollin := true }, { pollin := true }])
    (.mk (.mk (.polled rfl (.cons (hready _) (.cons (hready _) .nil))) (.polled hle2)))
  have hlast := hagain.snoc (l := .served ⟨2, fun _ => 2,
    .data (frame (encodeCmd [ascii "get", ascii "k"]) ++
      frame (encodeCmd [ascii "get", ascii "j"])), .count 3, .again⟩)
    (.mk (.mk (.served rfl) (.still 2)))
  exact ⟨_, _, hlast, rfl, rfl, rfl, ⟨_, rfl, by decide⟩, _, rfl, rfl⟩

theorem server_linearizable_shared : ∃ (es : List LoopEvent) (s : TimedState) (h : History)
    (m : Machine), Run (TracedStep fun _ => (⟨0⟩, 0)) {} es ⟨s, h⟩ ∧ h.entries = sharedEntries ∧
      Run (Machine.Step fun _ => (⟨0⟩, 0)) {} (sharedEntries.map History.Entry.event) m ∧
      Refines s.loop.data.kv m.keys ∧
      (∃ c, s.loop.data.conns 1 = some c ∧ c.outgoing ≠ [] ∧
        h.written 1 ++ c.outgoing = replies (sharedEntries.filterMap (History.Entry.callOf 1))) ∧
      h.written 2 = replies (sharedEntries.filterMap (History.Entry.callOf 2)) := by
  obtain ⟨es, t, hrun, hclock, hentries, -, ⟨c1, hc1, hout1⟩, c2, hc2, hout2⟩ := exists_shared_run
  obtain ⟨h, htraced, ⟨m, hm, hrefines⟩, hconn⟩ :=
    server_linearizable (run_timed hrun) (hclock ▸ by decide)
  obtain rfl : t.history = h := (run_unique hrun htraced).2
  have hcalls : ∀ p, t.history.calls p = sharedEntries.filterMap (History.Entry.callOf p) :=
    fun p => by rw [← hentries]; rfl
  obtain ⟨_, -, -, -, hopen1⟩ := hconn 1
  obtain ⟨_, -, -, -, hopen2⟩ := hconn 2
  have hwritten2 := (hopen2 c2 hc2).2
  rw [hout2, List.append_nil, hcalls] at hwritten2
  exact ⟨es, t.server, t.history, m, htraced, hentries, hentries ▸ hm, hrefines,
    ⟨c1, hc1, hout1, hcalls 1 ▸ (hopen1 c1 hc1).2⟩, hwritten2⟩

end Greenis
