/-
  The keyspace of the server.

  What the event loop does to the keyspace is a run of commands, timer passes and workers
  (`LoopStep.hosts`). So what holds of these runs holds of the server: it refines the keyspace
  machine, whatever its connections do (`server_refines_keyspace`).
-/
import Greenis.Proofs.KeyspaceRuns
import Greenis.Proofs.IdleList

namespace Greenis
open CExec LTS Ring

/-! ## Connections -/

theorem connDestroy_kv {g g' : GData} {p : Ptr} (hrun : connDestroy g p = .ok g') :
    g'.kv = g.kv := by
  obtain ⟨c, -, hrun⟩ := bind_eq_ok.mp hrun
  obtain ⟨old, -, hrun⟩ := bind_eq_ok.mp hrun
  obtain ⟨detached, -, hrun⟩ := bind_eq_ok.mp hrun
  obtain ⟨conns, -, hrun⟩ := bind_eq_ok.mp hrun
  obtain ⟨idle, -, hrun⟩ := bind_eq_ok.mp hrun
  cases hrun
  rfl

theorem handleAccept_kv {g g' : GData} {accept : Option Nat} {now : UInt64}
    (hrun : handleAccept g accept now = .ok g') : g'.kv = g.kv := by
  cases accept with
  | none =>
    cases hrun
    rfl
  | some connfd =>
    obtain ⟨idle, -, hrun⟩ := bind_eq_ok.mp hrun
    obtain ⟨old, -, hrun⟩ := bind_eq_ok.mp hrun
    obtain ⟨u, -, hrun⟩ := bind_eq_ok.mp hrun
    cases hrun
    rfl

theorem idleLoop_kv {now : UInt64} {fuel : Nat} {g g' : GData}
    (hrun : idleLoop now fuel g = .ok g') : g'.kv = g.kv := by
  induction fuel generalizing g with
  | zero => cases hrun
  | succ fuel ih =>
    obtain ⟨first, -, hrun⟩ := bind_eq_ok.mp hrun
    cases first with
    | none =>
      cases hrun
      rfl
    | some front =>
      obtain ⟨p, c⟩ := front
      dsimp only at hrun
      split at hrun
      · cases hrun
        rfl
      · obtain ⟨g1, hrun1, hrun⟩ := bind_eq_ok.mp hrun
        exact (ih hrun).trans (connDestroy_kv hrun1)

/-! ## Requests -/

section

variable {strtod : Strtod} {nows : Nat → UInt64} {clock : UInt64}

/-- The requests a connection has sent are commands, one after another. -/
theorem requestLoop_run (hmono : ∀ i, nows i ≤ nows (i + 1)) (hlast : ∀ i, nows i ≤ clock) :
    ∀ (fuel i : Nat) (k : KState) (conn conn' : Conn) (g : KData), KInv k.data →
      k.clock ≤ nows i →
      requestLoop (doRequest strtod) nows fuel i k.data conn = .ok (g, conn') →
      ∃ ls k', Run (KStep strtod) k ls k' ∧ k'.data = g ∧ k'.clock ≤ clock := by
  intro fuel
  induction fuel with
  | zero => intro i k conn conn' g _ _ hrun; cases hrun
  | succ fuel ih =>
    intro i k conn conn' g hk hclock hrun
    have hquiet : ∃ ls k', Run (KStep strtod) k ls k' ∧ k'.data = k.data ∧ k'.clock ≤ clock :=
      ⟨[], k, .refl k, rfl, UInt64.le_trans hclock (hlast i)⟩
    obtain ⟨⟨more, g1, conn1⟩, htry, hrun⟩ := bind_eq_ok.mp hrun
    have htried := tryOneRequest_spec (appends_doRequest strtod) hk (nows i) conn
    rw [htry] at htried
    cases htried with
    | unfinished =>
      cases hrun
      exact hquiet
    | invalid =>
      cases hrun
      exact hquiet
    | served _ happly =>
      have hstep : KStep strtod k _ ⟨nows i, g1⟩ := .request hclock happly
      obtain ⟨ls, k', hrun', hdata, hle⟩ := ih (i + 1) ⟨nows i, g1⟩ _ conn' g
        (appends_doRequest strtod _ _ _ _ _ _ hk happly).1 (hmono i) hrun
      exact ⟨_, k', ((Run.refl k).snoc hstep).trans hrun', hdata, hle⟩

theorem handleRead_run (hmono : ∀ i, nows i ≤ nows (i + 1)) (hlast : ∀ i, nows i ≤ clock)
    {k : KState} (hk : KInv k.data) (hclock : ∀ i, k.clock ≤ nows i) {conn conn' : Conn}
    {read : ReadResult} {write : WriteResult} {g : KData} {sent : Bytes}
    (hrun : handleRead (doRequest strtod) k.data conn nows read write = .ok (g, conn', sent)) :
    ∃ ls k', Run (KStep strtod) k ls k' ∧ k'.data = g ∧ k'.clock ≤ clock := by
  have hquiet : ∃ ls k', Run (KStep strtod) k ls k' ∧ k'.data = k.data ∧ k'.clock ≤ clock :=
    ⟨[], k, .refl k, rfl, UInt64.le_trans (hclock 0) (hlast 0)⟩
  unfold handleRead at hrun
  cases read with
  | again =>
    cases hrun
    exact hquiet
  | error =>
    cases hrun
    exact hquiet
  | data bs =>
    dsimp only at hrun
    split at hrun
    · cases hrun
      exact hquiet
    · obtain ⟨⟨g1, conn1⟩, hloop, hrun⟩ := bind_eq_ok.mp hrun
      obtain rfl : g1 = g := by
        dsimp only at hrun
        split at hrun
        · obtain ⟨written, -, hrun⟩ := bind_eq_ok.mp hrun
          cases hrun
          rfl
        · cases hrun
          rfl
      exact requestLoop_run hmono hlast _ _ k _ _ _ hk (hclock 0) hloop

/-! ## The event loop -/

/-- The keyspace of the server is that of `k`. -/
structure Hosts (s : TimedState) (k : KState) : Prop where
  data : k.data = s.loop.data.kv
  clock : k.clock ≤ s.clock
  inv : KInv k.data

theorem handleIo_run {g g' : GData} {p : Ptr} {ready : Revents} {io : Served} {k : KState}
    (hdata : k.data = g.kv) (hk : KInv k.data) (hclock : k.clock ≤ io.now)
    (htimes : ∀ i, io.now ≤ io.nows i ∧ io.nows i ≤ io.nows (i + 1) ∧ io.nows i ≤ clock)
    (hrun : handleIo strtod g p ready io = .ok g') :
    ∃ ls k', Run (KStep strtod) k ls k' ∧ k'.data = g'.kv ∧ k'.clock ≤ clock := by
  -- A write leaves the keyspace alone.
  have hwrite : ∀ {g1 : GData}, (if ready.pollout = true then do
      let c ← g1.conns.load p
      check c.wantWrite
      let written ← handleWrite c io.write
      .ok { g1 with conns := g1.conns.write p written.1 }
    else .ok g1 : Exec GData) = .ok g' → g'.kv = g1.kv := by
    intro g1 hrun
    split at hrun
    · obtain ⟨c, -, hrun⟩ := bind_eq_ok.mp hrun
      obtain ⟨u, -, hrun⟩ := bind_eq_ok.mp hrun
      obtain ⟨written, -, hrun⟩ := bind_eq_ok.mp hrun
      cases hrun
      rfl
    · cases hrun
      rfl
  unfold handleIo at hrun
  dsimp only at hrun
  split at hrun
  · obtain ⟨c, -, hrun⟩ := bind_eq_ok.mp hrun
    obtain ⟨u, -, hrun⟩ := bind_eq_ok.mp hrun
    obtain ⟨⟨kv, c', sent⟩, hhandle, hrun⟩ := bind_eq_ok.mp hrun
    rw [← hdata] at hhandle
    rw [hwrite hrun]
    exact handleRead_run (fun i => (htimes i).2.1) (fun i => (htimes i).2.2) hk
      (fun i => UInt64.le_trans hclock (htimes i).1) hhandle
  · rw [hwrite hrun]
    exact ⟨[], k, .refl k, hdata, UInt64.le_trans hclock
      (UInt64.le_trans (htimes 0).1 (htimes 0).2.2)⟩

theorem serveConn_run {g g' : GData} {fd : Nat} {ready : Revents} {io : Served} {k : KState}
    (hdata : k.data = g.kv) (hk : KInv k.data) (hclock : k.clock ≤ io.now)
    (htimes : ∀ i, io.now ≤ io.nows i ∧ io.nows i ≤ io.nows (i + 1) ∧ io.nows i ≤ clock)
    (hrun : serveConn strtod g fd ready io = .ok g') :
    ∃ ls k', Run (KStep strtod) k ls k' ∧ k'.data = g'.kv ∧ k'.clock ≤ clock := by
  unfold serveConn at hrun
  split at hrun
  · cases hrun
    exact ⟨[], k, .refl k, hdata, UInt64.le_trans hclock
      (UInt64.le_trans (htimes 0).1 (htimes 0).2.2)⟩
  · obtain ⟨entry, -, hrun⟩ := bind_eq_ok.mp hrun
    obtain ⟨p, -, hrun⟩ := bind_eq_ok.mp hrun
    obtain ⟨conns, -, hrun⟩ := bind_eq_ok.mp hrun
    obtain ⟨detached, -, hrun⟩ := bind_eq_ok.mp hrun
    obtain ⟨idle, -, hrun⟩ := bind_eq_ok.mp hrun
    obtain ⟨g1, hio, hrun⟩ := bind_eq_ok.mp hrun
    obtain ⟨c, -, hrun⟩ := bind_eq_ok.mp hrun
    have hkv : g'.kv = g1.kv := by
      split at hrun
      · exact connDestroy_kv hrun
      · cases hrun
        rfl
    rw [hkv]
    refine handleIo_run ?_ hk hclock htimes hio
    exact hdata

end

/-- A step of the event loop is a run of commands, a timer pass, or a step of a worker. -/
theorem LoopStep.hosts {strtod : Strtod} {s s' : TimedState} {e : LoopEvent} {k : KState}
    (h : Hosts s k) (hstep : TimedStep strtod s e s') :
    ∃ ls k', Run (KStep strtod) k ls k' ∧ Hosts s' k' := by
  suffices hrun : ∃ ls k', Run (KStep strtod) k ls k' ∧ k'.data = s'.loop.data.kv ∧
      k'.clock ≤ s'.clock by
    obtain ⟨ls, k', hrun, hdata, hle⟩ := hrun
    exact ⟨ls, k', hrun, hdata, hle, (run_keeps h.inv hrun).1⟩
  have hquiet : ∀ {t : TimedState}, t.loop.data.kv = s.loop.data.kv → s.clock ≤ t.clock →
      ∃ ls k', Run (KStep strtod) k ls k' ∧ k'.data = t.loop.data.kv ∧ k'.clock ≤ t.clock :=
    fun hkv hle => ⟨[], k, .refl k, h.data.trans hkv.symm, UInt64.le_trans h.clock hle⟩
  obtain ⟨hloop, hticks⟩ := hstep
  cases hloop with
  | interrupted => exact hquiet rfl hticks.le
  | polled => exact hquiet rfl hticks.le
  | accepted _ hrun => exact hquiet (handleAccept_kv hrun) hticks.le
  | served hrun =>
    cases hticks with
    | served hbefore _ htimes =>
      exact serveConn_run h.data h.inv (UInt64.le_trans h.clock hbefore) htimes hrun
  | timers hrun =>
    cases hticks with
    | timers hle =>
      obtain ⟨g1, hidle, hrun⟩ := bind_eq_ok.mp hrun
      obtain ⟨kv, hpass, hrun⟩ := bind_eq_ok.mp hrun
      cases hrun
      rw [idleLoop_kv hidle, ← h.data] at hpass
      have hstep : KStep strtod k _ _ := .timers (UInt64.le_trans h.clock hle) hpass
      exact ⟨_, _, (Run.refl k).snoc hstep, rfl, UInt64.le_refl _⟩
  | work hrun =>
    cases hticks
    have hdata := h.data
    dsimp only at hdata
    rw [← hdata] at hrun
    exact ⟨_, _, (Run.refl k).snoc (.work hrun), rfl, h.clock⟩

/-- What has happened to the keyspace when the server has run. -/
theorem run_hosts {strtod : Strtod} {es : List LoopEvent} {s : TimedState}
    (hrun : Run (TimedStep strtod) {} es s) : ∃ ls k, Run (KStep strtod) {} ls k ∧ Hosts s k :=
  have hempty : Hosts {} {} := ⟨rfl, UInt64.le_refl 0, KInv.empty⟩
  Run.simulate_runs (R := Hosts) (fun _ _ _ _ h hstep => LoopStep.hosts h hstep) hempty hrun

/-- Each command and pass of a run is at a clock reading up to the last one. -/
theorem run_timely {strtod : Strtod} {ls : List KEvent} {k k' : KState}
    (hrun : Run (KStep strtod) k ls k') (hclock : k'.clock.toNat < 2 ^ 63) :
    ∀ l ∈ ls, l.Timely := by
  induction hrun with
  | refl => exact fun l hl => absurd hl List.not_mem_nil
  | @snoc k1 k2 ls l _ hstep ih =>
    have hlast : k1.clock ≤ k2.clock ∧ l.Timely := by
      cases hstep with
      | request hle _ => exact ⟨hle, hclock⟩
      | timers hle _ => exact ⟨hle, hclock⟩
      | work _ => exact ⟨UInt64.le_refl _, trivial⟩
    have hle := UInt64.le_iff_toNat_le.mp hlast.1
    intro l' hl'
    rcases List.mem_append.mp hl' with hl' | hl'
    · exact ih (by omega) l' hl'
    · rw [List.mem_singleton.mp hl']
      exact hlast.2

/-- **The server refines the keyspace machine**, whatever its connections do: while the clock is
    below 2^63, its memory stands for a keyspace that the machine reaches. -/
theorem server_refines_keyspace {strtod : Strtod} {es : List LoopEvent} {s : TimedState}
    (hrun : Run (TimedStep strtod) {} es s) (hclock : s.clock.toNat < 2 ^ 63) :
    ∃ ls m, Run (Machine.Step strtod) {} ls m ∧ Refines s.loop.data.kv m.keys ∧
      m.clock ≤ s.clock.toNat ∧ m.Near := by
  obtain ⟨ls, k, hkrun, hhosts⟩ := run_hosts hrun
  have hle := UInt64.le_iff_toNat_le.mp hhosts.clock
  obtain ⟨m, hm, h⟩ := run_simulate hkrun (run_timely hkrun (by omega))
  refine ⟨ls, m, hm, ?_, ?_, h.near⟩
  · rw [← hhosts.data]
    exact h.refines
  · rw [h.clock]
    exact hle

end Greenis
