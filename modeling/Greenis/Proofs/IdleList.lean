/-
  Idle connections are closed exactly.

  The list is in the order of the last activity, since an active connection goes to its end and
  the clock does not go back (`Chronological`). So the connections that are idle for too long are at
  its front, where `process_timers` looks for them (`idle_list_exact`).
-/
import Greenis.Proofs.Server

namespace Greenis
open CExec LTS Ring

/-- `last_active_ms` of the connection at `p`. -/
def GData.active (g : GData) (p : Ptr) : UInt64 := ((g.conns p).map Conn.lastActiveMs).getD 0

theorem active_of {g : GData} {p : Ptr} {c : Conn} (hp : g.conns p = some c) :
    g.active p = c.lastActiveMs := by
  unfold GData.active
  rw [hp, Option.map_some, Option.getD_some]

theorem active_congr {g g' : GData} {p : Ptr} (h : g'.conns p = g.conns p) :
    g'.active p = g.active p := by
  unfold GData.active
  rw [h]

/-! ## The order of the list -/

/-- The list `ys` is in the order of the last activity, which is not after `clock`. -/
structure Chronological (g : GData) (ys : List Ptr) (clock : UInt64) : Prop where
  order : (ys.map g.active).Pairwise (· ≤ ·)
  past : ∀ p ∈ ys, g.active p ≤ clock

section

variable {g g' : GData} {ys zs : List Ptr} {clock clock' : UInt64}

/-- Connections leave the list, and time goes by. -/
theorem Chronological.sublist (h : Chronological g ys clock) (hsub : zs.Sublist ys)
    (hsame : ∀ p ∈ zs, g'.active p = g.active p) (hclock : clock ≤ clock') :
    Chronological g' zs clock' := by
  refine ⟨?_, fun p hp => ?_⟩
  · rw [List.map_congr_left hsame]
    exact h.order.sublist (hsub.map _)
  · rw [hsame p hp]
    exact UInt64.le_trans (h.past p (hsub.subset hp)) hclock

/-- A connection that is active now goes to the end. -/
theorem Chronological.snoc (h : Chronological g ys clock) {p : Ptr} (hp : g.active p = clock) :
    Chronological g (ys ++ [p]) clock := by
  refine ⟨?_, fun q hq => ?_⟩
  · rw [List.map_append, List.map_singleton]
    apply List.pairwise_append.mpr
    refine ⟨h.order, List.pairwise_singleton _ _, fun x hx y hy => ?_⟩
    obtain ⟨q, hq, rfl⟩ := List.mem_map.mp hx
    rw [List.mem_singleton.mp hy, hp]
    exact h.past q hq
  · rcases List.mem_append.mp hq with hq | hq
    · exact h.past q hq
    · rw [List.mem_singleton.mp hq, hp]
      exact UInt64.le_refl _

theorem Chronological.later (h : Chronological g ys clock) (hclock : clock ≤ clock') :
    Chronological g ys clock' :=
  h.sublist (List.Sublist.refl ys) (fun _ _ => rfl) hclock

/-- The list without `p`, in a state that differs at `p` only. -/
theorem Chronological.erase {xs : List Ptr} {p : Ptr} (h : Chronological g (xs ++ p :: zs) clock)
    (hlisted : Listed g (xs ++ p :: zs)) (hsame : ∀ q, q ≠ p → g'.conns q = g.conns q)
    (hclock : clock ≤ clock') : Chronological g' (xs ++ zs) clock' := by
  have hout : p ∉ xs ++ zs := fun hmem => hlisted.ring.not_mem (List.mem_cons_of_mem _ hmem)
  apply h.sublist ((List.sublist_cons_self p zs).append_left xs) _ hclock
  exact fun q hq => active_congr (hsame q fun heq => hout (heq ▸ hq))

end

/-- A socket is served while the clock stands still. -/
theorem LoopEvent.Ticks.still (now : UInt64) {read : ReadResult} {write write' : WriteResult} :
    (LoopEvent.served ⟨now, fun _ => now, read, write, write'⟩).Ticks now now :=
  have hle := UInt64.le_refl now
  .served hle hle fun _ => ⟨hle, hle, hle⟩

theorem LoopEvent.Ticks.le {e : LoopEvent} {clock clock' : UInt64} (h : e.Ticks clock clock') :
    clock ≤ clock' := by
  cases h with
  | served hle hle' _ => exact UInt64.le_trans hle hle'
  | work => exact UInt64.le_refl _
  | _ hle => exact hle

/-- An event at a clock that does not go back keeps the order. -/
theorem Chronological.step {g g' : GData} {ys ys' : List Ptr} {clock clock' : UInt64}
    {e : LoopEvent} (h : Chronological g ys clock) (hlisted : Listed g ys)
    (hmove : Relisted g ys e g' ys') (hticks : e.Ticks clock clock') : Chronological g' ys' clock' := by
  cases hmove with
  | same hconns =>
    apply h.sublist (List.Sublist.refl ys) _ hticks.le
    exact fun p _ => active_congr (congrFun hconns p)
  | accepted hconns =>
    cases hticks with
    | accepted hclock =>
      have hold : Chronological g' ys clock' := by
        apply h.sublist (List.Sublist.refl ys) _ hclock
        intro p hp
        apply active_congr
        rw [hconns, Store.write_other _ _ (Nat.ne_of_lt (hlisted.fresh p hp))]
      have hnew := congrFun hconns g.brk
      rw [Store.write_same] at hnew
      exact hold.snoc (active_of hnew)
  | @served io _ _ _ hserved =>
    cases hticks with
    | served hbefore hafter _ =>
      cases hserved with
      | idle => exact h.later (UInt64.le_trans hbefore hafter)
      | closed hys _ hconns _ =>
        subst hys
        apply h.erase hlisted _ (UInt64.le_trans hbefore hafter)
        intro q hq
        rw [hconns, Function.update_of_ne hq]
      | @moved xs zs _ c c' hys _ hp hconns _ hactive _ _ =>
        subst hys
        have hrest : Chronological g' (xs ++ zs) io.now := by
          apply h.erase hlisted _ hbefore
          intro q hq
          rw [hconns, Store.write_other _ _ hq]
        refine (hrest.snoc ?_).later hafter
        rw [← hactive]
        apply active_of
        rw [hconns, Store.write_same]
  | timers hsame =>
    apply h.sublist (List.dropWhile_sublist _) _ hticks.le
    exact fun p hp => active_congr (hsame p hp)

/-! ## Expiry -/

/-- If what comes before an element that goes goes, `dropWhile` leaves what does not go. -/
theorem dropWhile_eq_filter {α : Type} {goes : α → Bool} {xs : List α}
    (h : xs.Pairwise fun x y => goes y = true → goes x = true) :
    xs.dropWhile goes = xs.filter fun x => !goes x := by
  induction xs with
  | nil => rfl
  | cons x xs ih =>
    obtain ⟨hx, hxs⟩ := List.pairwise_cons.mp h
    by_cases hgoes : goes x = true
    · rw [List.dropWhile_cons_of_pos hgoes, List.filter_cons_of_neg (by simp [hgoes]), ih hxs]
    · have hall : ∀ y ∈ x :: xs, (!goes y) = true := by
        intro y hy
        rw [Bool.not_eq_true', Bool.eq_false_iff]
        rcases List.mem_cons.mp hy with rfl | hy
        · exact hgoes
        · exact fun hgoes' => hgoes (hx y hy hgoes')
      rw [List.dropWhile_cons_of_neg hgoes, List.filter_eq_self.mpr hall]

/-- The time at which a connection has been idle for too long is not cut to 64 bits. -/
theorem deadline_toNat {active clock : UInt64} (hle : active ≤ clock)
    (hclock : clock.toNat + kIdleTimeoutMs.toNat < 2 ^ 64) :
    (active + kIdleTimeoutMs).toNat = active.toNat + kIdleTimeoutMs.toNat := by
  have hle' := UInt64.le_iff_toNat_le.mp hle
  rw [UInt64.toNat_add, Nat.mod_eq_of_lt]
  omega

/-- The connections that are not expired, in their order. -/
theorem Chronological.dropWhile_expired {g : GData} {ys : List Ptr} {clock : UInt64}
    (h : Chronological g ys clock) (hlisted : Listed g ys)
    (hclock : clock.toNat + kIdleTimeoutMs.toNat < 2 ^ 64) (now : UInt64) :
    ys.dropWhile (g.expired now) =
      ys.filter fun p => decide (now.toNat ≤ (g.active p).toNat + kIdleTimeoutMs.toNat) := by
  have hexpired : ∀ p ∈ ys, g.expired now p = true ↔
      (g.active p).toNat + kIdleTimeoutMs.toNat < now.toNat := by
    intro p hp
    obtain ⟨c, hc⟩ := (hlisted.conn p).mp hp
    have hle := h.past p hp
    rw [active_of hc] at hle ⊢
    rw [expired_iff hc, UInt64.lt_iff_toNat_lt, deadline_toNat hle hclock]
  rw [dropWhile_eq_filter]
  · apply List.filter_congr
    intro p hp
    rw [Bool.eq_iff_iff, Bool.not_eq_true', Bool.eq_false_iff, ne_eq, hexpired p hp, Nat.not_lt,
      decide_eq_true_iff]
  · apply (List.pairwise_map.mp h.order).imp_of_mem
    intro p q hp hq hle hgoes
    rw [hexpired q hq] at hgoes
    rw [hexpired p hp]
    have := UInt64.le_iff_toNat_le.mp hle
    omega

/-! ## Runs -/

/-- What holds of the server and its list at a clock reading. -/
theorem run_chronological {strtod : Strtod} {es : List LoopEvent} {s : TimedState}
    (hrun : Run (TimedStep strtod) {} es s) :
    ∃ ys, Steady s.loop.data ys ∧ Unserved s.loop.data s.loop.phase.rest ∧
      Chronological s.loop.data ys s.clock := by
  refine Run.invariant (I := fun s : TimedState => ∃ ys, Steady s.loop.data ys ∧
    Unserved s.loop.data s.loop.phase.rest ∧ Chronological s.loop.data ys s.clock)
    (P := fun _ => True) (fun s e s' ⟨ys, h, hrest, horder⟩ _ hstep => ?_)
    ⟨[], Steady.empty, .nil _, List.Pairwise.nil, by simp⟩ hrun fun _ _ => trivial
  cases hstep with
  | mk hstep hticks =>
    obtain ⟨ys', h', hrest', hmove⟩ := hstep.keeps h hrest
    exact ⟨ys', h', hrest', horder.step h.listed hmove hticks⟩

/-- **Idle connections are closed exactly.** After every run at a clock that does not go back, the
    list is a ring of the open connections in the order of their last activity. While the clock is
    not in its last five seconds, `process_timers` closes the connections that have been idle for
    too long, and leaves the others in their order. -/
theorem idle_list_exact {strtod : Strtod} {es : List LoopEvent} {s : TimedState}
    (hrun : Run (TimedStep strtod) {} es s) :
    ∃ ys, IsRing s.loop.data.idle idleList ys ∧
      (∀ p, p ∈ ys ↔ ∃ c, s.loop.data.conns p = some c) ∧
      (ys.map s.loop.data.active).Pairwise (· ≤ ·) ∧
      (s.clock.toNat + kIdleTimeoutMs.toNat < 2 ^ 64 → ∀ now : UInt64, ∃ g,
        processTimers s.loop.data now = .ok g ∧
        IsRing g.idle idleList (ys.filter fun p =>
          decide (now.toNat ≤ (s.loop.data.active p).toNat + kIdleTimeoutMs.toNat)) ∧
        ∀ p c, g.conns p = some c ↔ s.loop.data.conns p = some c ∧
          now.toNat ≤ c.lastActiveMs.toNat + kIdleTimeoutMs.toNat) := by
  obtain ⟨ys, h, -, horder⟩ := run_chronological hrun
  refine ⟨ys, h.listed.ring, h.listed.conn, horder.order, fun hclock now => ?_⟩
  obtain ⟨g, hg, hlisted, -, hconns⟩ := processTimers_spec h.listed h.kv now
  rw [horder.dropWhile_expired h.listed hclock] at hlisted hconns
  refine ⟨g, hg, hlisted.ring, fun p c => ?_⟩
  have hmem : (∃ d, g.conns p = some d) ↔ p ∈ ys ∧
      now.toNat ≤ (s.loop.data.active p).toNat + kIdleTimeoutMs.toNat := by
    rw [← hlisted.conn, List.mem_filter, decide_eq_true_iff]
  constructor
  · intro hp
    obtain ⟨hin, hlate⟩ := hmem.mp ⟨c, hp⟩
    have hold := (hconns p (List.mem_filter.mpr ⟨hin, decide_eq_true hlate⟩)).symm.trans hp
    rw [active_of hold] at hlate
    exact ⟨hold, hlate⟩
  · rintro ⟨hp, hlate⟩
    have hin := (h.listed.conn p).mpr ⟨c, hp⟩
    rw [← active_of hp] at hlate
    rw [hconns p (List.mem_filter.mpr ⟨hin, decide_eq_true hlate⟩)]
    exact hp

/-- The server with one client, who has been accepted at 0. -/
def oneClient : GData := (handleAccept {} (some 5) 0).toOption.getD {}

theorem run_oneClient (strtod : Strtod) : Run (TimedStep strtod) {}
    [.polled 0 true [], .accepted 0 (some 5), .timers 0] ⟨⟨oneClient, .poll⟩, 0⟩ := by
  have hpolled : TimedStep strtod {} (.polled 0 true []) ⟨⟨{}, .accept []⟩, 0⟩ :=
    .mk (.polled rfl .nil) (.polled (by decide))
  have haccepted : TimedStep strtod ⟨⟨{}, .accept []⟩, 0⟩ (.accepted 0 (some 5))
      ⟨⟨oneClient, .serve []⟩, 0⟩ :=
    .mk (.accepted (by simp) rfl) (.accepted (by decide))
  exact (((Run.refl _).snoc hpolled).snoc haccepted).snoc
    (.mk (.timers rfl) (.timers (by decide)))

/-- Of two clients, accepted at 0 and at 10, the first is closed at 5005. -/
theorem idle_list_exact_two : ∃ (s : TimedState) (g : GData),
    processTimers s.loop.data 5005 = .ok g ∧ (s.loop.data.conns 1).isSome = true ∧
      g.conns 1 = none ∧ (g.conns 2).isSome = true := by
  have hrun := ((run_oneClient fun _ => (⟨0⟩, 0)).snoc (l := .polled 10 true [{}])
    (.mk (.polled rfl (.cons ⟨by decide, by decide⟩ .nil)) (.polled (by decide)))).snoc
    (l := .accepted 10 (some 6)) (.mk (.accepted (by decide) rfl) (.accepted (by decide)))
  obtain ⟨ys, -, -, -, h⟩ := idle_list_exact hrun
  obtain ⟨g, hg, -, hconns⟩ := h (by decide) 5005
  refine ⟨_, g, hg, rfl, ?_, ?_⟩
  · cases hc : g.conns 1 with
    | none => rfl
    | some c =>
      obtain ⟨hold, hlate⟩ := (hconns 1 c).mp hc
      cases hold
      exact absurd hlate (by decide)
  · rw [(hconns 2 _).mpr ⟨rfl, by decide⟩]
    rfl

end Greenis
