/-
  The connections of the server over the event loop.

  The list of idle connections and `fd2conn` hold the open connections (`Listed`). A connection that
  is open when `poll` is called waits either for input or for output, the latter if there is
  something to send (`Conn.Settled`). What is left to be served are open connections, with events
  they wait for (`Unserved`). So each step can be made, and no assertion fails.
-/
import Greenis.Model.Server
import Greenis.Proofs.Framing

namespace Greenis
open CExec LTS Ring

/-! ## Intrusive lists -/

theorem dlistDetach_spec {m : Store DList} {head x : Ptr} {xs ys : List Ptr}
    (h : IsRing m head (xs ++ x :: ys)) :
    ∃ m', dlistDetach m x = .ok m' ∧ IsRing m' head (xs ++ ys) ∧
      ∀ p, (m' p).isSome = (m p).isSome := by
  obtain ⟨hleft, hright⟩ := seg_append.mp h.seg
  obtain ⟨prev, -, hprev, hprevNext⟩ := hleft.exists_prev
  obtain ⟨next, -, hnext, hnextPrev⟩ := hright.exists_next
  obtain ⟨n, hn⟩ := Option.isSome_iff_exists.mp (isSome_of_next hnext)
  have hnodeNext : n.next = some next := by rwa [nextOf, hn] at hnext
  have hnodePrev : n.prev = some prev := by rwa [prevOf, hn] at hprev
  obtain ⟨m1, hrun1, h1⟩ := modify_next (isSome_of_next hprevNext) next
  obtain ⟨m2, hrun2, h2⟩ := modify_prev ((h1.alloc next).trans (isSome_of_prev hnextPrev)) prev
  refine ⟨m2, ?_, ?_, fun p => (h2.alloc p).trans (h1.alloc p)⟩
  · unfold dlistDetach
    rw [Store.load_of hn, ok_bind, hnodePrev, deref_some, ok_bind, hnodeNext, deref_some, ok_bind,
      hrun1, ok_bind, hrun2]
  · apply h.erase hprev hnext
    · refine ⟨?_, ?_⟩
      · rw [h2.next, h1.next, if_pos rfl]
      · rw [h2.prev, if_pos rfl]
    · intro y _ hy
      rw [h2.next, h1.next, if_neg hy]
    · intro y _ hy
      rw [h2.prev, if_neg hy, h1.prev]

theorem dlistInsertBefore_spec {m : Store DList} {target rookie : Ptr} {xs : List Ptr}
    (h : IsRing m target xs) (hnew : rookie ∉ target :: xs)
    (halloc : (m rookie).isSome = true) :
    ∃ m', dlistInsertBefore m target rookie = .ok m' ∧ IsRing m' target (xs ++ [rookie]) ∧
      ∀ p, (m' p).isSome = (m p).isSome := by
  obtain ⟨prev, hmem, hprev, hprevNext⟩ := h.seg.exists_prev
  have htarget : rookie ≠ target := fun heq => hnew (heq ▸ List.mem_cons_self)
  have hne : prev ≠ rookie := fun heq => hnew (heq ▸ hmem)
  obtain ⟨t, ht⟩ := Option.isSome_iff_exists.mp (isSome_of_prev hprev)
  have hnodePrev : t.prev = some prev := by rwa [prevOf, ht] at hprev
  obtain ⟨m1, hrun1, h1⟩ := modify_next (isSome_of_next hprevNext) rookie
  obtain ⟨m2, hrun2, h2⟩ := modify_prev ((h1.alloc rookie).trans halloc) prev
  obtain ⟨m3, hrun3, h3⟩ :=
    modify_next ((h2.alloc rookie).trans ((h1.alloc rookie).trans halloc)) target
  have halloc3 : ∀ p, (m3 p).isSome = (m p).isSome := fun p =>
    (h3.alloc p).trans ((h2.alloc p).trans (h1.alloc p))
  obtain ⟨m4, hrun4, h4⟩ := modify_prev ((halloc3 target).trans (isSome_of_prev hprev)) rookie
  refine ⟨m4, ?_, ?_, fun p => (h4.alloc p).trans (halloc3 p)⟩
  · unfold dlistInsertBefore
    rw [Store.load_of ht, ok_bind, hnodePrev, deref_some, ok_bind, hrun1, ok_bind, hrun2, ok_bind,
      hrun3, ok_bind, hrun4]
  · apply h.insert hnew hprev
    · refine ⟨?_, ?_⟩
      · rw [h4.next, h3.next, if_neg hne, h2.next, h1.next, if_pos rfl]
      · rw [h4.prev, if_neg htarget, h3.prev, h2.prev, if_pos rfl]
    · refine ⟨?_, ?_⟩
      · rw [h4.next, h3.next, if_pos rfl]
      · rw [h4.prev, if_pos rfl]
    · intro y hy hyp
      have hyr : y ≠ rookie := fun heq => hnew (heq ▸ hy)
      rw [h4.next, h3.next, if_neg hyr, h2.next, h1.next, if_neg hyp]
    · intro y hy
      have hyr : y ≠ rookie := fun heq => hnew (heq ▸ List.mem_cons_of_mem _ hy)
      have hyt : y ≠ target := fun heq => (List.nodup_cons.mp h.nodup).1 (heq ▸ hy)
      rw [h4.prev, if_neg hyt, h3.prev, h2.prev, if_neg hyr, h1.prev]

/-! ## Open connections -/

/-- `ys` are the open connections, in the order of the list. -/
structure Listed (g : GData) (ys : List Ptr) : Prop where
  ring : IsRing g.idle idleList ys
  conn : ∀ p, p ∈ ys ↔ ∃ c, g.conns p = some c
  fresh : ∀ p ∈ ys, p < g.brk
  brk : 0 < g.brk
  entry : ∀ fd p, g.fd2conn[fd]? = some (some p) ↔ ∃ c, g.conns p = some c ∧ c.fd = fd
  fds : ∀ fd, fd ∈ g.fds ↔ ∃ p, g.fd2conn[fd]? = some (some p)
  nodup : g.fds.Nodup

theorem Listed.empty : Listed {} [] where
  ring := ⟨⟨rfl, rfl⟩, List.nodup_singleton _⟩
  conn := by simp
  fresh := by simp
  brk := Nat.zero_lt_one
  entry := by simp
  fds := by simp
  nodup := List.nodup_nil

section

variable {g : GData} {ys : List Ptr}

/-- Two connections have different sockets. -/
theorem Listed.fd_inj (h : Listed g ys) {p q : Ptr} {c d : Conn} (hp : g.conns p = some c)
    (hq : g.conns q = some d) (hfd : c.fd = d.fd) : p = q := by
  have hentry := (h.entry d.fd p).mpr ⟨c, hp, hfd⟩
  rw [(h.entry d.fd q).mpr ⟨d, hq, rfl⟩] at hentry
  exact (Option.some.inj (Option.some.inj hentry)).symm

/-- A connection keeps its place and its socket. -/
theorem Listed.write (h : Listed g ys) {p : Ptr} {c c' : Conn} (hp : g.conns p = some c)
    (hfd : c'.fd = c.fd) (kv : KData) :
    Listed { g with kv := kv, conns := g.conns.write p c' } ys := by
  have hwrite : ∀ (q : Ptr) (fd : Nat), (∃ d, g.conns.write p c' q = some d ∧ d.fd = fd) ↔
      ∃ d, g.conns q = some d ∧ d.fd = fd := by
    intro q fd
    by_cases hq : q = p
    · subst q
      rw [Store.write_same, hp]
      simp [hfd]
    · rw [Store.write_other _ _ hq]
  refine ⟨h.ring, fun q => (h.conn q).trans ?_, h.fresh, h.brk,
    fun fd q => (h.entry fd q).trans (hwrite q fd).symm, h.fds, h.nodup⟩
  constructor
  · rintro ⟨d, hd⟩
    obtain ⟨d', hd', -⟩ := (hwrite q d.fd).mpr ⟨d, hd, rfl⟩
    exact ⟨d', hd'⟩
  · rintro ⟨d, hd⟩
    obtain ⟨d', hd', -⟩ := (hwrite q d.fd).mp ⟨d, hd, rfl⟩
    exact ⟨d', hd'⟩

/-- The list has another order. -/
theorem Listed.perm (h : Listed g ys) {idle : Store DList} {zs : List Ptr}
    (hring : IsRing idle idleList zs) (hperm : ys.Perm zs) : Listed { g with idle := idle } zs where
  ring := hring
  conn p := hperm.mem_iff.symm.trans (h.conn p)
  fresh p hp := h.fresh p (hperm.mem_iff.mpr hp)
  brk := h.brk
  entry := h.entry
  fds := h.fds
  nodup := h.nodup

/-- `fd2conn.resize(n + 1)` adds no connection. -/
theorem getElem?_resize (fd2conn : List (Option Ptr)) (n fd : Nat) (p : Ptr) :
    (fd2conn ++ List.replicate n none)[fd]? = some (some p) ↔ fd2conn[fd]? = some (some p) := by
  by_cases hfd : fd < fd2conn.length
  · rw [List.getElem?_append_left hfd]
  · rw [List.getElem?_append_right (Nat.not_lt.mp hfd), List.getElem?_eq_none (Nat.not_lt.mp hfd),
      List.getElem?_replicate]
    split <;> simp

/-- A client is accepted: its connection is the last in the list. -/
theorem handleAccept_spec (h : Listed g ys) {connfd : Nat} (hfd : connfd ∉ g.fds) (now : UInt64) :
    ∃ g', handleAccept g (some connfd) now = .ok g' ∧ Listed g' (ys ++ [g.brk]) ∧
      g'.conns = g.conns.write g.brk { fd := connfd, wantRead := true, lastActiveMs := now } ∧
      g'.kv = g.kv := by
  have hnew : g.brk ∉ idleList :: ys := by
    intro hmem
    rcases List.mem_cons.mp hmem with heq | hmem
    · exact absurd heq (Nat.ne_of_gt h.brk)
    · exact Nat.lt_irrefl _ (h.fresh _ hmem)
  have hnone : g.conns g.brk = none := by
    cases hc : g.conns g.brk with
    | none => rfl
    | some c => exact absurd (List.mem_cons_of_mem _ ((h.conn g.brk).mpr ⟨c, hc⟩)) hnew
  have hring : IsRing (g.idle.write g.brk {}) idleList ys :=
    h.ring.congr fun x hx => Store.write_other _ _ fun heq => hnew (heq ▸ hx)
  obtain ⟨idle, hinsert, hidle, -⟩ := dlistInsertBefore_spec hring hnew (by simp)
  -- The map after it has been enlarged.
  set fd2conn := if g.fd2conn.length ≤ connfd then
      g.fd2conn ++ List.replicate (connfd + 1 - g.fd2conn.length) none else g.fd2conn with hmap
  have hsame : ∀ (fd : Nat) (p : Ptr),
      fd2conn[fd]? = some (some p) ↔ g.fd2conn[fd]? = some (some p) := by
    intro fd p
    rw [hmap]
    split
    · exact getElem?_resize _ _ _ _
    · rfl
  have hlt : connfd < fd2conn.length := by
    rw [hmap]
    split
    · rw [List.length_append, List.length_replicate]
      omega
    · omega
  have hold : fd2conn[connfd] = none := by
    cases hentry : fd2conn[connfd] with
    | none => rfl
    | some p =>
      have hsome : fd2conn[connfd]? = some (some p) := by
        rw [List.getElem?_eq_getElem hlt, hentry]
      exact absurd ((h.fds connfd).mpr ⟨p, (hsame _ _).mp hsome⟩) hfd
  have hentry : ∀ (fd : Nat) (p : Ptr), (fd2conn.set connfd (some g.brk))[fd]? = some (some p) ↔
      (fd = connfd ∧ p = g.brk) ∨ g.fd2conn[fd]? = some (some p) := by
    intro fd p
    rw [List.getElem?_set]
    by_cases heq : connfd = fd
    · subst fd
      have hno : ¬ g.fd2conn[connfd]? = some (some p) := fun hsome =>
        hfd ((h.fds connfd).mpr ⟨p, hsome⟩)
      rw [if_pos rfl, if_pos hlt]
      simp [hno, eq_comm]
    · rw [if_neg heq, hsame]
      simp [Ne.symm heq]
  refine ⟨{ g with
            fd2conn := fd2conn.set connfd (some g.brk)
            conns := g.conns.write g.brk { fd := connfd, wantRead := true, lastActiveMs := now }
            idle := idle
            brk := g.brk + 1
            fds := connfd :: g.fds }, ?_, ⟨hidle, ?_, ?_, Nat.succ_pos _, ?_, ?_, ?_⟩, rfl, rfl⟩
  · unfold handleAccept
    dsimp only
    rw [hinsert, ok_bind, ← hmap, index_of_lt hlt, ok_bind, hold,
      check_of Option.isNone_none, ok_bind]
  · intro p
    dsimp only
    rw [List.mem_append, List.mem_singleton, h.conn, Store.write_apply]
    by_cases hp : p = g.brk
    · simp [hp]
    · simp [hp]
  · intro p hp
    rcases List.mem_append.mp hp with hp | hp
    · exact Nat.lt_succ_of_lt (h.fresh p hp)
    · rw [List.mem_singleton.mp hp]
      exact Nat.lt_succ_self _
  · intro fd p
    dsimp only
    rw [hentry, h.entry, Store.write_apply]
    by_cases hp : p = g.brk
    · simp [hp, hnone, eq_comm]
    · simp [hp]
  · intro fd
    dsimp only
    rw [List.mem_cons, h.fds]
    simp only [hentry]
    constructor
    · rintro (rfl | ⟨p, hp⟩)
      · exact ⟨g.brk, Or.inl ⟨rfl, rfl⟩⟩
      · exact ⟨p, Or.inr hp⟩
    · rintro ⟨p, ⟨hp, -⟩ | hp⟩
      · exact Or.inl hp
      · exact Or.inr ⟨p, hp⟩
  · exact List.nodup_cons.mpr ⟨hfd, h.nodup⟩

/-- A connection is closed and leaves the list. -/
theorem connDestroy_spec {xs : List Ptr} {p : Ptr} (h : Listed g (xs ++ p :: ys)) :
    ∃ g', connDestroy g p = .ok g' ∧ Listed g' (xs ++ ys) ∧
      g'.conns = Function.update g.conns p none ∧ g'.kv = g.kv := by
  obtain ⟨c, hp⟩ := (h.conn p).mp (List.mem_append_right _ List.mem_cons_self)
  have hfd := (h.entry c.fd p).mpr ⟨c, hp, rfl⟩
  obtain ⟨idle, hdetach, hidle, halloc⟩ := dlistDetach_spec h.ring
  have hout := h.ring.not_mem
  obtain ⟨node, hnode⟩ := Option.isSome_iff_exists.mp ((halloc p).trans h.ring.isSome)
  have hring : IsRing (Function.update idle p none) idleList (xs ++ ys) :=
    hidle.congr fun x hx => Function.update_of_ne (fun heq : x = p => hout (heq ▸ hx)) _ _
  have hlt := (List.getElem?_eq_some_iff.mp hfd).1
  have hentry : ∀ (fd : Nat) (q : Ptr), (g.fd2conn.set c.fd none)[fd]? = some (some q) ↔
      fd ≠ c.fd ∧ g.fd2conn[fd]? = some (some q) := by
    intro fd q
    rw [List.getElem?_set]
    by_cases heq : c.fd = fd
    · rw [if_pos heq]
      simp [heq]
    · simp [heq, Ne.symm heq]
  refine ⟨{ g with
            fd2conn := g.fd2conn.set c.fd none
            conns := Function.update g.conns p none
            idle := Function.update idle p none
            fds := g.fds.erase c.fd }, ?_, ⟨hring, ?_, ?_, h.brk, ?_, ?_, ?_⟩, rfl, rfl⟩
  · unfold connDestroy
    rw [Store.load_of hp, ok_bind, index_of_getElem? hfd, ok_bind, hdetach, ok_bind,
      Store.free_of hp, ok_bind, Store.free_of hnode, ok_bind]
  · intro q
    dsimp only
    by_cases hq : q = p
    · subst q
      simpa using fun hmem => hout (List.mem_cons_of_mem _ hmem)
    · rw [Function.update_of_ne hq, ← h.conn]
      simp [hq]
  · intro q hq
    apply h.fresh q
    rcases List.mem_append.mp hq with hq | hq
    · exact List.mem_append_left _ hq
    · exact List.mem_append_right _ (List.mem_cons_of_mem _ hq)
  · intro fd q
    dsimp only
    rw [hentry, h.entry]
    by_cases hq : q = p
    · subst q
      simp [hp, eq_comm]
    · rw [Function.update_of_ne hq]
      constructor
      · exact fun hd => hd.2
      · rintro ⟨d, hd, hdfd⟩
        exact ⟨fun heq => hq (h.fd_inj hd hp (hdfd.trans heq)), d, hd, hdfd⟩
  · intro fd
    dsimp only
    rw [h.nodup.mem_erase_iff, h.fds]
    simp only [hentry, exists_and_left]
  · exact h.nodup.erase _

/-- A connection becomes the last in the list. -/
theorem Listed.touch {xs : List Ptr} {p : Ptr} (h : Listed g (xs ++ p :: ys)) :
    ∃ idle idle', dlistDetach g.idle p = .ok idle ∧ dlistInsertBefore idle idleList p = .ok idle' ∧
      Listed { g with idle := idle' } (xs ++ ys ++ [p]) := by
  obtain ⟨idle, hdetach, hidle, halloc⟩ := dlistDetach_spec h.ring
  obtain ⟨idle', hinsert, hidle', -⟩ :=
    dlistInsertBefore_spec hidle h.ring.not_mem ((halloc p).trans h.ring.isSome)
  refine ⟨idle, idle', hdetach, hinsert, h.perm hidle' ?_⟩
  exact List.perm_middle.trans (List.perm_append_singleton _ _).symm

/-- Only the keyspace changes. -/
theorem Listed.setKv (h : Listed g ys) (kv : KData) : Listed { g with kv := kv } ys :=
  ⟨h.ring, h.conn, h.fresh, h.brk, h.entry, h.fds, h.nodup⟩

/-! ## Timers -/

theorem idleFirst_nil (h : Listed g []) : idleFirst g = .ok none := by
  obtain ⟨n, hn⟩ := Option.isSome_iff_exists.mp (isSome_of_next h.ring.seg.1)
  have hnext := h.ring.seg.1
  rw [nextOf, hn, Option.bind_some] at hnext
  unfold idleFirst dlistEmpty
  rw [Store.load_of hn, ok_bind, hnext, beq_self_eq_true, ok_bind, if_pos rfl]

theorem idleFirst_cons {p : Ptr} (h : Listed g (p :: ys)) {c : Conn} (hp : g.conns p = some c) :
    idleFirst g = .ok (some (p, c)) := by
  obtain ⟨n, hn⟩ := Option.isSome_iff_exists.mp (isSome_of_next h.ring.seg.1.1)
  have hnext := h.ring.seg.1.1
  rw [nextOf, hn, Option.bind_some] at hnext
  have hne : p ≠ idleList := fun heq =>
    (List.nodup_cons.mp h.ring.nodup).1 (heq ▸ List.mem_cons_self)
  have hempty : (some p == some idleList) = false := by simpa using hne
  unfold idleFirst dlistEmpty
  rw [Store.load_of hn, ok_bind, hnext, hempty, ok_bind, if_neg Bool.false_ne_true, ok_bind, hnext,
    deref_some, ok_bind, Store.load_of hp, ok_bind]

/-- The loop closes connections from the front of the list, up to one that is not expired. -/
theorem idleLoop_spec (now : UInt64) (expired : Ptr → Bool) : ∀ (fuel : Nat) (g : GData)
    (ys : List Ptr), Listed g ys → ys.length < fuel →
    (∀ p ∈ ys, ∀ c, g.conns p = some c →
      (expired p = true ↔ c.lastActiveMs + kIdleTimeoutMs < now)) →
    ∃ g', idleLoop now fuel g = .ok g' ∧ Listed g' (ys.dropWhile expired) ∧ g'.kv = g.kv ∧
      ∀ p ∈ ys.dropWhile expired, g'.conns p = g.conns p := by
  intro fuel
  induction fuel with
  | zero => intro g ys _ hlen; exact absurd hlen (Nat.not_lt_zero _)
  | succ fuel ih =>
    intro g ys h hlen hexpired
    unfold idleLoop
    cases ys with
    | nil =>
      rw [idleFirst_nil h, ok_bind]
      exact ⟨g, rfl, h, rfl, fun _ _ => rfl⟩
    | cons p ys =>
      obtain ⟨c, hp⟩ := (h.conn p).mp List.mem_cons_self
      have hiff := hexpired p List.mem_cons_self c hp
      rw [idleFirst_cons h hp, ok_bind]
      dsimp only
      by_cases hdue : c.lastActiveMs + kIdleTimeoutMs < now
      · have hfront : Listed g ([] ++ p :: ys) := h
        obtain ⟨g1, hrun1, h1, hconns, hkv⟩ := connDestroy_spec hfront
        have hsame : ∀ q ∈ ys, g1.conns q = g.conns q := by
          intro q hq
          rw [hconns]
          apply Function.update_of_ne
          rintro rfl
          have hnodup := (List.nodup_cons.mp h.ring.nodup).2
          exact (List.nodup_cons.mp hnodup).1 hq
        obtain ⟨g2, hrun2, h2, hkv2, hconns2⟩ := ih g1 ys h1
          (Nat.lt_of_succ_lt_succ hlen) fun q hq d hd =>
            hexpired q (List.mem_cons_of_mem _ hq) d ((hsame q hq).symm.trans hd)
        rw [if_neg (by rwa [ge_iff_le, UInt64.not_le]), hrun1, ok_bind,
          List.dropWhile_cons_of_pos (hiff.mpr hdue)]
        refine ⟨g2, hrun2, h2, hkv2.trans hkv, fun q hq => ?_⟩
        exact (hconns2 q hq).trans (hsame q ((List.dropWhile_sublist _).mem hq))
      · rw [if_pos (UInt64.not_lt.mp hdue),
          List.dropWhile_cons_of_neg fun htrue => hdue (hiff.mp htrue)]
        exact ⟨g, rfl, h, rfl, fun _ _ => rfl⟩

/-- The connection has been idle for too long at `now`. -/
def GData.expired (g : GData) (now : UInt64) (p : Ptr) : Bool :=
  (g.conns p).any fun c => decide (c.lastActiveMs + kIdleTimeoutMs < now)

theorem expired_iff {p : Ptr} {c : Conn} (hp : g.conns p = some c) (now : UInt64) :
    g.expired now p = true ↔ c.lastActiveMs + kIdleTimeoutMs < now := by
  unfold GData.expired
  rw [hp, Option.any_some, decide_eq_true_iff]

theorem Listed.length_le (h : Listed g ys) : ys.length ≤ g.brk := by
  have hsub : ys ⊆ List.range g.brk := fun p hp => List.mem_range.mpr (h.fresh p hp)
  have hle := (List.subperm_of_subset (List.nodup_cons.mp h.ring.nodup).2 hsub).length_le
  rwa [List.length_range] at hle

/-- A pass closes connections from the front of the list and removes keys that are due. -/
theorem processTimers_refines (h : Listed g ys) {a : Keyspace} (ha : Refines g.kv a)
    (now : UInt64) :
    ∃ g' a', processTimers g now = .ok g' ∧ Listed g' (ys.dropWhile (g.expired now)) ∧
      (∀ p ∈ ys.dropWhile (g.expired now), g'.conns p = g.conns p) ∧ Refines g'.kv a' ∧
      Keyspace.Expires now.toNat (kMaxWorks + 1) a a' := by
  obtain ⟨g1, hrun1, h1, hkv1, hconns⟩ := idleLoop_spec now (g.expired now) (g.brk + 1) g ys h
    (Nat.lt_succ_of_le h.length_le) fun _ _ _ hp => expired_iff hp now
  obtain ⟨kv, a', hrun2, ha', -, hexpires⟩ := processTtl_spec ha now
  refine ⟨{ g1 with kv := kv }, a', ?_, h1.setKv kv, hconns, ha', hexpires⟩
  unfold processTimers
  rw [hrun1, ok_bind, hkv1, hrun2, ok_bind]

theorem processTimers_spec (h : Listed g ys) (hkv : KInv g.kv) (now : UInt64) :
    ∃ g', processTimers g now = .ok g' ∧ Listed g' (ys.dropWhile (g.expired now)) ∧ KInv g'.kv ∧
      ∀ p ∈ ys.dropWhile (g.expired now), g'.conns p = g.conns p := by
  obtain ⟨a, ha⟩ := exists_refines hkv
  obtain ⟨g', a', hrun, hlisted, hconns, ha', -⟩ := processTimers_refines h ha now
  exact ⟨g', hrun, hlisted, ha'.inv, hconns⟩

end

/-! ## Handlers -/

/-- What `poll` is called with: the connection waits for input, or for output if it has some. -/
structure Conn.Settled (conn : Conn) : Prop where
  flags : conn.wantRead = !conn.wantWrite
  waits : conn.wantWrite = true ↔ conn.outgoing ≠ []
  stays : conn.wantClose = false

/-- What the handlers leave of a connection: it is to be closed, or settled. -/
structure Conn.Handed (conn conn' : Conn) : Prop where
  fd : conn'.fd = conn.fd
  active : conn'.lastActiveMs = conn.lastActiveMs
  settled : conn'.wantClose = false → conn'.Settled

theorem Conn.Settled.reads {conn : Conn} (h : conn.Settled) (hread : conn.wantRead = true) :
    conn.wantWrite = false ∧ conn.outgoing = [] := by
  have hwrite : conn.wantWrite = false := by
    have := h.flags
    rw [hread] at this
    simpa using this.symm
  refine ⟨hwrite, ?_⟩
  by_contra hout
  rw [h.waits.mpr hout] at hwrite
  cases hwrite

theorem Conn.Settled.handed {conn : Conn} (h : conn.Settled) : conn.Handed conn :=
  ⟨rfl, rfl, fun _ => h⟩

theorem Conn.Handed.close (conn : Conn) : conn.Handed { conn with wantClose := true } :=
  ⟨rfl, rfl, fun h => Bool.noConfusion h⟩

theorem Written.handed {conn conn' : Conn} {write : WriteResult} {sent : Bytes}
    (h : Written conn write (conn', sent)) (hwrite : conn.wantWrite = true)
    (hread : conn.wantRead = false) (hout : conn.outgoing ≠ []) : conn.Handed conn' := by
  cases h with
  | again =>
    refine ⟨rfl, rfl, fun hopen => ⟨by rw [hread, hwrite, Bool.not_true], ?_, hopen⟩⟩
    simp [hwrite, hout]
  | error => exact Conn.Handed.close conn
  | some heq hrest =>
    refine ⟨rfl, rfl, fun hopen => ⟨by simp [hread, hwrite], ?_, hopen⟩⟩
    simp [hwrite, hrest]
  | all => exact ⟨rfl, rfl, fun hopen => ⟨rfl, by simp, hopen⟩⟩

section

variable {σ : Type} {app : σ → UInt64 → List Bytes → Buffer → Exec (σ × Buffer)} {I : σ → Prop}
  {s s' : σ} {conn conn' : Conn}

/-- `handle_read` faults nowhere but inside `do_request`. -/
theorem Handled.fault {read : ReadResult} {write : WriteResult} {e : Fault}
    (h : Handled app s conn read write (.error e)) : e = .callee := by
  cases h
  rfl

/-- `handle_read` keeps the invariant of the application, and calls `handle_write` with something
    to write only. -/
theorem Handled.handed {read : ReadResult} {write : WriteResult} {sent : Bytes}
    (h : Handled app s conn read write (.ok (s', conn', sent))) (happ : Appends app I) (hs : I s)
    (hconn : conn.Settled) (hread : conn.wantRead = true) : I s' ∧ conn.Handed conn' := by
  obtain ⟨hwrite, hout⟩ := hconn.reads hread
  cases h with
  | again => exact ⟨hs, hconn.handed⟩
  | error => exact ⟨hs, Conn.Handed.close conn⟩
  | eof => exact ⟨hs, Conn.Handed.close conn⟩
  | quiet _ hloop hnil =>
    obtain ⟨calls, hcalls, -, -, heq⟩ := hloop.calls hconn.stays
    refine ⟨hcalls.keeps happ hs, ?_⟩
    rw [heq] at hnil ⊢
    refine ⟨rfl, rfl, fun hopen => ⟨?_, ?_, hopen⟩⟩
    · exact hconn.flags
    · dsimp only at hnil ⊢
      rw [hnil, hwrite]
      simp
  | answered _ hloop hne hwritten =>
    obtain ⟨calls, hcalls, -, -, heq⟩ := hloop.calls hconn.stays
    have hlast := hwritten.handed rfl rfl hne
    refine ⟨hcalls.keeps happ hs, hlast.fd.trans ?_, hlast.active.trans ?_, hlast.settled⟩
    · rw [heq]
    · rw [heq]

end

/-! ## One socket -/

/-- What `poll` is asked for. -/
def Conn.asked (conn : Conn) : PollFd := ⟨conn.fd, conn.wantRead, conn.wantWrite⟩

section

variable {g : GData} {ys : List Ptr} {p : Ptr} {c : Conn} {ready : Revents}

theorem handleIo_spec (strtod : Strtod) (hkv : KInv g.kv) (hp : g.conns p = some c)
    (hconn : c.Settled) (hready : ready.For c.asked) (io : Served) :
    handleIo strtod g p ready io = .error .callee ∨
      ∃ kv c', handleIo strtod g p ready io =
          .ok { g with kv := kv, conns := g.conns.write p c' } ∧ KInv kv ∧ c.Handed c' := by
  have hsame : { g with conns := g.conns.write p c } = g := by
    rw [Store.write, ← hp, Function.update_eq_self]
  unfold handleIo
  cases hin : ready.pollin with
  | true =>
    have hread : c.wantRead = true := hready.1 hin
    have hout : ready.pollout = false := by
      cases ho : ready.pollout with
      | false => rfl
      | true =>
        have hwrite : c.wantWrite = true := hready.2 ho
        rw [(hconn.reads hread).1] at hwrite
        cases hwrite
    have hhandled := handleRead_spec (appends_doRequest strtod) hkv c io.nows io.read io.firstWrite
    rw [if_pos rfl, Store.load_of hp, ok_bind, check_of hread, ok_bind, hout]
    cases hres : handleRead (doRequest strtod) g.kv c io.nows io.read io.firstWrite with
    | error e =>
      rw [hres] at hhandled
      obtain rfl := hhandled.fault
      exact Or.inl rfl
    | ok res =>
      obtain ⟨kv, c', sent⟩ := res
      rw [hres] at hhandled
      obtain ⟨hkv', hhanded⟩ := hhandled.handed (appends_doRequest strtod) hkv hconn hread
      exact Or.inr ⟨kv, c', rfl, hkv', hhanded⟩
  | false =>
    rw [if_neg Bool.false_ne_true, ok_bind]
    dsimp only
    cases hout : ready.pollout with
    | true =>
      have hwrite : c.wantWrite = true := hready.2 hout
      have hne := hconn.waits.mp hwrite
      have hread : c.wantRead = false := by rw [hconn.flags, hwrite, Bool.not_true]
      obtain ⟨⟨c', sent⟩, hrun, hwritten⟩ := handleWrite_spec c hne io.write
      rw [if_pos rfl, Store.load_of hp, ok_bind, check_of hwrite, ok_bind, hrun, ok_bind]
      exact Or.inr ⟨g.kv, c', rfl, hkv, hwritten.handed hwrite hread hne⟩
    | false =>
      rw [if_neg Bool.false_ne_true]
      exact Or.inr ⟨g.kv, c, congrArg Except.ok hsame.symm, hkv, hconn.handed⟩

/-- What serving the socket of the connection at `p` leaves: nothing happened, the connection has
    been closed, or it has become the last in the list. -/
inductive ServedTo (g : GData) (ys : List Ptr) (p : Ptr) (now : UInt64) : GData → List Ptr → Prop
  | idle : ServedTo g ys p now g ys
  | closed {xs zs : List Ptr} {g' : GData} : ys = xs ++ p :: zs → Listed g' (xs ++ zs) →
      g'.conns = Function.update g.conns p none → KInv g'.kv →
      ServedTo g ys p now g' (xs ++ zs)
  | moved {xs zs : List Ptr} {g' : GData} {c c' : Conn} : ys = xs ++ p :: zs →
      Listed g' (xs ++ zs ++ [p]) → g.conns p = some c → g'.conns = g.conns.write p c' →
      c'.fd = c.fd → c'.lastActiveMs = now → c'.Settled → KInv g'.kv →
      ServedTo g ys p now g' (xs ++ zs ++ [p])

/-- The socket of an open connection is served, unless `do_request` fails. -/
theorem serveConn_spec (strtod : Strtod) (h : Listed g ys) (hkv : KInv g.kv)
    (hp : g.conns p = some c) (hconn : c.Settled) (hready : ready.For c.asked) (io : Served) :
    serveConn strtod g c.fd ready io = .error .callee ∨
      ∃ g' ys', serveConn strtod g c.fd ready io = .ok g' ∧ ServedTo g ys p io.now g' ys' := by
  unfold serveConn
  by_cases hidle : ready = {}
  · rw [if_pos hidle]
    exact Or.inr ⟨g, ys, rfl, .idle⟩
  · obtain ⟨xs, zs, rfl⟩ := List.append_of_mem ((h.conn p).mpr ⟨c, hp⟩)
    obtain ⟨idle, idle', hdetach, hinsert, hmoved⟩ := h.touch
    set c1 : Conn := { c with lastActiveMs := io.now }
    have hfd1 : c1.fd = c.fd := rfl
    have hmodify : g.conns.modify p (fun c => { c with lastActiveMs := io.now }) =
        .ok (g.conns.write p c1) := Store.modify_of hp _
    have hentry : index g.fd2conn c.fd = .ok (some p) :=
      index_of_getElem? ((h.entry c.fd p).mpr ⟨c, hp, rfl⟩)
    rw [if_neg hidle, hentry, ok_bind, deref_some, ok_bind, hmodify, ok_bind, hdetach, ok_bind,
      hinsert, ok_bind]
    have hlisted : Listed { g with conns := g.conns.write p c1, idle := idle' }
        (xs ++ zs ++ [p]) := hmoved.write hp hfd1 g.kv
    have hc1settled : c1.Settled := ⟨hconn.flags, hconn.waits, hconn.stays⟩
    have hp1 : (g.conns.write p c1) p = some c1 := Store.write_same _ _ _
    rcases handleIo_spec (g := { g with conns := g.conns.write p c1, idle := idle' }) strtod hkv hp1
      hc1settled hready io with hfail | ⟨kv, c', hrun, hkv', hhanded⟩
    · refine Or.inl ?_
      rw [hfail, error_bind]
    · have hlisted' := hlisted.write hp1 hhanded.fd kv
      have hconns : (g.conns.write p c1).write p c' = g.conns.write p c' :=
        Function.update_idem _ _ _
      rw [hrun, ok_bind, Store.load_of (Store.write_same _ _ _), ok_bind]
      dsimp only at hlisted' ⊢
      rw [hconns] at hlisted' ⊢
      refine Or.inr ?_
      by_cases hclose : (ready.pollerr || c'.wantClose) = true
      · rw [if_pos hclose]
        obtain ⟨g', hrun', hg', hgconns, hgkv⟩ := connDestroy_spec hlisted'
        refine ⟨g', xs ++ zs, hrun', .closed rfl ?_ ?_ ?_⟩
        · rwa [List.append_nil] at hg'
        · rw [hgconns]
          exact Function.update_idem _ _ _
        · rw [hgkv]
          exact hkv'
      · have hopen : c'.wantClose = false := by
          rw [Bool.or_eq_true, not_or] at hclose
          simpa using hclose.2
        rw [if_neg hclose]
        exact ⟨_, _, rfl, .moved rfl hlisted' hp rfl hhanded.fd hhanded.active
          (hhanded.settled hopen) hkv'⟩

end

/-! ## Polling -/

/-- The sockets in a part of `fd2conn` are in order, each with what its connection waits for. -/
theorem pollArgs_spec {g : GData} : ∀ (l : List (Option Ptr)) (n : Nat),
    (∀ (i : Nat) (p : Ptr), l[i]? = some (some p) → ∃ c, g.conns p = some c ∧ c.fd = n + i) →
    ∃ args, pollArgs g l = .ok args ∧ (args.map PollFd.fd).Pairwise (· < ·) ∧
      (∀ a ∈ args, n ≤ a.fd) ∧
      ∀ a, a ∈ args ↔ ∃ (i : Nat) (p : Ptr) (c : Conn), l[i]? = some (some p) ∧
        g.conns p = some c ∧ a = c.asked := by
  intro l
  induction l with
  | nil => intro n _; exact ⟨[], rfl, .nil, by simp, by simp⟩
  | cons entry rest ih =>
    intro n h
    obtain ⟨args, hrun, hsorted, hle, hmem⟩ := ih (n + 1) fun i p hi => by
      obtain ⟨c, hp, hfd⟩ := h (i + 1) p hi
      exact ⟨c, hp, by omega⟩
    -- An entry of the rest is one of the whole.
    have hrest : ∀ a, (∃ (i : Nat) (p : Ptr) (c : Conn), (entry :: rest)[i]? = some (some p) ∧
        g.conns p = some c ∧ a = c.asked) ↔
        (∃ p c, entry = some p ∧ g.conns p = some c ∧ a = c.asked) ∨ a ∈ args := by
      intro a
      rw [hmem]
      constructor
      · rintro ⟨_ | i, p, c, hi, hp, ha⟩
        · exact Or.inl ⟨p, c, Option.some.inj hi, hp, ha⟩
        · exact Or.inr ⟨i, p, c, hi, hp, ha⟩
      · rintro (⟨p, c, hi, hp, ha⟩ | ⟨i, p, c, hi, hp, ha⟩)
        · exact ⟨0, p, c, congrArg some hi, hp, ha⟩
        · exact ⟨i + 1, p, c, hi, hp, ha⟩
    cases entry with
    | none =>
      refine ⟨args, hrun, hsorted, fun a ha => Nat.le_of_succ_le (hle a ha), fun a => ?_⟩
      rw [hrest]
      simp
    | some p =>
      obtain ⟨c, hp, hfd⟩ := h 0 p rfl
      refine ⟨c.asked :: args, ?_, ?_, ?_, fun a => ?_⟩
      · unfold pollArgs
        rw [Store.load_of hp, ok_bind, hrun, ok_bind, Conn.asked]
      · rw [List.map_cons]
        apply List.Pairwise.cons _ hsorted
        intro fd hin
        obtain ⟨a, ha, rfl⟩ := List.mem_map.mp hin
        have := hle a ha
        dsimp only [Conn.asked]
        omega
      · intro a ha
        rcases List.mem_cons.mp ha with rfl | ha
        · exact Nat.le_of_eq hfd.symm
        · exact Nat.le_of_succ_le (hle a ha)
      · rw [hrest, List.mem_cons]
        simp [hp]

/-- `poll` is asked for the open connections. -/
theorem Listed.pollArgs {g : GData} {ys : List Ptr} (h : Listed g ys) :
    ∃ args, Greenis.pollArgs g g.fd2conn = .ok args ∧ (args.map PollFd.fd).Nodup ∧
      ∀ a, a ∈ args ↔ ∃ p c, g.conns p = some c ∧ a = c.asked := by
  obtain ⟨args, hrun, hsorted, -, hmem⟩ := pollArgs_spec g.fd2conn 0 fun i p hi => by
    obtain ⟨c, hp, hfd⟩ := (h.entry i p).mp hi
    exact ⟨c, hp, by omega⟩
  refine ⟨args, hrun, hsorted.imp Nat.ne_of_lt, fun a => (hmem a).trans ?_⟩
  constructor
  · rintro ⟨i, p, c, -, hp, ha⟩
    exact ⟨p, c, hp, ha⟩
  · rintro ⟨p, c, hp, ha⟩
    exact ⟨c.fd, p, c, (h.entry c.fd p).mpr ⟨c, hp, rfl⟩, hp, ha⟩

/-! ## Steps -/

/-- What holds of the server between two operations of `main`. -/
structure Steady (g : GData) (ys : List Ptr) : Prop where
  listed : Listed g ys
  kv : KInv g.kv
  settled : ∀ p c, g.conns p = some c → c.Settled

theorem Steady.empty : Steady {} [] := ⟨.empty, KInv.empty, fun _ _ hp => nomatch hp⟩

/-- The sockets that are left to be served are those of open connections. -/
structure Unserved (g : GData) (rest : List (Nat × Revents)) : Prop where
  nodup : (rest.map Prod.fst).Nodup
  conn : ∀ x ∈ rest, ∃ p c, g.conns p = some c ∧ c.fd = x.1 ∧ x.2.For c.asked

def Phase.rest : Phase → List (Nat × Revents)
  | .poll => []
  | .accept rest => rest
  | .serve rest => rest

/-- What an event does to the connections and their list. -/
inductive Relisted (g : GData) (ys : List Ptr) : LoopEvent → GData → List Ptr → Prop
  | same {e : LoopEvent} {g' : GData} : g'.conns = g.conns → Relisted g ys e g' ys
  | accepted {now : UInt64} {fd : Nat} {g' : GData} :
      g'.conns = g.conns.write g.brk { fd := fd, wantRead := true, lastActiveMs := now } →
      Relisted g ys (.accepted now (some fd)) g' (ys ++ [g.brk])
  | served {io : Served} {p : Ptr} {g' : GData} {ys' : List Ptr} :
      ServedTo g ys p io.now g' ys' → Relisted g ys (.served io) g' ys'
  | timers {now : UInt64} {g' : GData} :
      (∀ p ∈ ys.dropWhile (g.expired now), g'.conns p = g.conns p) →
      Relisted g ys (.timers now) g' (ys.dropWhile (g.expired now))

theorem Unserved.congr {g g' : GData} {rest : List (Nat × Revents)} (h : Unserved g rest)
    (hsame : ∀ p c, g.conns p = some c → c.fd ∈ rest.map Prod.fst → g'.conns p = some c) :
    Unserved g' rest := by
  refine ⟨h.nodup, fun x hx => ?_⟩
  obtain ⟨p, c, hp, hfd, hfor⟩ := h.conn x hx
  refine ⟨p, c, hsame p c hp ?_, hfd, hfor⟩
  rw [hfd]
  exact List.mem_map_of_mem hx

theorem Unserved.nil (g : GData) : Unserved g [] := ⟨List.nodup_nil, by simp⟩

theorem exists_asked {args : List PollFd} {revents : List Revents}
    (hfor : List.Forall₂ Revents.For revents args) {x : Nat × Revents}
    (hx : x ∈ (args.map PollFd.fd).zip revents) : ∃ a ∈ args, a.fd = x.1 ∧ x.2.For a := by
  induction hfor with
  | nil => cases hx
  | cons hr _ ih =>
    rcases List.mem_cons.mp hx with rfl | hx
    · exact ⟨_, List.mem_cons_self, rfl, hr⟩
    · obtain ⟨a, ha, hrest⟩ := ih hx
      exact ⟨a, List.mem_cons_of_mem _ ha, hrest⟩

/-- `poll` returns events of open connections. -/
theorem Steady.unserved {g : GData} {ys : List Ptr} (h : Steady g ys) {args : List PollFd}
    {revents : List Revents} (hargs : pollArgs g g.fd2conn = .ok args)
    (hfor : List.Forall₂ Revents.For revents args) :
    Unserved g ((args.map PollFd.fd).zip revents) := by
  obtain ⟨args', hrun, hnodup, hmem⟩ := h.listed.pollArgs
  obtain rfl := ok_unique hrun hargs
  refine ⟨?_, fun x hx => ?_⟩
  · rwa [List.map_fst_zip]
    rw [List.length_map, hfor.length_eq]
  · obtain ⟨a, ha, hfd, hasked⟩ := exists_asked hfor hx
    obtain ⟨p, c, hp, rfl⟩ := (hmem a).mp ha
    exact ⟨p, c, hp, hfd, hasked⟩

/-- A connection that has been served is settled, and the sockets that are left are open. -/
theorem ServedTo.steady {g g' : GData} {ys ys' : List Ptr} {p : Ptr} {c : Conn} {now : UInt64}
    {ready : Revents} {rest : List (Nat × Revents)} (h : ServedTo g ys p now g' ys')
    (hsteady : Steady g ys) (hp : g.conns p = some c)
    (hunserved : Unserved g ((c.fd, ready) :: rest)) :
    Steady g' ys' ∧ Unserved g' rest := by
  have hfd := (List.nodup_cons.mp hunserved.nodup).1
  have hrest : Unserved g rest :=
    ⟨(List.nodup_cons.mp hunserved.nodup).2,
      fun x hx => hunserved.conn x (List.mem_cons_of_mem _ hx)⟩
  have hother : ∀ q d, g.conns q = some d → d.fd ∈ rest.map Prod.fst → q ≠ p := by
    rintro q d hq hd rfl
    rw [hp] at hq
    cases hq
    exact hfd hd
  cases h with
  | idle => exact ⟨hsteady, hrest⟩
  | closed _ hlisted hconns hkv =>
    refine ⟨⟨hlisted, hkv, fun q d hq => ?_⟩, hrest.congr fun q d hq hd => ?_⟩
    · rw [hconns] at hq
      by_cases hqp : q = p
      · rw [hqp, Function.update_self] at hq
        cases hq
      · rw [Function.update_of_ne hqp] at hq
        exact hsteady.settled q d hq
    · rw [hconns, Function.update_of_ne (hother q d hq hd)]
      exact hq
  | moved _ hlisted _ hconns _ _ hsettled hkv =>
    refine ⟨⟨hlisted, hkv, fun q d hq => ?_⟩, hrest.congr fun q d hq hd => ?_⟩
    · rw [hconns] at hq
      by_cases hqp : q = p
      · rw [hqp, Store.write_same] at hq
        cases hq
        exact hsettled
      · rw [Store.write_other _ _ hqp] at hq
        exact hsteady.settled q d hq
    · rw [hconns, Store.write_other _ _ (hother q d hq hd)]
      exact hq

/-- A step keeps what holds of the server. -/
theorem LoopStep.keeps {strtod : Strtod} {s s' : LoopState} {e : LoopEvent} {ys : List Ptr}
    (h : Steady s.data ys) (hrest : Unserved s.data s.phase.rest) (hstep : LoopStep strtod s e s') :
    ∃ ys', Steady s'.data ys' ∧ Unserved s'.data s'.phase.rest ∧
      Relisted s.data ys e s'.data ys' := by
  cases hstep with
  | interrupted => exact ⟨ys, h, hrest, .same rfl⟩
  | @polled g now listening args revents hargs hfor =>
    refine ⟨ys, h, ?_, .same rfl⟩
    have hunserved := h.unserved hargs hfor
    cases listening with
    | true => exact hunserved
    | false => exact hunserved
  | @accepted g g' now accept rest hnew hrun =>
    cases accept with
    | none =>
      cases hrun
      exact ⟨ys, h, hrest, .same rfl⟩
    | some fd =>
      obtain ⟨g1, hrun1, hlisted, hconns, hkv⟩ :=
        handleAccept_spec h.listed (hnew fd rfl) now
      obtain rfl := ok_unique hrun1 hrun
      have hold : ∀ q d, g.conns q = some d → q ≠ g.brk := fun q d hq =>
        Nat.ne_of_lt (h.listed.fresh q ((h.listed.conn q).mpr ⟨d, hq⟩))
      refine ⟨_, ⟨hlisted, ?_, fun q d hq => ?_⟩, hrest.congr fun q d hq _ => ?_, .accepted hconns⟩
      · dsimp only
        rw [hkv]
        exact h.kv
      · dsimp only at hq
        rw [hconns] at hq
        by_cases hqb : q = g.brk
        · rw [hqb, Store.write_same] at hq
          cases hq
          exact ⟨rfl, by simp, rfl⟩
        · rw [Store.write_other _ _ hqb] at hq
          exact h.settled q d hq
      · dsimp only at hq ⊢
        rw [hconns, Store.write_other _ _ (hold q d hq)]
        exact hq
  | @served g g' fd ready rest io hrun =>
    obtain ⟨p, c, hp, hfd, hfor⟩ := hrest.conn (fd, ready) List.mem_cons_self
    obtain rfl : c.fd = fd := hfd
    rcases serveConn_spec strtod h.listed h.kv hp (h.settled p c hp) hfor io with
      hfail | ⟨g1, ys', hrun1, hserved⟩
    · rw [hfail] at hrun
      cases hrun
    · obtain rfl := ok_unique hrun1 hrun
      obtain ⟨hsteady, hleft⟩ := hserved.steady h hp hrest
      exact ⟨ys', hsteady, hleft, .served hserved⟩
  | @timers g g' now hrun =>
    obtain ⟨g1, hrun1, hlisted, hkv, hconns⟩ := processTimers_spec h.listed h.kv now
    obtain rfl := ok_unique hrun1 hrun
    refine ⟨_, ⟨hlisted, hkv, fun q d hq => ?_⟩, .nil _, .timers hconns⟩
    have hmem := (hlisted.conn q).mpr ⟨d, hq⟩
    exact h.settled q d ((hconns q hmem).symm.trans hq)
  | @work g phase kv hrun =>
    refine ⟨ys, ⟨h.listed.setKv kv, ?_, h.settled⟩, hrest.congr fun _ _ hq _ => hq, .same rfl⟩
    obtain ⟨a, ha⟩ := exists_refines h.kv
    obtain ⟨kv', hrun', ha', -⟩ := poolWork_refines ha
    obtain rfl := ok_unique hrun' hrun
    exact ha'.inv

/-- What holds of the server after a run. -/
theorem run_steady {strtod : Strtod} {es : List LoopEvent} {s : LoopState}
    (hrun : Run (LoopStep strtod) {} es s) :
    ∃ ys, Steady s.data ys ∧ Unserved s.data s.phase.rest := by
  refine Run.invariant (I := fun s => ∃ ys, Steady s.data ys ∧ Unserved s.data s.phase.rest)
    (P := fun _ => True) (fun s e s' ⟨ys, h, hrest⟩ _ hstep => ?_) ⟨[], Steady.empty, .nil _⟩ hrun
    fun _ _ => trivial
  obtain ⟨ys', h', hrest', -⟩ := hstep.keeps h hrest
  exact ⟨ys', h', hrest'⟩

/-- **The event loop keeps its connections apart and asserts what holds.** When `poll` is called,
    each open connection waits for input, or for output if it has some, and is not to be closed.
    Whatever comes next, the assertions hold: only `do_request` itself may fail. -/
theorem event_loop_safe {strtod : Strtod} {es : List LoopEvent} {s : LoopState}
    (hrun : Run (LoopStep strtod) {} es s) :
    (∀ fd, fd ∈ s.data.fds ↔ ∃ p c, s.data.conns p = some c ∧ c.fd = fd) ∧
      (s.phase = .poll → (∀ p c, s.data.conns p = some c → c.Settled) ∧
        ∃ args, pollArgs s.data s.data.fd2conn = .ok args ∧
          ∀ a, a ∈ args ↔ ∃ p c, s.data.conns p = some c ∧ a = c.asked) ∧
      (∀ rest accept now, s.phase = .accept rest → (∀ fd ∈ accept, fd ∉ s.data.fds) →
        ∃ g, handleAccept s.data accept now = .ok g) ∧
      (∀ fd ready rest io, s.phase = .serve ((fd, ready) :: rest) →
        (∃ p, s.data.fd2conn[fd]? = some (some p)) ∧
        (serveConn strtod s.data fd ready io = .error .callee ∨
          ∃ g, serveConn strtod s.data fd ready io = .ok g)) ∧
      ∀ now, s.phase = .serve [] → ∃ g, processTimers s.data now = .ok g := by
  obtain ⟨ys, h, hrest⟩ := run_steady hrun
  refine ⟨fun fd => ?_, fun _ => ⟨h.settled, ?_⟩, fun rest accept now _ hnew => ?_,
    fun fd ready rest io hphase => ?_, fun now _ => ?_⟩
  · simp only [h.listed.fds, h.listed.entry]
  · obtain ⟨args, hargs, -, hmem⟩ := h.listed.pollArgs
    exact ⟨args, hargs, hmem⟩
  · cases accept with
    | none => exact ⟨_, rfl⟩
    | some fd =>
      obtain ⟨g, hg, -⟩ := handleAccept_spec h.listed (hnew fd rfl) now
      exact ⟨g, hg⟩
  · rw [hphase] at hrest
    obtain ⟨p, c, hp, hfd, hfor⟩ := hrest.conn (fd, ready) List.mem_cons_self
    obtain rfl : c.fd = fd := hfd
    refine ⟨⟨p, (h.listed.entry c.fd p).mpr ⟨c, hp, rfl⟩⟩, ?_⟩
    rcases serveConn_spec strtod h.listed h.kv hp (h.settled p c hp) hfor io with
      hfail | ⟨g, -, hg, -⟩
    · exact Or.inl hfail
    · exact Or.inr ⟨g, hg⟩
  · obtain ⟨g, hg, -⟩ := processTimers_spec h.listed h.kv now
    exact ⟨g, hg⟩

/-- A client has sent `keys`. When `poll` is called next, six bytes of the reply are still to be
    written. -/
theorem exists_waiting_run : ∃ (es : List LoopEvent) (s : LoopState) (c : Conn),
    Run (LoopStep fun _ => (⟨0⟩, 0)) {} es s ∧ s.phase = .poll ∧ s.data.conns 1 = some c ∧
      c.outgoing.length = 6 ∧ c.asked = ⟨5, false, true⟩ := by
  set strtod : Strtod := fun _ => (⟨0⟩, 0)
  have hpolled : LoopStep strtod {} (.polled 0 true []) ⟨{}, .accept []⟩ := .polled rfl .nil
  have haccept : LoopStep strtod ⟨{}, .accept []⟩ (.accepted 0 (some 5)) ⟨_, .serve []⟩ :=
    .accepted (by simp) rfl
  have haccepted := (((Run.refl _).snoc hpolled).snoc haccept).snoc (l := .timers 0) (.timers rfl)
  have hreadable := haccepted.snoc (l := .polled 0 false [{ pollin := true }])
    (.polled rfl (.cons ⟨fun _ => rfl, fun h => absurd h Bool.false_ne_true⟩ .nil))
  have hserved := hreadable.snoc (l := .served ⟨0, fun _ => 0,
    .data (frame (encodeCmd [ascii "keys"])), .count 3, .again⟩) (.served rfl)
  exact ⟨_, _, _, hserved.snoc (l := .timers 0) (.timers rfl), rfl, rfl, rfl, rfl⟩

/-- The client waits to be written to. -/
theorem event_loop_safe_waiting : ∃ (s : LoopState) (c : Conn) (args : List PollFd),
    s.phase = .poll ∧ s.data.conns 1 = some c ∧ c.outgoing.length = 6 ∧ c.Settled ∧
      pollArgs s.data s.data.fd2conn = .ok args ∧ ⟨5, false, true⟩ ∈ args := by
  obtain ⟨es, s, c, hrun, hphase, hc, hout, hasked⟩ := exists_waiting_run
  obtain ⟨-, hpoll, -⟩ := event_loop_safe hrun
  obtain ⟨hsettled, args, hargs, hmem⟩ := hpoll hphase
  exact ⟨s, c, args, hphase, hc, hout, hsettled 1 c hc, hargs,
    (hmem _).mpr ⟨1, c, hc, hasked.symm⟩⟩

end Greenis
