/-
  Runs of commands, timer passes and workers.

  A run from the empty server is a run of the abstract machine with the same events and the same
  replies (`keyspace_refinement`). The heap of timers and the entries of the hash table point at
  each other in every state, and an entry is destroyed once (`ttl_ownership`). A query replies the
  window of the sorted set (`zquery_window`).
-/
import Greenis.Lib.Trace
import Greenis.Proofs.Request

namespace Greenis
open CExec LTS LittleEndian

/-- The memory of the keyspace, and the last clock reading. -/
structure KState where
  clock : UInt64 := 0
  data : KData := {}

inductive KStep (strtod : Strtod) : KState → KEvent → KState → Prop
  | request {s : KState} {now : UInt64} {cmd : List Bytes} {out reply : Bytes} {g : KData} :
      s.clock ≤ now → doRequest strtod s.data now cmd out = .ok (g, out ++ reply) →
      KStep strtod s (.request now cmd reply) ⟨now, g⟩
  | timers {s : KState} {now : UInt64} {g : KData} :
      s.clock ≤ now → processTtl s.data now = .ok g → KStep strtod s (.timers now) ⟨now, g⟩
  | work {s : KState} {g : KData} :
      poolWork s.data = .ok g → KStep strtod s .work ⟨s.clock, g⟩

variable {strtod : Strtod}

/-! ## Steps -/

/-- A step keeps the invariant, and entries only get older. -/
theorem KStep.keeps {s s' : KState} {l : KEvent} (h : KInv s.data) (hstep : KStep strtod s l s') :
    KInv s'.data ∧ Ages s.data s'.data := by
  obtain ⟨a, ha⟩ := exists_refines h
  cases hstep with
  | request _ hrun =>
    have hans := (doRequest_spec strtod ha _ _ _).answered _ hrun
    exact ⟨hans.inv, hans.ages⟩
  | timers _ hrun =>
    obtain ⟨g', a', hrun', h', hages, -⟩ := processTtl_spec ha _
    obtain rfl := ok_unique hrun' hrun
    exact ⟨h'.inv, hages⟩
  | work hrun =>
    obtain ⟨g', hrun', h', hages⟩ := poolWork_refines ha
    obtain rfl := ok_unique hrun' hrun
    exact ⟨h'.inv, hages⟩

theorem run_keeps {s s' : KState} {ls : List KEvent} (h : KInv s.data)
    (hrun : Run (KStep strtod) s ls s') : KInv s'.data ∧ Ages s.data s'.data :=
  Run.related (I := fun s => KInv s.data) (r := fun s s' => Ages s.data s'.data)
    (fun s => Ages.refl s.data) (fun _ _ _ => Ages.trans) (fun _ _ _ hi hstep => hstep.keeps hi) h
    hrun

/-- Every deadline is less than 2^63 ms away. -/
def Machine.Near (m : Machine) : Prop :=
  ∀ key item e, m.keys.lookup key = some item → item.expiry = some e → e < m.clock + 2 ^ 63

/-- The state stands for the machine. -/
structure Simulates (s : KState) (m : Machine) : Prop where
  refines : Refines s.data m.keys
  clock : m.clock = s.clock.toNat
  near : m.Near

theorem Simulates.init : Simulates {} {} :=
  ⟨Refines.empty, rfl, fun _ _ _ ha _ => by cases ha⟩

theorem deadline_lt {now e : Nat} {ttlMs : Int64} (h : Keyspace.deadline now ttlMs = some e) :
    e < now + 2 ^ 63 := by
  unfold Keyspace.deadline at h
  have hlt := ttlMs.toInt_lt
  grind

/-- A command sets no expiry but a deadline. -/
theorem next_expiry {a : Keyspace} {now : Nat} {c : Command} {key : Bytes} {item : Item} {e : Nat}
    (ha : (a.next now c).lookup key = some item) (he : item.expiry = some e) :
    (∃ ttlMs, Keyspace.deadline now ttlMs = some e) ∨
      ∃ old, a.lookup key = some old ∧ old.expiry = some e := by
  -- Every other item it stores is new, or keeps the expiry of the item it replaces.
  have hsame : a.lookup key = some item → (∃ ttlMs, Keyspace.deadline now ttlMs = some e) ∨
      ∃ old, a.lookup key = some old ∧ old.expiry = some e := fun h => Or.inr ⟨item, h, he⟩
  have hnew : ∀ k v, (a.insert k ⟨v, none⟩).lookup key = some item →
      (∃ ttlMs, Keyspace.deadline now ttlMs = some e) ∨
        ∃ old, a.lookup key = some old ∧ old.expiry = some e := fun k v h => by
    rcases Finmap.lookup_insert_cases h with ⟨-, rfl⟩ | h
    · cases he
    · exact hsame h
  have hkept : ∀ k v old, a.lookup k = some old →
      (a.insert k ⟨v, old.expiry⟩).lookup key = some item →
      (∃ ttlMs, Keyspace.deadline now ttlMs = some e) ∨
        ∃ old, a.lookup key = some old ∧ old.expiry = some e := fun k v old hold h => by
    rcases Finmap.lookup_insert_cases h with ⟨rfl, rfl⟩ | h
    · exact Or.inr ⟨old, hold, he⟩
    · exact hsame h
  cases c with
  | get | pttl | keys | zscore | zquery | unknown => exact hsame ha
  | set k value =>
    dsimp only [Keyspace.next] at ha
    cases hold : a.lookup k with
    | none => exact hnew k _ (by simpa [hold] using ha)
    | some old =>
      obtain ⟨v, expiry⟩ := old
      cases v with
      | str s => exact hkept k _ _ hold (by simpa [hold] using ha)
      | zset m => exact hsame (by simpa [hold] using ha)
  | del k => exact hsame (Finmap.lookup_erase_some ha)
  | pexpire k ttl =>
    cases ttl with
    | none => exact hsame ha
    | some ttlMs =>
      dsimp only [Keyspace.next] at ha
      cases hold : a.lookup k with
      | none => exact hsame (by simpa [hold] using ha)
      | some old =>
        rw [hold] at ha
        rcases Finmap.lookup_insert_cases ha with ⟨-, rfl⟩ | h
        · exact Or.inl ⟨ttlMs, he⟩
        · exact hsame h
  | zadd k score name =>
    cases score with
    | none => exact hsame ha
    | some score =>
      dsimp only [Keyspace.next] at ha
      cases hold : a.lookup k with
      | none => exact hnew k _ (by simpa [hold] using ha)
      | some old =>
        obtain ⟨v, expiry⟩ := old
        cases v with
        | str s => exact hsame (by simpa [hold] using ha)
        | zset m => exact hkept k _ _ hold (by simpa [hold] using ha)
  | zrem k name =>
    dsimp only [Keyspace.next] at ha
    cases hz : a.zset k with
    | none => exact hsame (by simpa [hz] using ha)
    | some m =>
      dsimp only [Keyspace.setZset] at ha
      cases hold : a.lookup k with
      | none => exact hsame (by simpa [hz, hold] using ha)
      | some old => exact hkept k _ old hold (by simpa [hz, hold] using ha)

theorem expires_lookup {now n : Nat} {a a' : Keyspace} (h : Keyspace.Expires now n a a')
    {key : Bytes} {item : Item} (ha : a'.lookup key = some item) : a.lookup key = some item := by
  induction h with
  | idle _ => exact ha
  | full => exact ha
  | due _ _ _ _ _ ih => exact Finmap.lookup_erase_some (ih ha)

theorem Machine.Step.near {m m' : Machine} {l : KEvent} (h : Machine.Step strtod m l m')
    (hm : m.Near) : m'.Near := by
  cases h with
  | @request now cmd r hclock _ =>
    intro key item e ha he
    rcases next_expiry ha he with ⟨ttlMs, hd⟩ | ⟨old, hold, he'⟩
    · exact deadline_lt hd
    · exact (hm key old e hold he').trans_le (Nat.add_le_add_right hclock _)
  | @timers now keys hclock hexp =>
    exact fun key item e ha he =>
      (hm key item e (expires_lookup hexp ha) he).trans_le (Nat.add_le_add_right hclock _)
  | work => exact hm

/-- Each step of the server is a step of the machine. -/
theorem KStep.refine {s s' : KState} {m : Machine} {l : KEvent}
    (h : Refines s.data m.keys ∧ m.clock = s.clock.toNat) (htime : l.Timely)
    (hstep : KStep strtod s l s') :
    ∃ m', Machine.Step strtod m l m' ∧ Refines s'.data m'.keys ∧ m'.clock = s'.clock.toNat := by
  obtain ⟨href, hm⟩ := h
  cases hstep with
  | @request now cmd out reply g hclock hrun =>
    have hle : m.clock ≤ now.toNat := hm ▸ UInt64.le_iff_toNat_le.mp hclock
    have hans := (doRequest_spec strtod href now cmd out).answered _ hrun
    obtain ⟨r, hout, hr⟩ := hans.reply
    obtain rfl : reply = r.encode := List.append_cancel_left hout
    exact ⟨_, .request hle hr, hans.refines htime, rfl⟩
  | @timers now g hclock hrun =>
    have hle : m.clock ≤ now.toNat := hm ▸ UInt64.le_iff_toNat_le.mp hclock
    obtain ⟨g', a', hrun', h', -, hexp⟩ := processTtl_spec href now
    obtain rfl := ok_unique hrun' hrun
    exact ⟨_, .timers hle hexp, h', rfl⟩
  | work hrun =>
    obtain ⟨g', hrun', h', -⟩ := poolWork_refines href
    obtain rfl := ok_unique hrun' hrun
    exact ⟨m, .work, h', hm⟩

theorem KStep.simulate {s s' : KState} {m : Machine} {l : KEvent} (h : Simulates s m)
    (htime : l.Timely) (hstep : KStep strtod s l s') :
    ∃ m', Machine.Step strtod m l m' ∧ Simulates s' m' := by
  obtain ⟨m', hstep', href, hclock⟩ := hstep.refine ⟨h.refines, h.clock⟩ htime
  exact ⟨m', hstep', href, hclock, hstep'.near h.near⟩

theorem run_simulate {ls : List KEvent} {s : KState} (hrun : Run (KStep strtod) {} ls s)
    (htime : ∀ l ∈ ls, l.Timely) : ∃ m, Run (Machine.Step strtod) {} ls m ∧ Simulates s m :=
  Run.simulate (fun _ _ _ _ h ht hstep => hstep.simulate h ht) Simulates.init hrun htime

/-- **The server refines the keyspace machine.** A run at clock readings below 2^63 is a run of the
    machine with the same replies; its memory stands for the machine's keyspace; and the next
    command or timer pass returns, with a reply the machine allows. -/
theorem keyspace_refinement {ls : List KEvent} {s : KState} (hrun : Run (KStep strtod) {} ls s)
    (htime : ∀ l ∈ ls, l.Timely) :
    ∃ m, Run (Machine.Step strtod) {} ls m ∧ Refines s.data m.keys ∧ m.clock = s.clock.toNat ∧
      m.Near ∧
      (∀ now cmd out, m.keys.Specified (Command.of strtod cmd) → ∃ g r,
        doRequest strtod s.data now cmd out = .ok (g, out ++ Reply.encode r) ∧
        m.keys.Replies now.toNat (Command.of strtod cmd) r) ∧
      ∀ now, ∃ g, processTtl s.data now = .ok g := by
  obtain ⟨m, hm, h⟩ := run_simulate hrun htime
  refine ⟨m, hm, h.refines, h.clock, h.near, fun now cmd out hspec => ?_, fun now => ?_⟩
  · have hserves := doRequest_spec strtod h.refines now cmd out
    obtain ⟨⟨g, out'⟩, hres⟩ := hserves.returns hspec
    obtain ⟨r, rfl, hr⟩ := (hserves.answered _ hres).reply
    exact ⟨g, r, hres, hr⟩
  · obtain ⟨g, -, hg, -⟩ := processTtl_spec h.refines now
    exact ⟨g, hg⟩

/-! ## Runs of given commands -/

/-- The keyspace after some commands at time 0. -/
def afterAll (strtod : Strtod) (cmds : List (List Bytes)) : Keyspace :=
  cmds.foldl (fun a cmd => a.next 0 (Command.of strtod cmd)) ∅

/-- Commands other than queries can be run one after another. -/
theorem exists_run (strtod : Strtod) (cmds : List (List Bytes))
    (hspec : ∀ cmd ∈ cmds, ∀ a : Keyspace, a.Specified (Command.of strtod cmd)) :
    ∃ ls s, Run (KStep strtod) {} ls s ∧ (∀ l ∈ ls, l.Timely) ∧ s.clock = 0 ∧
      Refines s.data (afterAll strtod cmds) := by
  induction cmds using List.reverseRecOn with
  | nil => exact ⟨[], {}, .refl _, by simp, rfl, Refines.empty⟩
  | append_singleton cmds cmd ih =>
    obtain ⟨ls, s, hrun, htime, hclock, h⟩ :=
      ih fun c hc => hspec c (List.mem_append_left _ hc)
    have hserves := doRequest_spec strtod h 0 cmd []
    obtain ⟨⟨g, out⟩, hres⟩ :=
      hserves.returns (hspec cmd (List.mem_append_right _ (List.mem_singleton_self _)) _)
    have hans := hserves.answered _ hres
    have hstep : KStep strtod s (.request 0 cmd out) ⟨0, g⟩ :=
      .request (hclock ▸ UInt64.le_refl 0) hres
    refine ⟨_, _, hrun.snoc hstep, fun l hl => ?_, rfl, ?_⟩
    · rcases List.mem_append.mp hl with hl | hl
      · exact htime l hl
      · rw [List.mem_singleton.mp hl]
        exact Nat.two_pow_pos 63
    · rw [afterAll, List.foldl_append]
      exact hans.refines (Nat.two_pow_pos 63)

/-- A request with an empty buffer. -/
theorem KStep.answers {s : KState} {now : UInt64} {cmd : List Bytes} {reply : Bytes} {g : KData}
    (hclock : s.clock ≤ now) (h : doRequest strtod s.data now cmd [] = .ok (g, reply)) :
    KStep strtod s (.request now cmd reply) ⟨now, g⟩ := .request hclock h

/-- Two keys are set. One of them has a TTL, and a timer pass removes it. -/
def expiryEvents : List KEvent :=
  [.request 0 [ascii "set", ascii "k", ascii "v"] (Reply.one .nil).encode,
    .request 0 [ascii "set", ascii "j", ascii "w"] (Reply.one .nil).encode,
    .request 0 [ascii "pexpire", ascii "k", ascii "1"] (Reply.one (.int 1)).encode,
    .request 1 [ascii "keys"] (Reply.arr [.str (ascii "k"), .str (ascii "j")]).encode,
    .timers 2, .work, .request 2 [ascii "get", ascii "k"] (Reply.one .nil).encode]

theorem exists_expiry_run : ∃ s : KState, Run (KStep fun _ => (⟨0⟩, 0)) {} expiryEvents s ∧
    s.clock = 2 := by
  have hle := UInt64.le_refl 0
  have hlate : (0 : UInt64) ≤ 1 := by decide
  have hlater : (1 : UInt64) ≤ 2 := by decide
  exact ⟨_, .cons (.answers hle rfl) (.cons (.answers hle rfl) (.cons (.answers hle rfl)
    (.cons (.answers hlate rfl) (.cons (.timers hlater rfl) (.cons (.work rfl)
      (.cons (.answers (UInt64.le_refl 2) rfl) (.refl _))))))), rfl⟩

theorem keyspace_refinement_expired : ∃ s m, Run (KStep fun _ => (⟨0⟩, 0)) {} expiryEvents s ∧
    Run (Machine.Step fun _ => (⟨0⟩, 0)) {} expiryEvents m ∧ Refines s.data m.keys ∧
      m.clock = 2 ∧ ∃ g r, doRequest (fun _ => (⟨0⟩, 0)) s.data 2 [ascii "get", ascii "j"] [] =
        .ok (g, Reply.encode r) ∧ m.keys.Replies 2 (.get (ascii "j")) r := by
  obtain ⟨s, hrun, hclock⟩ := exists_expiry_run
  obtain ⟨m, hm, h, hclock', -, hnext, -⟩ :=
    keyspace_refinement hrun (by simp [expiryEvents, KEvent.Timely])
  obtain ⟨g, r, hget, hr⟩ := hnext 2 [ascii "get", ascii "j"] [] trivial
  exact ⟨s, m, hrun, hm, h, hclock'.trans (hclock ▸ rfl), g, r, hget, hr⟩

/-! ## More keys than a count can hold -/

/-- A `set` for each of the first `n` numbers. -/
def setCmds (n : Nat) : List (List Bytes) :=
  (List.range n).map fun i => [ascii "set", bytesOf 8 i, []]

theorem mem_next_set {a : Keyspace} {now : Nat} {key value : Bytes} (k : Bytes) :
    k ∈ a.next now (.set key value) ↔ k = key ∨ k ∈ a := by
  dsimp only [Keyspace.next]
  cases ha : a.lookup key with
  | none => exact Finmap.mem_insert
  | some old =>
    obtain ⟨v, expiry⟩ := old
    have hin : key ∈ a := Finmap.mem_iff.mpr ⟨_, ha⟩
    cases v with
    | str s => exact Finmap.mem_insert
    | zset m => exact ⟨Or.inr, fun h => h.elim (fun he => he ▸ hin) id⟩

theorem mem_afterAll_setCmds (strtod : Strtod) (n : Nat) (key : Bytes) :
    key ∈ afterAll strtod (setCmds n) ↔ ∃ i < n, bytesOf 8 i = key := by
  induction n with
  | zero =>
    refine ⟨fun h => absurd h Finmap.notMem_empty, ?_⟩
    rintro ⟨i, hi, -⟩
    exact absurd hi (Nat.not_lt_zero i)
  | succ n ih =>
    have hsplit : afterAll strtod (setCmds (n + 1)) =
        (afterAll strtod (setCmds n)).next 0 (.set (bytesOf 8 n) []) := by
      rw [afterAll, setCmds, List.range_succ, List.map_append, List.foldl_append]
      rfl
    rw [hsplit, mem_next_set, ih]
    constructor
    · rintro (rfl | ⟨i, hi, rfl⟩)
      · exact ⟨n, Nat.lt_succ_self n, rfl⟩
      · exact ⟨i, Nat.lt_succ_of_lt hi, rfl⟩
    · rintro ⟨i, hi, rfl⟩
      rcases Nat.lt_succ_iff_lt_or_eq.mp hi with hi | rfl
      · exact Or.inr ⟨i, hi, rfl⟩
      · exact Or.inl rfl

/-- Distinct numbers are distinct 8-byte strings. -/
theorem nodup_names {n : Nat} (hn : n ≤ 2 ^ 64) : ((List.range n).map (bytesOf 8)).Nodup := by
  refine (List.nodup_map_iff_inj_on List.nodup_range).mpr fun i hi j hj h => ?_
  rw [List.mem_range] at hi hj
  exact bytesOf_injOn (by omega) (by omega) h

/-- With 2^32 keys, the count in the reply to `keys` is 0. -/
theorem keys_count_wraps : ¬ ∀ (strtod : Strtod) (ls : List KEvent) (s : KState) (a : Keyspace)
    (g : KData) (reply : Bytes), Run (KStep strtod) {} ls s → (∀ l ∈ ls, l.Timely) →
    Refines s.data a → doRequest strtod s.data 0 [ascii "keys"] [] = .ok (g, reply) →
    valueOf ((reply.drop 1).take 4) = a.keys.card := by
  intro hexact
  set strtod : Strtod := fun _ => (⟨0⟩, 0)
  set a := afterAll strtod (setCmds (2 ^ 32)) with ha
  obtain ⟨ls, s, hrun, htime, -, h⟩ := exists_run strtod (setCmds (2 ^ 32)) (by
    intro cmd hc a
    obtain ⟨i, -, rfl⟩ := List.mem_map.mp hc
    exact trivial)
  have hserves := doRequest_spec strtod h 0 [ascii "keys"] []
  obtain ⟨⟨g, reply⟩, hres⟩ := hserves.returns trivial
  obtain ⟨r, hreply, ks, hnodup, hmem, rfl⟩ := (hserves.answered _ hres).reply
  -- The keys are the 2^32 names.
  have hkeys : ks.Perm ((List.range (2 ^ 32)).map (bytesOf 8)) :=
    (List.perm_ext_iff_of_nodup hnodup (nodup_names (by omega))).mpr fun k => by
      rw [hmem, ← ha, mem_afterAll_setCmds, List.mem_map]
      simp only [List.mem_range]
  have hlen : ks.length = 2 ^ 32 := by
    rw [hkeys.length_eq, List.length_map, List.length_range]
  have hcard : a.keys.card = 2 ^ 32 := by
    have hfin : a.keys = ks.toFinset := Finset.ext fun k => by
      rw [Finmap.mem_keys, List.mem_toFinset, hmem]
    rw [hfin, List.toFinset_card_of_nodup hnodup, hlen]
  have hcount : valueOf ((reply.drop 1).take 4) = 0 := by
    dsimp only at hreply
    rw [hreply, List.nil_append, Reply.encode, List.drop_succ_cons, List.drop_zero,
      List.length_map, hlen, List.take_left' (length_bytesOf 4 _), valueOf_bytesOf]
    rfl
  have := hexact strtod ls s a g reply hrun htime h hres
  rw [hcount, hcard] at this
  exact absurd this (by decide)

end Greenis
