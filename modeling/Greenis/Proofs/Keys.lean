/-
  Keys do not interfere.

  A command that names a key reads and changes the item of this key and no other. So the requests
  that name one key, with some of the timer passes that remove it, are a run of their own with the
  same replies, in which the server holds what it holds under the key and nothing else
  (`keys_independent`).
-/
import Greenis.Proofs.Histories
import Greenis.Proofs.TtlPass

namespace Greenis
open CExec LTS

/-- The key that a command names. -/
def Command.key : Command → Option Bytes
  | .get key | .set key _ | .del key | .pexpire key _ | .pttl key | .zadd key _ _ | .zrem key _
  | .zscore key _ | .zquery key _ _ _ _ => some key
  | .keys | .unknown => none

/-- The requests that name a key. -/
def KEvent.names (strtod : Strtod) (key : Bytes) : KEvent → Bool
  | .request _ cmd _ => (Command.of strtod cmd).key == some key
  | _ => false

/-! ## One key of a keyspace -/

namespace Keyspace

/-- What a keyspace holds under one key. -/
def only (a : Keyspace) (key : Bytes) : Keyspace :=
  match a.lookup key with
  | none => ∅
  | some item => Finmap.insert key item ∅

section

variable {a b : Keyspace} {key k : Bytes}

@[simp] theorem lookup_only : (a.only key).lookup key = a.lookup key := by
  unfold only
  cases h : a.lookup key with
  | none => exact Finmap.lookup_empty key
  | some item => exact Finmap.lookup_insert _

theorem lookup_only_other (hk : k ≠ key) : (a.only key).lookup k = none := by
  unfold only
  cases h : a.lookup key with
  | none => exact Finmap.lookup_empty k
  | some item => exact (Finmap.lookup_insert_of_ne _ hk).trans (Finmap.lookup_empty k)

theorem eq_only (hkey : b.lookup key = a.lookup key) (hother : ∀ k, k ≠ key → b.lookup k = none) :
    b = a.only key := by
  refine Finmap.ext_lookup fun k => ?_
  by_cases hk : k = key
  · rw [hk, hkey, lookup_only]
  · rw [hother k hk, lookup_only_other hk]

theorem only_congr (h : a.lookup key = b.lookup key) : a.only key = b.only key :=
  eq_only (lookup_only.trans h) fun _ hk => lookup_only_other hk

end

/-! ## Commands -/

section

variable {a b : Keyspace} {c : Command} {key : Bytes}

theorem mem_local (h : a.lookup key = b.lookup key) : key ∈ a ↔ key ∈ b := by
  rw [Finmap.mem_iff, Finmap.mem_iff, h]

theorem zset_local (h : a.lookup key = b.lookup key) : a.zset key = b.zset key := by
  unfold zset
  rw [h]

theorem reply_local (hc : c.key = some key) (h : a.lookup key = b.lookup key) (now : Nat) :
    a.reply now c = b.reply now c := by
  have hmem := mem_local h
  have hzset := zset_local h
  cases c with
  | get | set | pttl => cases hc; dsimp only [reply]; rw [h]
  | del => cases hc; simp only [reply, hmem]
  | pexpire k ttl => cases hc; cases ttl <;> simp only [reply, hmem]
  | zadd k score name => cases hc; cases score <;> simp only [reply, hzset]
  | zrem | zscore => cases hc; simp only [reply, hzset]
  | zquery k score name offset limit =>
    cases score <;> cases offset <;> cases limit <;> rfl
  | keys | unknown => rfl

theorem replies_local (hc : c.key = some key) (h : a.lookup key = b.lookup key) {now : Nat}
    {r : Reply} : a.Replies now c r ↔ b.Replies now c r := by
  have hreply := reply_local hc h now
  have hzset := zset_local h
  cases c with
  | zquery k score name offset limit =>
    cases hc
    cases score <;> cases offset <;> cases limit <;> simp only [Replies, hzset, hreply]
  | keys => cases hc
  | get | set | del | pexpire | pttl | zadd | zrem | zscore | unknown => simp only [Replies, hreply]

theorem specified_local (hc : c.key = some key) (h : a.lookup key = b.lookup key) :
    a.Specified c ↔ b.Specified c := by
  have hzset := zset_local h
  cases c with
  | zquery k score name offset limit => cases hc; simp only [Specified, hzset]
  | get | set | del | pexpire | pttl | keys | zadd | zrem | zscore | unknown => rfl

theorem next_other (hk : c.key ≠ some key) (now : Nat) :
    (a.next now c).lookup key = a.lookup key := by
  -- A command that changes an item inserts or erases the key that it names.
  have hinsert : ∀ k item, c.key = some k → (a.insert k item).lookup key = a.lookup key :=
    fun k item hc => Finmap.lookup_insert_of_ne _ fun heq => hk (heq ▸ hc)
  cases c with
  | get | pttl | keys | zscore | zquery | unknown => rfl
  | set k value =>
    dsimp only [next]
    cases a.lookup k with
    | none => exact hinsert k _ rfl
    | some old =>
      obtain ⟨v, expiry⟩ := old
      cases v with
      | str s => exact hinsert k _ rfl
      | zset m => rfl
  | del k => exact Finmap.lookup_erase_ne fun heq => hk (heq ▸ rfl)
  | pexpire k ttl =>
    cases ttl with
    | none => rfl
    | some ttlMs =>
      dsimp only [next]
      cases a.lookup k with
      | none => rfl
      | some old => exact hinsert k _ rfl
  | zadd k score name =>
    cases score with
    | none => rfl
    | some score =>
      dsimp only [next]
      cases a.lookup k with
      | none => exact hinsert k _ rfl
      | some old =>
        obtain ⟨v, expiry⟩ := old
        cases v with
        | str s => rfl
        | zset m => exact hinsert k _ rfl
  | zrem k name =>
    dsimp only [next, setZset]
    cases a.zset k with
    | none => rfl
    | some m =>
      dsimp only
      cases a.lookup k with
      | none => rfl
      | some old => exact hinsert k _ rfl

theorem next_local (hc : c.key = some key) (h : a.lookup key = b.lookup key) (now : Nat) :
    (a.next now c).lookup key = (b.next now c).lookup key := by
  have hzset := zset_local h
  cases c with
  | get | pttl | zscore | zquery => exact h
  | keys | unknown => cases hc
  | set k value =>
    cases hc
    dsimp only [next]
    rw [h]
    cases hb : b.lookup key with
    | none => rw [Finmap.lookup_insert, Finmap.lookup_insert]
    | some old =>
      obtain ⟨v, expiry⟩ := old
      cases v with
      | str s => dsimp only; rw [Finmap.lookup_insert, Finmap.lookup_insert]
      | zset m => exact h
  | del k =>
    cases hc
    exact (Finmap.lookup_erase key a).trans (Finmap.lookup_erase key b).symm
  | pexpire k ttl =>
    cases hc
    cases ttl with
    | none => exact h
    | some ttlMs =>
      dsimp only [next]
      rw [h]
      cases hb : b.lookup key with
      | none => exact h
      | some old => dsimp only; rw [Finmap.lookup_insert, Finmap.lookup_insert]
  | zadd k score name =>
    cases hc
    cases score with
    | none => exact h
    | some score =>
      dsimp only [next]
      rw [h]
      cases hb : b.lookup key with
      | none => rw [Finmap.lookup_insert, Finmap.lookup_insert]
      | some old =>
        obtain ⟨v, expiry⟩ := old
        cases v with
        | str s => exact h
        | zset m => dsimp only; rw [Finmap.lookup_insert, Finmap.lookup_insert]
  | zrem k name =>
    cases hc
    dsimp only [next, setZset]
    rw [hzset, h]
    cases b.zset key with
    | none => exact h
    | some m =>
      dsimp only
      cases hb : b.lookup key with
      | none => exact h
      | some old => dsimp only; rw [Finmap.lookup_insert, Finmap.lookup_insert]

/-- A command on the key does to this key what it does to the whole. -/
theorem next_only (hc : c.key = some key) (now : Nat) :
    (a.only key).next now c = (a.next now c).only key := by
  refine eq_only (next_local hc lookup_only now) fun k hk => ?_
  have hother : c.key ≠ some k := fun heq => hk (Option.some.inj (heq.symm.trans hc))
  rw [next_other hother, lookup_only_other hk]

/-- A reply to a command that names a key is the only one. -/
theorem replies_unique (hc : c.key = some key) (hspec : a.Specified c)
    (hlisting : ∀ m, a.zset key = some m → ∃ ts, Listing m ts) {now : Nat} {r r' : Reply}
    (h : a.Replies now c r) (h' : a.Replies now c r') : r = r' := by
  cases c with
  | zquery k score name offset limit =>
    cases hc
    cases score with
    | none => exact h.trans h'.symm
    | some score =>
      cases offset with
      | none => exact h.trans h'.symm
      | some offset =>
        cases limit with
        | none => exact h.trans h'.symm
        | some limit =>
          dsimp only [Replies] at h h'
          cases hm : a.zset key with
          | none =>
            rw [hm] at h h'
            exact h.trans h'.symm
          | some m =>
            rw [hm] at h h'
            obtain ⟨ts, hts⟩ := hlisting m hm
            have hlt := hspec m ts hm hts
            exact (h ts hts hlt).trans (h' ts hts hlt).symm
  | keys => cases hc
  | get | set | del | pexpire | pttl | zadd | zrem | zscore | unknown => exact h.trans h'.symm

end

/-! ## Timer passes -/

/-- A pass that leaves the key. -/
theorem Pass.only_kept {now n : Nat} {a a' : Keyspace} (h : Pass now n a a') {key : Bytes}
    (hkey : key ∈ a') : a'.only key = a.only key := only_congr (h.kept key hkey)

/-- A pass over the key alone, if it is due. -/
theorem Pass.only_due {now n : Nat} {a b : Keyspace} {key : Bytes}
    (h : Pass now (n + 1) (a.only key) b) (hdue : key ∈ a.due now) : b = ∅ := by
  have hdue' : key ∈ (a.only key).due now := by
    obtain ⟨e, he, hlt⟩ := mem_due.mp hdue
    refine mem_due.mpr ⟨e, ?_, hlt⟩
    unfold expiryAt at he ⊢
    rwa [lookup_only]
  have hpos : 0 < ((a.only key).keys \ b.keys).card := by
    have := Finset.card_pos.mpr ⟨key, hdue'⟩
    rw [h.count]
    omega
  have hsame : ∀ k, k ∈ a.only key → k = key := fun k hk => by
    by_contra hne
    exact Finmap.lookup_eq_none.mp (lookup_only_other hne) hk
  have hout : key ∉ b := fun hmem => by
    obtain ⟨k, hk⟩ := Finset.card_pos.mp hpos
    obtain ⟨hk, hnot⟩ := Finset.mem_sdiff.mp hk
    obtain rfl := hsame k (Finmap.mem_keys.mp hk)
    exact hnot (Finmap.mem_keys.mpr hmem)
  refine Finmap.ext_lookup fun k => ?_
  rw [Finmap.lookup_empty]
  refine Finmap.lookup_eq_none.mpr fun hk => hout ?_
  obtain ⟨item, hitem⟩ := Finmap.mem_iff.mp hk
  rw [h.kept k hk] at hitem
  exact hsame k (Finmap.mem_of_lookup_eq_some hitem) ▸ hk

end Keyspace

/-! ## Runs -/

variable {strtod : Strtod}

/-- `s1` holds what `s` holds under the key, and nothing else. -/
def Alone (key : Bytes) (s s1 : KState) : Prop :=
  ∃ a, Refines s.data a ∧ Refines s1.data (a.only key) ∧ s1.clock ≤ s.clock

/-- A step of a server with one key: a request that names the key, or a timer pass that removes it
    and leaves nothing. -/
def OwnStep (strtod : Strtod) (key : Bytes) (s : KState) (l : KEvent) (s' : KState) : Prop :=
  KStep strtod s l s' ∧ (l.names strtod key = true ∨
    (∃ now, l = .timers now) ∧ ∃ a, Refines s.data a ∧ key ∈ a ∧ Refines s'.data ∅)

/-- Each step is taken in the server with the one key too, or leaves the key alone. -/
theorem KStep.alone {key : Bytes} {s s' s1 : KState} {l : KEvent} (h : Alone key s s1)
    (htime : l.Timely)
    (hspec : ∀ now cmd reply a, l = .request now cmd reply → l.names strtod key →
      Refines s.data a → a.Specified (Command.of strtod cmd))
    (hstep : KStep strtod s l s') :
    (∃ s1', OwnStep strtod key s1 l s1' ∧ Alone key s' s1') ∨
      (l.names strtod key = false ∧ Alone key s' s1) := by
  obtain ⟨a, ha, ha1, hclock1⟩ := h
  cases hstep with
  | @request now cmd out reply g hclock hrun =>
    have hans := (doRequest_spec strtod ha now cmd out).answered _ hrun
    have hafter := hans.refines htime
    by_cases hkey : (Command.of strtod cmd).key = some key
    · have hnames : KEvent.names strtod key (.request now cmd reply) = true := beq_iff_eq.mpr hkey
      have hspec := hspec now cmd reply a rfl hnames ha
      have hserves := doRequest_spec strtod ha1 now cmd []
      obtain ⟨⟨g1, out1⟩, hrun1⟩ :=
        hserves.returns ((Keyspace.specified_local hkey Keyspace.lookup_only).mpr hspec)
      have hans1 := hserves.answered _ hrun1
      obtain ⟨r, hreply, hr⟩ := hans.reply
      obtain ⟨r1, hreply1, hr1⟩ := hans1.reply
      have hr1 := (Keyspace.replies_local hkey Keyspace.lookup_only).mp hr1
      obtain rfl := Keyspace.replies_unique hkey hspec (fun _ hm => ha.listing hm) hr hr1
      obtain rfl : reply = r.encode := List.append_cancel_left hreply
      obtain rfl : out1 = [] ++ r.encode := hreply1
      refine Or.inl ⟨_, ⟨.request (UInt64.le_trans hclock1 hclock) hrun1, Or.inl hnames⟩, _, hafter,
        ?_, UInt64.le_refl now⟩
      have h1 := hans1.refines htime
      rwa [Keyspace.next_only hkey] at h1
    · refine Or.inr ⟨beq_eq_false_iff_ne.mpr hkey, _, hafter, ?_, UInt64.le_trans hclock1 hclock⟩
      rwa [Keyspace.only_congr (Keyspace.next_other hkey now.toNat)]
  | @timers now g hclock hrun =>
    obtain ⟨g', a', hrun', ha', -, hexp⟩ := processTtl_spec ha now
    obtain rfl := ok_unique hrun' hrun
    have hpass := hexp.exact
    by_cases hin : key ∈ a.keys \ a'.keys
    · -- The pass removes the key, and a pass over this key alone does too.
      obtain ⟨g1, b, hrun1, hb, -, hexp1⟩ := processTtl_spec ha1 now
      have hempty := hexp1.exact.only_due (hpass.due key hin)
      have hgone : a'.only key = ∅ := by
        have hnone : a'.lookup key = none := Finmap.lookup_eq_none.mpr fun hmem =>
          (Finset.mem_sdiff.mp hin).2 (Finmap.mem_keys.mpr hmem)
        rw [Keyspace.only, hnone]
      have hkey : key ∈ a.only key := Finmap.lookup_isSome.mp (by
        rw [Keyspace.lookup_only]
        exact Finmap.lookup_isSome.mpr (Finmap.mem_keys.mp (Finset.mem_sdiff.mp hin).1))
      have hb : Refines g1 ∅ := hempty ▸ hb
      refine Or.inl ⟨_, ⟨.timers (UInt64.le_trans hclock1 hclock) hrun1,
        Or.inr ⟨⟨now, rfl⟩, _, ha1, hkey, hb⟩⟩, a', ha', ?_, UInt64.le_refl now⟩
      rw [hgone]
      exact hb
    · have hsame : a'.only key = a.only key := by
        by_cases hkey : key ∈ a'
        · exact hpass.only_kept hkey
        · have hnot : key ∉ a := fun hmem => hin (Finset.mem_sdiff.mpr
            ⟨Finmap.mem_keys.mpr hmem, fun hk => hkey (Finmap.mem_keys.mp hk)⟩)
          refine Keyspace.only_congr ?_
          rw [Finmap.lookup_eq_none.mpr hkey, Finmap.lookup_eq_none.mpr hnot]
      refine Or.inr ⟨rfl, a', ha', ?_, UInt64.le_trans hclock1 hclock⟩
      rwa [hsame]
  | @work g hrun =>
    obtain ⟨g', hrun', ha', -⟩ := poolWork_refines ha
    obtain rfl := ok_unique hrun' hrun
    exact Or.inr ⟨rfl, a, ha', ha1, hclock1⟩

/-- **Keys do not interfere.** Take from the history of a run the requests that name a key and some
    of the timer passes, each of which removes it: the server answers these requests, made alone,
    with the same replies, and is left with what the whole run has left under the key. A query of
    the key must be of a set of less than 2^32 tuples. -/
theorem keys_independent {es : List LoopEvent} {t : TracedState}
    (hrun : Run (TracedStep strtod) {} es t) (hclock : t.server.clock.toNat < 2 ^ 63) (key : Bytes)
    (hspec : ∀ pre p call post s a, t.history.entries = pre ++ .call p call :: post →
      Run (KStep strtod) {} (pre.map History.Entry.event) s → Refines s.data a →
      (Command.of strtod call.cmd).key = some key → a.Specified (Command.of strtod call.cmd)) :
    ∃ ls s a, ls.Sublist (t.history.entries.map History.Entry.event) ∧
      ls.filter (KEvent.names strtod key) =
        (t.history.entries.map History.Entry.event).filter (KEvent.names strtod key) ∧
      Run (OwnStep strtod key) {} ls s ∧ Refines t.server.loop.data.kv a ∧
      Refines s.data (a.only key) := by
  obtain ⟨k, hk, hosts⟩ := (run_recorded hrun).run
  have htime := run_timely hk (Nat.lt_of_le_of_lt (UInt64.le_iff_toNat_le.mp hosts.clock) hclock)
  have hempty : Alone key {} {} := ⟨∅, Refines.empty, Refines.empty, UInt64.le_refl 0⟩
  obtain ⟨ls, s, hsub, hmust, hls, a, ha, ha1, -⟩ :=
    hk.project (K := KEvent.names strtod key) hempty
      fun pre l post s1 s2 k1 heq hpre hstep halone =>
        hstep.alone halone (htime l (heq ▸ List.mem_append_right _ List.mem_cons_self))
          fun now cmd reply b hl hnames hb => by
            obtain ⟨es1, es2, hentries, rfl, hes⟩ := List.map_eq_append_iff.mp heq
            obtain ⟨e, es3, rfl, he, -⟩ := List.map_eq_cons_iff.mp hes
            rw [hl] at he hnames
            cases e with
            | call p call =>
              obtain ⟨rfl, rfl, rfl⟩ := KEvent.request.inj he
              exact hspec es1 p call es3 s1 b hentries hpre hb (beq_iff_eq.mp hnames)
            | timers now => cases he
            | work => cases he
  exact ⟨ls, s, a, hsub, hmust, hls, hosts.data ▸ ha, ha1⟩

/-- The requests of two clients for the key `k`, and for the key `j`. -/
theorem keys_independent_shared : ∃ (ls : List KEvent) (s : KState) (ms : List KEvent) (s' : KState)
    (a : Keyspace),
    Run (OwnStep (fun _ => (⟨0⟩, 0)) (ascii "k")) {} ls s ∧
      ls.filter (KEvent.names (fun _ => (⟨0⟩, 0)) (ascii "k")) =
        [.request 0 [ascii "set", ascii "k", ascii "v"] (Reply.one .nil).encode,
          .request 0 [ascii "pexpire", ascii "k", ascii "1"] (Reply.one (.int 1)).encode,
          .request 0 [ascii "get", ascii "k"] (Reply.one (.str (ascii "v"))).encode,
          .request 2 [ascii "get", ascii "k"] (Reply.one .nil).encode] ∧
      Refines s.data (a.only (ascii "k")) ∧
      Run (OwnStep (fun _ => (⟨0⟩, 0)) (ascii "j")) {} ms s' ∧
      ms.filter (KEvent.names (fun _ => (⟨0⟩, 0)) (ascii "j")) =
        [.request 0 [ascii "set", ascii "j", ascii "w"] (Reply.one .nil).encode,
          .request 2 [ascii "get", ascii "j"] (Reply.one (.str (ascii "w"))).encode] ∧
      Refines s'.data (a.only (ascii "j")) := by
  obtain ⟨es, t, hrun, hclock, hentries, -⟩ := exists_shared_run
  have hspec : ∀ p call, .call p call ∈ sharedEntries →
      ∀ a : Keyspace, a.Specified (Command.of (fun _ => (⟨0⟩, 0)) call.cmd) := by
    intro p call hmem a
    simp only [sharedEntries, List.mem_cons, History.Entry.call.injEq, reduceCtorEq, false_or,
      List.not_mem_nil, or_false] at hmem
    rcases hmem with ⟨-, rfl⟩ | ⟨-, rfl⟩ | ⟨-, rfl⟩ | ⟨-, rfl⟩ | ⟨-, rfl⟩ | ⟨-, rfl⟩ | ⟨-, rfl⟩ <;>
      trivial
  have hkeys := fun key => keys_independent hrun (hclock ▸ by decide) key
    fun pre p call post _ a heq _ _ _ => hspec p call
      (hentries ▸ heq ▸ List.mem_append_right _ List.mem_cons_self) a
  obtain ⟨ls, s, a, -, hls, hrun1, ha, hs⟩ := hkeys (ascii "k")
  obtain ⟨ms, s', a', -, hms, hrun2, ha', hs'⟩ := hkeys (ascii "j")
  obtain rfl := ha.unique ha'
  rw [hentries] at hls hms
  exact ⟨ls, s, ms, s', a, hrun1, hls, hs, hrun2, hms, hs'⟩

end Greenis
