/-
  One timer pass, exactly.

  A pass removes as many of the due keys as it may, earliest first, and changes nothing else
  (`Keyspace.Expires.exact`). A deadline stays as `pexpire` has set it until the key is deleted or
  given another one, and no pass up to it removes the key (`ttl_pass_exact`).
-/
import Greenis.Proofs.KeyspaceRuns

namespace Greenis
open CExec LTS

namespace Keyspace

/-- The expiry of a key that has one. -/
def expiryAt (a : Keyspace) (key : Bytes) : Option Nat := (a.lookup key).bind Item.expiry

/-- The keys whose expiry is before `now`. -/
def due (a : Keyspace) (now : Nat) : Finset Bytes :=
  a.keys.filter fun key => (a.expiryAt key).any (· < now)

theorem expiryAt_eq_some {a : Keyspace} {key : Bytes} {e : Nat} :
    a.expiryAt key = some e ↔ ∃ item, a.lookup key = some item ∧ item.expiry = some e :=
  Option.bind_eq_some_iff

theorem mem_due {a : Keyspace} {now : Nat} {key : Bytes} :
    key ∈ a.due now ↔ ∃ e, a.expiryAt key = some e ∧ e < now := by
  unfold due
  rw [Finset.mem_filter]
  constructor
  · rintro ⟨-, hany⟩
    obtain ⟨e, he, hlt⟩ := (Option.any_eq_true _ _).mp hany
    exact ⟨e, he, of_decide_eq_true hlt⟩
  · rintro ⟨e, he, hlt⟩
    obtain ⟨item, hitem, -⟩ := expiryAt_eq_some.mp he
    exact ⟨Finmap.mem_keys.mpr (Finmap.mem_of_lookup_eq_some hitem), by simp [he, hlt]⟩

/-- A pass at time `now` that may remove `n` keys leaves `a'` of `a`: it removes due keys, as many as
    there are up to `n` and none before one that is due earlier, and keeps the other items. -/
structure Pass (now n : Nat) (a a' : Keyspace) : Prop where
  kept : ∀ key ∈ a', a'.lookup key = a.lookup key
  due : ∀ key ∈ a.keys \ a'.keys, key ∈ a.due now
  count : (a.keys \ a'.keys).card = min (a.due now).card n
  earliest : ∀ key ∈ a.keys \ a'.keys, ∀ other ∈ a', ∀ e e', a.expiryAt key = some e →
    a.expiryAt other = some e' → e ≤ e'

theorem due_empty {a : Keyspace} {now : Nat} (h : a.NoneBefore now) : a.due now = ∅ := by
  refine Finset.eq_empty_of_forall_notMem fun key hkey => ?_
  obtain ⟨e, he, hlt⟩ := mem_due.mp hkey
  obtain ⟨item, hitem, hexp⟩ := expiryAt_eq_some.mp he
  exact absurd (h key item e hitem hexp) (Nat.not_le.mpr hlt)

theorem due_erase (a : Keyspace) (now : Nat) (key : Bytes) :
    due (a.erase key) now = (a.due now).erase key := by
  ext k
  rw [Finset.mem_erase, mem_due, mem_due]
  by_cases hk : k = key
  · subst hk
    simp [expiryAt, Finmap.lookup_erase]
  · simp [hk, expiryAt, Finmap.lookup_erase_ne hk]

theorem expiryAt_erase {a : Keyspace} {k key : Bytes} (hk : k ≠ key) :
    expiryAt (a.erase key) k = a.expiryAt k := by
  unfold expiryAt
  rw [Finmap.lookup_erase_ne hk]

theorem Pass.refl {now n : Nat} {a : Keyspace} (h : (a.due now).card = 0 ∨ n = 0) :
    Pass now n a a := by
  refine ⟨fun _ _ => rfl, by simp, ?_, by simp⟩
  rw [sdiff_self, Finset.bot_eq_empty, Finset.card_empty]
  omega

theorem Expires.exact {now n : Nat} {a a' : Keyspace} (h : Expires now n a a') :
    Pass now n a a' := by
  induction h with
  | idle hnone => exact Pass.refl (Or.inl (by rw [due_empty hnone, Finset.card_empty]))
  | full => exact Pass.refl (Or.inr rfl)
  | @due n a a' key item e hitem hexp hlt hnone hrest ih =>
    have hkey : key ∈ a.keys := Finmap.mem_keys.mpr (Finmap.mem_of_lookup_eq_some hitem)
    have he : a.expiryAt key = some e := expiryAt_eq_some.mpr ⟨item, hitem, hexp⟩
    have hdue : key ∈ a.due now := mem_due.mpr ⟨e, he, hlt⟩
    -- The key itself is not in what the rest of the pass leaves.
    have hout : key ∉ a' := fun hmem => by
      have hl := ih.kept key hmem
      rw [Finmap.lookup_erase] at hl
      exact Finmap.lookup_eq_none.mp hl hmem
    have hremoved : a.keys \ a'.keys = insert key ((a.erase key).keys \ a'.keys) := by
      ext k
      rw [Finmap.keys_erase, Finset.mem_insert, Finset.mem_sdiff, Finset.mem_sdiff,
        Finset.mem_erase, Finmap.mem_keys (s := a')]
      by_cases hk : k = key
      · subst hk
        simp [hkey, hout]
      · simp [hk]
    have hnotin : key ∉ (a.erase key).keys \ a'.keys := by
      rw [Finmap.keys_erase]
      simp
    refine ⟨fun k hk => ?_, fun k hk => ?_, ?_, fun k hk other hother f f' hf hf' => ?_⟩
    · have hne : k ≠ key := fun heq => hout (heq ▸ hk)
      rw [ih.kept k hk, Finmap.lookup_erase_ne hne]
    · rw [hremoved, Finset.mem_insert] at hk
      rcases hk with rfl | hk
      · exact hdue
      · have := ih.due k hk
        rw [due_erase] at this
        exact Finset.mem_of_mem_erase this
    · have hpos := Finset.card_pos.mpr ⟨key, hdue⟩
      rw [hremoved, Finset.card_insert_of_notMem hnotin, ih.count, due_erase,
        Finset.card_erase_of_mem hdue]
      omega
    · have hne : other ≠ key := fun heq => hout (heq ▸ hother)
      rw [hremoved, Finset.mem_insert] at hk
      rcases hk with rfl | hk
      · obtain ⟨item', hitem', hexp'⟩ := expiryAt_eq_some.mp hf'
        rw [he] at hf
        cases hf
        exact hnone other item' f' hitem' hexp'
      · have hkne : k ≠ key := fun heq => hnotin (heq ▸ hk)
        exact ih.earliest k hk other hother f f' ((expiryAt_erase hkne).trans hf)
          ((expiryAt_erase hne).trans hf')

/-- A pass that may remove all due keys does. -/
theorem Pass.noneBefore {now n : Nat} {a a' : Keyspace} (h : Pass now n a a')
    (hn : (a.due now).card ≤ n) : a'.NoneBefore now := by
  have hall : a.keys \ a'.keys = a.due now :=
    Finset.eq_of_subset_of_card_le h.due (by rw [h.count]; omega)
  intro key item e hitem hexp
  by_contra hlt
  have hkey : key ∈ a' := Finmap.mem_of_lookup_eq_some hitem
  have hdue : key ∈ a.due now := mem_due.mpr ⟨e, expiryAt_eq_some.mpr
    ⟨item, (h.kept key hkey).symm.trans hitem, hexp⟩, Nat.not_le.mp hlt⟩
  rw [← hall, Finset.mem_sdiff] at hdue
  exact hdue.2 (Finmap.mem_keys.mpr hkey)

/-! ## Deadlines over runs -/

/-- The command neither deletes the key nor sets its expiry. -/
def Spares (c : Command) (key : Bytes) : Prop :=
  c ≠ .del key ∧ ∀ ttlMs, c ≠ .pexpire key (some ttlMs)

theorem expiryAt_insert (a : Keyspace) (k key : Bytes) (item : Item) :
    expiryAt (a.insert k item) key = if key = k then item.expiry else a.expiryAt key := by
  unfold expiryAt
  by_cases hk : key = k
  · rw [hk, Finmap.lookup_insert, if_pos rfl]
    rfl
  · rw [Finmap.lookup_insert_of_ne _ hk, if_neg hk]

/-- A key keeps its expiry when its value is replaced. -/
theorem expiryAt_replace {a : Keyspace} {k key : Bytes} {item : Item} (h : a.lookup k = some item)
    (v : Value) : expiryAt (a.insert k ⟨v, item.expiry⟩) key = a.expiryAt key := by
  rw [expiryAt_insert]
  by_cases hk : key = k
  · rw [if_pos hk, hk, expiryAt, h]
    rfl
  · rw [if_neg hk]

theorem next_expiryAt {a : Keyspace} {c : Command} {key : Bytes} (hc : Spares c key) (now : Nat)
    {e : Nat} (he : a.expiryAt key = some e) : (a.next now c).expiryAt key = some e := by
  obtain ⟨item, hitem, -⟩ := expiryAt_eq_some.mp he
  -- A new key is another key.
  have hnew : ∀ k i, a.lookup k = none → expiryAt (a.insert k i) key = some e := fun k i hk => by
    have hne : key ≠ k := fun heq => by rw [heq, hk] at hitem; cases hitem
    rw [expiryAt_insert, if_neg hne, he]
  cases c with
  | get | pttl | keys | zscore | zquery | unknown => exact he
  | set k value =>
    dsimp only [next]
    cases hold : a.lookup k with
    | none => exact hnew k _ hold
    | some old =>
      obtain ⟨v, expiry⟩ := old
      cases v with
      | str s => exact (expiryAt_replace hold _).trans he
      | zset m => exact he
  | del k =>
    have hne : key ≠ k := fun heq => hc.1 (heq ▸ rfl)
    exact (expiryAt_erase hne).trans he
  | pexpire k ttl =>
    cases ttl with
    | none => exact he
    | some ttlMs =>
      have hne : key ≠ k := fun heq => hc.2 ttlMs (heq ▸ rfl)
      dsimp only [next]
      cases hold : a.lookup k with
      | none => exact he
      | some old =>
        dsimp only
        rw [expiryAt_insert, if_neg hne, he]
  | zadd k score name =>
    cases score with
    | none => exact he
    | some score =>
      dsimp only [next]
      cases hold : a.lookup k with
      | none => exact hnew k _ hold
      | some old =>
        obtain ⟨v, expiry⟩ := old
        cases v with
        | str s => exact he
        | zset m => exact (expiryAt_replace hold _).trans he
  | zrem k name =>
    dsimp only [next]
    cases hz : a.zset k with
    | none => exact he
    | some m =>
      dsimp only [setZset]
      cases hold : a.lookup k with
      | none => exact he
      | some old => exact (expiryAt_replace hold _).trans he

end Keyspace

open Keyspace

/-- The event neither deletes the key nor sets its expiry, and is no timer pass after `e`. -/
def KEvent.Spares (strtod : Strtod) (key : Bytes) (e : Nat) : KEvent → Prop
  | .request _ cmd _ => Keyspace.Spares (Command.of strtod cmd) key
  | .timers now => now.toNat ≤ e
  | .work => True

variable {strtod : Strtod}

/-- Up to its deadline, a key stays. -/
theorem Machine.Step.spares {m m' : Machine} {l : KEvent} (h : Machine.Step strtod m l m')
    {key : Bytes} {e : Nat} (hl : l.Spares strtod key e) (he : m.keys.expiryAt key = some e) :
    m'.keys.expiryAt key = some e := by
  cases h with
  | request _ _ => exact next_expiryAt hl _ he
  | @timers now keys _ hexp =>
    have hpass := hexp.exact
    obtain ⟨item, hitem, -⟩ := expiryAt_eq_some.mp he
    have hkey : key ∈ keys := by
      by_contra hout
      have hin : key ∈ m.keys.keys \ keys.keys := Finset.mem_sdiff.mpr
        ⟨Finmap.mem_keys.mpr (Finmap.mem_of_lookup_eq_some hitem), fun hk =>
          hout (Finmap.mem_keys.mp hk)⟩
      obtain ⟨f, hf, hlt⟩ := mem_due.mp (hpass.due key hin)
      rw [he] at hf
      cases hf
      exact absurd hlt (Nat.not_lt.mpr hl)
    unfold expiryAt
    rw [hpass.kept key hkey]
    exact he
  | work => exact he

theorem run_spares {m m' : Machine} {ls : List KEvent} (hrun : Run (Machine.Step strtod) m ls m')
    {key : Bytes} {e : Nat} (hl : ∀ l ∈ ls, l.Spares strtod key e)
    (he : m.keys.expiryAt key = some e) : m'.keys.expiryAt key = some e :=
  hrun.invariant (I := fun m => m.keys.expiryAt key = some e)
    (fun _ _ _ hi hl hstep => hstep.spares hl hi) he hl

/-- **One timer pass expires the right keys**, and a deadline set by `pexpire` holds. -/
theorem ttl_pass_exact {ls : List KEvent} {s : KState} (hrun : Run (KStep strtod) {} ls s) :
    (∃ a, Refines s.data a) ∧ ∀ a, Refines s.data a →
      (∀ now, ∃ g a', processTtl s.data now = .ok g ∧ Refines g a' ∧
        Pass now.toNat (kMaxWorks + 1) a a' ∧
        ((a.due now.toNat).card ≤ kMaxWorks → a'.NoneBefore now.toNat)) ∧
      ∀ now cmd key ttlMs out res, now.toNat < 2 ^ 63 → key ∈ a →
        Command.of strtod cmd = .pexpire key (some ttlMs) → 0 ≤ ttlMs →
        doRequest strtod s.data now cmd out = .ok res →
        ∃ a1, Refines res.1 a1 ∧ a1.expiryAt key = some (now.toNat + ttlMs.toInt.toNat) ∧
          ∀ ls' s', Run (KStep strtod) ⟨now, res.1⟩ ls' s' → (∀ l ∈ ls', l.Timely) →
            (∀ l ∈ ls', l.Spares strtod key (now.toNat + ttlMs.toInt.toNat)) →
            ∃ a2, Refines s'.data a2 ∧
              a2.expiryAt key = some (now.toNat + ttlMs.toInt.toNat) := by
  refine ⟨exists_refines (run_keeps KInv.empty hrun).1, fun a ha => ⟨fun now => ?_,
    fun now cmd key ttlMs out res htime hkey hcmd httl hres => ?_⟩⟩
  · obtain ⟨g, a', hpass, ha', -, hexp⟩ := processTtl_spec ha now
    exact ⟨g, a', hpass, ha', hexp.exact, fun hle =>
      hexp.exact.noneBefore (Nat.le_succ_of_le hle)⟩
  · have h1 := ((doRequest_spec strtod ha now cmd out).answered _ hres).refines htime
    rw [hcmd] at h1
    obtain ⟨item, hitem⟩ := Finmap.mem_iff.mp hkey
    have he : (a.next now.toNat (.pexpire key (some ttlMs))).expiryAt key =
        some (now.toNat + ttlMs.toInt.toNat) := by
      dsimp only [next]
      rw [hitem]
      dsimp only
      rw [expiryAt_insert, if_pos rfl, deadline, if_neg (Int64.not_lt.mpr httl)]
    refine ⟨_, h1, he, fun ls' s' hrun' htime' hspares => ?_⟩
    obtain ⟨m, hm, h2, -⟩ := Run.simulate
      (R := fun (s : KState) (m : Machine) => Refines s.data m.keys ∧ m.clock = s.clock.toNat)
      (fun _ _ _ _ h ht hstep => hstep.refine h ht) (a := (⟨now.toNat, _⟩ : Machine)) ⟨h1, rfl⟩
      hrun' htime'
    exact ⟨m.keys, h2, run_spares hm hspares he⟩

/-- Of a key with the deadline 1, a pass at 2 leaves nothing. -/
theorem ttl_pass_exact_due : ∃ (g g' : KData) (a' : Keyspace), processTtl g 2 = .ok g' ∧
    Refines g' a' ∧ a'.keys = ∅ := by
  set strtod : Strtod := fun _ => (⟨0⟩, 0)
  set cmds := [[ascii "set", [107], [118]], [ascii "pexpire", [107], ascii "1"]] with hcmds
  obtain ⟨ls, s, hrun, -, -, h⟩ := exists_run strtod cmds (by
    intro cmd hcmd a
    simp only [hcmds, List.mem_cons, List.not_mem_nil, or_false] at hcmd
    rcases hcmd with rfl | rfl <;> trivial)
  -- The only key, and its expiry.
  have hall : ∀ key item, (afterAll strtod cmds).lookup key = some item →
      key = [107] ∧ item.expiry = some 1 := by
    have hset : afterAll strtod cmds = Finmap.insert [107] (⟨.str [118], some 1⟩ : Item)
        (Finmap.insert [107] ⟨.str [118], none⟩ ∅) := by
      rfl
    intro key item hitem
    by_cases hk : key = [107]
    · rw [hset, hk, Finmap.lookup_insert] at hitem
      cases hitem
      exact ⟨hk, rfl⟩
    · rw [hset, Finmap.lookup_insert_of_ne _ hk, Finmap.lookup_insert_of_ne _ hk,
        Finmap.lookup_empty] at hitem
      cases hitem
  obtain ⟨g', a', hpass, ha', hexact, hnone⟩ := ((ttl_pass_exact hrun).2 _ h).1 2
  have hdue : (due (afterAll strtod cmds) 2).card ≤ kMaxWorks := by
    have hsub : due (afterAll strtod cmds) 2 ⊆ {[107]} := fun key hkey => by
      obtain ⟨e, he, -⟩ := mem_due.mp hkey
      obtain ⟨item, hitem, -⟩ := expiryAt_eq_some.mp he
      exact Finset.mem_singleton.mpr (hall key item hitem).1
    exact (Finset.card_le_card hsub).trans (by decide)
  refine ⟨s.data, g', a', hpass, ha', Finset.eq_empty_of_forall_notMem fun key hkey => ?_⟩
  obtain ⟨item, hitem⟩ := Finmap.mem_iff.mp (Finmap.mem_keys.mp hkey)
  have hexp := (hall key item ((hexact.kept key (Finmap.mem_keys.mp hkey)).symm.trans hitem)).2
  exact absurd (hnone hdue key item 1 hitem hexp) (by decide)

end Greenis
