/-
  A key that is due goes, whatever the clients do.

  A timer pass removes at most 2001 keys, those with the earliest deadlines. Once the clock is past
  the deadline of a key, no other key gets an earlier one. So the key waits for the keys that had
  deadlines up to its own at that time, and for no others: if there are n of them, it is removed by
  one of the next ⌈n / 2001⌉ passes (`overdue_removed`).
-/
import Greenis.Proofs.Histories
import Greenis.Proofs.TtlPass

namespace Greenis
open CExec LTS Keyspace

/-! ## Deadlines that have passed -/

namespace Keyspace

variable {a a' : Keyspace} {now n e : Nat} {key : Bytes}

theorem deadline_le {ttlMs : Int64} (h : deadline now ttlMs = some e) : now ≤ e := by
  unfold deadline at h
  split at h
  · cases h
  · obtain rfl := Option.some.inj h
    exact Nat.le_add_right _ _

/-- A command sets no deadline that has passed. -/
theorem next_due (c : Command) (h : e < now) : (a.next now c).due (e + 1) ⊆ a.due (e + 1) := by
  intro k hk
  obtain ⟨f, hf, hle⟩ := mem_due.mp hk
  obtain ⟨item, hitem, hexp⟩ := expiryAt_eq_some.mp hf
  rcases next_expiry hitem hexp with ⟨ttlMs, hd⟩ | hold
  · have := deadline_le hd
    omega
  · exact mem_due.mpr ⟨f, expiryAt_eq_some.mpr hold, hle⟩

/-- A pass removes the key, or as many keys as it may, with deadlines up to that of the key. -/
theorem Pass.overdue (h : Pass now n a a') (he : a.expiryAt key = some e) (hlt : e < now) :
    key ∉ a' ∨ (a'.expiryAt key = some e ∧ (a'.due (e + 1)).card + n ≤ (a.due (e + 1)).card) := by
  by_cases hkey : key ∈ a'
  · have he' : a'.expiryAt key = some e := by
      unfold expiryAt
      rw [h.kept key hkey]
      exact he
    -- The pass has stopped before the key, so it has removed `n` others.
    have hin : key ∈ a.due now := mem_due.mpr ⟨e, he, hlt⟩
    have hout : key ∉ a.keys \ a'.keys := fun hk =>
      (Finset.mem_sdiff.mp hk).2 (Finmap.mem_keys.mpr hkey)
    have hfew : (a.keys \ a'.keys).card < (a.due now).card :=
      Finset.card_lt_card ⟨h.due, fun hsub => hout (hsub hin)⟩
    have hcount : (a.keys \ a'.keys).card = n := by
      have := h.count
      omega
    have hremoved : a.keys \ a'.keys ⊆ a.due (e + 1) := fun k hk => by
      obtain ⟨f, hf, -⟩ := mem_due.mp (h.due k hk)
      exact mem_due.mpr ⟨f, hf, Nat.lt_succ_of_le (h.earliest k hk key hkey f e hf he)⟩
    have hleft : a'.due (e + 1) ⊆ a.due (e + 1) \ (a.keys \ a'.keys) := fun k hk => by
      obtain ⟨f, hf, hle⟩ := mem_due.mp hk
      obtain ⟨item, hitem, -⟩ := expiryAt_eq_some.mp hf
      have hmem := Finmap.mem_of_lookup_eq_some hitem
      have hold : a.expiryAt k = some f := by
        rw [expiryAt, ← h.kept k hmem]
        exact hf
      exact Finset.mem_sdiff.mpr ⟨mem_due.mpr ⟨f, hold, hle⟩, fun hk =>
        (Finset.mem_sdiff.mp hk).2 (Finmap.mem_keys.mpr hmem)⟩
    have hcard := Finset.card_le_card hleft
    rw [Finset.card_sdiff_of_subset hremoved, hcount] at hcard
    have hle := Finset.card_le_card hremoved
    exact Or.inr ⟨he', by omega⟩
  · exact Or.inl hkey

end Keyspace

/-! ## Runs of the machine -/

/-- How many keys the event may remove because they are due. -/
def KEvent.expires : KEvent → Nat
  | .timers _ => kMaxWorks + 1
  | _ => 0

/-- The event is no command that deletes the key or sets its expiry. -/
def KEvent.Leaves (strtod : Strtod) (key : Bytes) : KEvent → Prop
  | .request _ cmd _ => Keyspace.Spares (Command.of strtod cmd) key
  | _ => True

variable {strtod : Strtod}

/-- The key is still there, and its deadline has passed. -/
def Machine.Overdue (key : Bytes) (e : Nat) (m : Machine) : Prop :=
  e < m.clock ∧ m.keys.expiryAt key = some e

theorem Machine.Step.overdue {m m' : Machine} {l : KEvent} {key : Bytes} {e : Nat}
    (h : Machine.Step strtod m l m') (hm : m.Overdue key e) (hl : l.Leaves strtod key) :
    ((∃ now, l = .timers now) ∧ key ∉ m'.keys) ∨
      (m'.Overdue key e ∧
        (m'.keys.due (e + 1)).card + l.expires ≤ (m.keys.due (e + 1)).card) := by
  obtain ⟨hlt, he⟩ := hm
  cases h with
  | @request now cmd r hclock hreplies =>
    have hnow := Nat.lt_of_lt_of_le hlt hclock
    exact Or.inr ⟨⟨hnow, next_expiryAt hl _ he⟩, Finset.card_le_card (next_due _ hnow)⟩
  | @timers now keys hclock hexp =>
    have hnow := Nat.lt_of_lt_of_le hlt hclock
    rcases hexp.exact.overdue he hnow with hgone | ⟨he', hle⟩
    · exact Or.inl ⟨⟨now, rfl⟩, hgone⟩
    · exact Or.inr ⟨⟨hnow, he'⟩, hle⟩
  | work => exact Or.inr ⟨⟨hlt, he⟩, Nat.le_refl _⟩

/-- An overdue key is removed by one of the passes that the keys up to its deadline take. -/
theorem Machine.overdue_goes {m m' : Machine} {ls : List KEvent} {key : Bytes} {e : Nat}
    (hrun : Run (Machine.Step strtod) m ls m') (hm : m.Overdue key e)
    (hl : ∀ l ∈ ls, l.Leaves strtod key)
    (henough : (m.keys.due (e + 1)).card ≤ (ls.map KEvent.expires).sum) :
    ∃ pre now post m1 m2, ls = pre ++ .timers now :: post ∧ Run (Machine.Step strtod) m pre m1 ∧
      Machine.Step strtod m1 (.timers now) m2 ∧ Run (Machine.Step strtod) m2 post m' ∧
      m1.keys.expiryAt key = some e ∧ key ∉ m2.keys ∧
      (pre.map KEvent.expires).sum < (m.keys.due (e + 1)).card := by
  have hpos : ∀ m : Machine, m.Overdue key e → 0 < (m.keys.due (e + 1)).card := fun m hm =>
    Finset.card_pos.mpr ⟨key, mem_due.mpr ⟨e, hm.2, Nat.lt_succ_self e⟩⟩
  rcases hrun.countdown (I := Machine.Overdue key e)
      (D := fun _ l m' => (∃ now, l = .timers now) ∧ key ∉ m'.keys)
      (fun _ _ _ hi hl hstep => hstep.overdue hi hl) hm hl with
    ⟨pre, l, post, m1, m2, rfl, hpre, hstep, hpost, hi, ⟨⟨now, rfl⟩, hgone⟩, hle⟩ | ⟨hi, hle⟩
  · have := hpos m1 hi
    exact ⟨pre, now, post, m1, m2, rfl, hpre, hstep, hpost, hi.2, hgone, by omega⟩
  · have := hpos m' hi
    omega

/-! ## Runs of the event loop -/

def LoopEvent.expires : LoopEvent → Nat
  | .timers _ => kMaxWorks + 1
  | _ => 0

/-- How many keys the passes of some entries may remove. -/
def passes (entries : List History.Entry) : Nat :=
  ((entries.map History.Entry.event).map KEvent.expires).sum

theorem passes_append (entries entries' : List History.Entry) :
    passes (entries ++ entries') = passes entries + passes entries' := by
  unfold passes
  rw [List.map_append, List.map_append, List.sum_append]

theorem passes_calls (p : Ptr) (calls : List Call) : passes (calls.map (.call p)) = 0 := by
  unfold passes
  rw [List.map_map, List.map_map]
  induction calls with
  | nil => rfl
  | cons call calls ih => rw [List.map_cons, List.sum_cons, ih]; rfl

/-- What a step adds to the history is a run of the keyspace, from the clock reading before it. -/
theorem TracedStep.extends {t t' : TracedState} {e : LoopEvent} (hr : Recorded strtod t)
    (hstep : TracedStep strtod t e t') :
    ∃ new, t'.history.entries = t.history.entries ++ new ∧ passes new = e.expires ∧
      ∀ k, Hosts t.server k →
        ∃ k', Run (KStep strtod) k (new.map History.Entry.event) k' ∧ Hosts t'.server k' := by
  have hr' := hstep.recorded hr
  have hkv : KInv t'.server.loop.data.kv := by
    obtain ⟨ys, hsteady, -⟩ := hr'.steady
    exact hsteady.kv
  obtain ⟨hstep⟩ := hstep
  rename_i s s' h
  have hquiet : s'.loop.data.kv = s.loop.data.kv → s.clock ≤ s'.clock → ∀ k, Hosts s k →
      ∃ k', Run (KStep strtod) k [] k' ∧ Hosts s' k' := fun hdata hle k hk =>
    ⟨k, .refl k, hk.data.trans hdata.symm, UInt64.le_trans hk.clock hle, hk.inv⟩
  cases e with
  | served io =>
    have hserved := hr.serves hstep
    rcases hstep with @⟨s, s', clock, clock', -, hloop, hticks⟩
    rcases hserved with ⟨hserves, hdata⟩ | ⟨p, x, hserves, hexchanged⟩
    · refine ⟨[], ?_, rfl, hquiet (congrArg GData.kv hdata) hticks.le⟩
      dsimp only [History.after]
      rw [hserves, List.append_nil]
      rfl
    · refine ⟨x.calls.map (.call p), ?_, passes_calls p x.calls, fun k hk => ?_⟩
      · dsimp only [History.after]
        rw [hserves]
        rfl
      · obtain ⟨c, c', -, hx, -⟩ := hexchanged k hk
        obtain ⟨k', hrun, hdata, hle⟩ := hx.run
        rw [List.map_map]
        exact ⟨k', hrun, hdata, hle, hdata ▸ hkv⟩
  | timers now =>
    obtain ⟨hloop, hticks⟩ := hstep
    cases hloop with
    | @timers g g' now hpass =>
      cases hticks with
      | timers hle =>
        refine ⟨[.timers now], rfl, rfl, fun k hk => ⟨⟨now, g'.kv⟩, (Run.refl k).snoc ?_, rfl,
          UInt64.le_refl now, hkv⟩⟩
        exact (processTimers_step hk.data (UInt64.le_trans hk.clock hle) hpass).1
  | work =>
    obtain ⟨hloop, hticks⟩ := hstep
    cases hloop with
    | @work g phase kv hwork =>
      refine ⟨[.work], rfl, rfl, fun k hk => ⟨⟨k.clock, kv⟩, (Run.refl k).snoc (.work ?_), rfl,
        UInt64.le_trans hk.clock hticks.le, hkv⟩⟩
      rw [hk.data]
      exact hwork
  | interrupted now =>
    obtain ⟨hloop, hticks⟩ := hstep
    cases hloop
    exact ⟨[], (List.append_nil _).symm, rfl, hquiet rfl hticks.le⟩
  | polled now listening revents =>
    obtain ⟨hloop, hticks⟩ := hstep
    cases hloop
    exact ⟨[], (List.append_nil _).symm, rfl, hquiet rfl hticks.le⟩
  | accepted now accept =>
    obtain ⟨hloop, hticks⟩ := hstep
    cases hloop with
    | accepted _ haccept =>
      exact ⟨[], (List.append_nil _).symm, rfl, hquiet (handleAccept_kv haccept) hticks.le⟩

/-- So is what a run adds. -/
theorem run_extends {es : List LoopEvent} {t t' : TracedState} (hr : Recorded strtod t)
    (hrun : Run (TracedStep strtod) t es t') :
    ∃ new, t'.history.entries = t.history.entries ++ new ∧
      passes new = (es.map LoopEvent.expires).sum ∧ ∀ k, Hosts t.server k →
        ∃ k', Run (KStep strtod) k (new.map History.Entry.event) k' ∧ Hosts t'.server k' := by
  suffices h : Recorded strtod t' ∧ ∃ new, t'.history.entries = t.history.entries ++ new ∧
      passes new = (es.map LoopEvent.expires).sum ∧ ∀ k, Hosts t.server k →
        ∃ k', Run (KStep strtod) k (new.map History.Entry.event) k' ∧ Hosts t'.server k' from h.2
  induction hrun with
  | refl => exact ⟨hr, [], (List.append_nil _).symm, rfl, fun k hk => ⟨k, .refl k, hk⟩⟩
  | snoc _ hstep ih =>
    obtain ⟨hr1, new, hentries, hpasses, hhosts⟩ := ih
    obtain ⟨new', hentries', hpasses', hhosts'⟩ := hstep.extends hr1
    refine ⟨hstep.recorded hr1, new ++ new', ?_, ?_, fun k hk => ?_⟩
    · rw [hentries', hentries, List.append_assoc]
    · rw [passes_append, hpasses, hpasses', List.map_append, List.sum_append, List.map_cons,
        List.map_nil, List.sum_singleton]
    · obtain ⟨k1, hrun1, hk1⟩ := hhosts k hk
      obtain ⟨k2, hrun2, hk2⟩ := hhosts' k1 hk1
      rw [List.map_append]
      exact ⟨k2, hrun1.trans hrun2, hk2⟩

/-- **A key that is due goes.** Take any state of any run of the event loop, and a key whose deadline
    has passed. Let `n` keys have deadlines up to its own. Whatever clients do next, unless one of
    them deletes the key or sets its expiry: as soon as there have been passes for `n` keys, one of
    them has removed the key, and the passes before were for less than `n`. -/
theorem overdue_removed {es es' : List LoopEvent} {t t' : TracedState}
    (hrun : Run (TracedStep strtod) {} es t) (hrun' : Run (TracedStep strtod) t es' t')
    (hclock : t'.server.clock.toNat < 2 ^ 63) {a : Keyspace}
    (ha : Refines t.server.loop.data.kv a) {key : Bytes} {e : Nat} (he : a.expiryAt key = some e)
    (hdue : e < t.server.clock.toNat) :
    ∃ new m, t'.history.entries = t.history.entries ++ new ∧
      Run (Machine.Step strtod) ⟨t.server.clock.toNat, a⟩ (new.map History.Entry.event) m ∧
      Refines t'.server.loop.data.kv m.keys ∧
      ((∀ p call, .call p call ∈ new → Spares (Command.of strtod call.cmd) key) →
        (a.due (e + 1)).card ≤ (es'.map LoopEvent.expires).sum →
        ∃ pre now post m1 m2, new = pre ++ .timers now :: post ∧
          Run (Machine.Step strtod) ⟨t.server.clock.toNat, a⟩ (pre.map History.Entry.event) m1 ∧
          Machine.Step strtod m1 (.timers now) m2 ∧
          Run (Machine.Step strtod) m2 (post.map History.Entry.event) m ∧
          m1.keys.expiryAt key = some e ∧ key ∉ m2.keys ∧
          passes pre < (a.due (e + 1)).card) := by
  obtain ⟨new, hentries, hpasses, hhosts⟩ := run_extends (run_recorded hrun) hrun'
  obtain ⟨k', hk', hosts'⟩ := hhosts ⟨t.server.clock, t.server.loop.data.kv⟩
    ⟨rfl, UInt64.le_refl _, ha.inv⟩
  have htime := run_timely hk'
    (Nat.lt_of_le_of_lt (UInt64.le_iff_toNat_le.mp hosts'.clock) hclock)
  obtain ⟨m, hm, hrefines, -⟩ := Run.simulate
    (R := fun (s : KState) (m : Machine) => Refines s.data m.keys ∧ m.clock = s.clock.toNat)
    (fun _ _ _ _ h ht hstep => hstep.refine h ht)
    (a := (⟨t.server.clock.toNat, a⟩ : Machine)) ⟨ha, rfl⟩ hk' htime
  refine ⟨new, m, hentries, hm, hosts'.data ▸ hrefines, fun hspares henough => ?_⟩
  have hleaves : ∀ l ∈ new.map History.Entry.event, l.Leaves strtod key := fun l hl => by
    obtain ⟨x, hx, rfl⟩ := List.mem_map.mp hl
    cases x with
    | call p call => exact hspares p call hx
    | timers now => trivial
    | work => trivial
  obtain ⟨pre, now, post, m1, m2, heq, hpre, hstep, hpost, he1, hgone, hlt⟩ :=
    Machine.overdue_goes hm ⟨hdue, he⟩ hleaves (henough.trans_eq hpasses.symm)
  obtain ⟨new1, new2, rfl, rfl, hnew2⟩ := List.map_eq_append_iff.mp heq
  obtain ⟨x, new3, rfl, hx, rfl⟩ := List.map_eq_cons_iff.mp hnew2
  cases x with
  | call p call => cases hx
  | work => cases hx
  | timers now' =>
    obtain rfl := KEvent.timers.inj hx
    exact ⟨new1, now', new3, m1, m2, rfl, hpre, hstep, hpost, he1, hgone, hlt⟩

/-- The deadline of a key, in memory. -/
theorem Refines.expiryAt {g : KData} {a : Keyspace} (h : Refines g a) (key : Bytes) :
    a.expiryAt key = ((g.find key).bind (expiryOf g.heap)).map UInt64.toNat := by
  have hs := h.stands key
  unfold Keyspace.expiryAt
  cases hf : g.find key with
  | none => rw [h.missing hf]; rfl
  | some p =>
    obtain ⟨item, hl⟩ := h.found hf
    rw [hl.lookup]
    exact hl.expiry.symm

/-- A client sets a key and its TTL. The deadline passes, and there is a timer pass. -/
theorem exists_overdue_run : ∃ (es es' : List LoopEvent) (t t' : TracedState) (p : Ptr),
    Run (TracedStep fun _ => (⟨0⟩, 0)) {} es t ∧ Run (TracedStep fun _ => (⟨0⟩, 0)) t es' t' ∧
      t.server.clock = 2 ∧ t'.server.clock = 2 ∧
      t'.history.entries = t.history.entries ++ [.timers 2] ∧
      (es'.map LoopEvent.expires).sum = kMaxWorks + 1 ∧ t.server.loop.data.kv.linked = [p] ∧
      (t.server.loop.data.kv.at p).key = [107] ∧
      (t.server.loop.data.kv.find [107]).bind (expiryOf t.server.loop.data.kv.heap) = some 1 := by
  set strtod : Strtod := fun _ => (⟨0⟩, 0)
  have hle := UInt64.le_refl 0
  have hle2 := UInt64.le_refl 2
  have hserved := (run_readable strtod).snoc (l := .served ⟨0, fun _ => 0,
    .data (frame (encodeCmd [ascii "set", [107], [118]]) ++
      frame (encodeCmd [ascii "pexpire", [107], ascii "1"])), .count 3, .again⟩)
    (.mk (.mk (.served rfl) (.still 0)))
  have htimers' := hserved.snoc (l := .timers 0) (.mk (.mk (.timers rfl) (.timers hle)))
  have hrun := htimers'.snoc (l := .interrupted 2)
    (.mk (.mk .interrupted (.interrupted (by decide))))
  have hhere : ∀ {es t}, Run (TracedStep strtod) {} es t → Run (TracedStep strtod) t [] t :=
    fun {_ t} _ => .refl t
  have hidle := (hhere hrun).snoc (l := .polled 2 false [{}]) (.mk (.mk (.polled rfl
    (.cons ⟨fun h => absurd h Bool.false_ne_true, fun h => absurd h Bool.false_ne_true⟩ .nil))
      (.polled hle2)))
  have hskipped := hidle.snoc (l := .served ⟨2, fun _ => 2, .again, .again, .again⟩)
    (.mk (.mk (.served rfl) (.still 2)))
  have hrun' := hskipped.snoc (l := .timers 2) (.mk (.mk (.timers rfl) (.timers hle2)))
  exact ⟨_, _, _, _, _, hrun, hrun', rfl, rfl, rfl, rfl, rfl, rfl, rfl⟩

/-- The pass removes it. -/
theorem overdue_removed_key : ∃ (es es' : List LoopEvent) (t t' : TracedState) (a : Keyspace)
    (m1 m : Machine), Run (TracedStep fun _ => (⟨0⟩, 0)) {} es t ∧
      Run (TracedStep fun _ => (⟨0⟩, 0)) t es' t' ∧ Refines t.server.loop.data.kv a ∧
      a.expiryAt [107] = some 1 ∧ Machine.Step (fun _ => (⟨0⟩, 0)) m1 (.timers 2) m ∧
      m1.keys.expiryAt [107] = some 1 ∧ [107] ∉ m.keys ∧
      Refines t'.server.loop.data.kv m.keys := by
  obtain ⟨es, es', t, t', p, hrun, hrun', hclock, hclock', hentries, hsum, hlinked, hkey, hexp⟩ :=
    exists_overdue_run
  obtain ⟨ys, hsteady, -⟩ := (run_recorded hrun).steady
  obtain ⟨a, ha⟩ := exists_refines hsteady.kv
  have he : a.expiryAt [107] = some 1 := by
    rw [ha.expiryAt, hexp]
    rfl
  -- It is the only key.
  have hdue : (a.due 2).card ≤ kMaxWorks + 1 := by
    have hsub : a.due 2 ⊆ {[107]} := fun k hk => by
      obtain ⟨f, hf, -⟩ := mem_due.mp hk
      obtain ⟨item, hitem, -⟩ := expiryAt_eq_some.mp hf
      obtain ⟨q, hq, rfl⟩ := ha.mem_iff.mp (Finmap.mem_of_lookup_eq_some hitem)
      rw [hlinked, List.mem_singleton] at hq
      rw [hq, hkey, Finset.mem_singleton]
    exact (Finset.card_le_card hsub).trans (by decide)
  obtain ⟨new, m, hnew, -, hrefines, hremoved⟩ :=
    overdue_removed hrun hrun' (hclock' ▸ by decide) ha he (hclock ▸ by decide)
  obtain rfl := List.append_cancel_left (hnew.symm.trans hentries)
  obtain ⟨pre, now, post, m1, m2, heq, -, hstep, hpost, he1, hgone, -⟩ :=
    hremoved (by simp) (hsum ▸ hdue)
  -- There is no other entry, so this pass ends the run.
  cases pre with
  | nil =>
    obtain ⟨hpass, rfl⟩ := List.cons.inj heq
    obtain rfl := History.Entry.timers.inj hpass
    obtain rfl := hpost.eq_of_nil
    exact ⟨es, es', t, t', a, m1, m2, hrun, hrun', ha, he, hstep, he1, hgone, hrefines⟩
  | cons x pre => simp at heq

end Greenis
