/-
  `do_request`, `process_timers` and the workers act on the keyspace as specified.
-/
import Greenis.Proofs.Zquery

namespace Greenis
open CExec

theorem doRequest_spec (strtod : Strtod) {g : KData} {a : Keyspace} (h : Refines g a)
    (now : UInt64) (cmd : List Bytes) (out : Buffer) :
    Serves g a now (Command.of strtod cmd) out (doRequest strtod g now cmd out) := by
  have hunknown : Serves g a now .unknown out
      (.ok (g, outErr out .unknown (ascii "unknown command."))) :=
    .of_ok ⟨_, rfl, .of_scalar h (Ages.refl g) (outErr_eq out _ _) rfl⟩
  -- The handlers are told apart by the number of arguments, then by the name of the command.
  match cmd with
  | [] => exact hunknown
  | [c] =>
    simp only [doRequest, Command.of, List.length_cons, List.length_nil, List.getElem?_cons_zero,
      Option.some.injEq, Nat.reduceAdd, Nat.reduceEqDiff, false_and, true_and, if_false]
    split
    · exact .of_ok (doKeys_spec h now c out)
    · exact hunknown
  | [c, key] =>
    simp only [doRequest, Command.of, List.length_cons, List.length_nil, List.getElem?_cons_zero,
      Option.some.injEq, Nat.reduceAdd, Nat.reduceEqDiff, false_and, true_and, if_false]
    split
    · exact .of_ok (doGet_spec h now c key out)
    split
    · exact .of_ok (doDel_spec h now c key out)
    split
    · exact .of_ok (doTtl_spec h now c key out)
    · exact hunknown
  | [c, key, x] =>
    simp only [doRequest, Command.of, List.length_cons, List.length_nil, List.getElem?_cons_zero,
      Option.some.injEq, Nat.reduceAdd, Nat.reduceEqDiff, false_and, true_and, if_false]
    split
    · exact .of_ok (doSet_spec h now c key x out)
    split
    · exact .of_ok (doExpire_spec h now c key x out)
    split
    · exact .of_ok (doZrem_spec h now c key x out)
    split
    · exact .of_ok (doZscore_spec h now c key x out)
    · exact hunknown
  | [c, key, score, name] =>
    simp only [doRequest, Command.of, List.length_cons, List.length_nil, List.getElem?_cons_zero,
      Option.some.injEq, Nat.reduceAdd, Nat.reduceEqDiff, false_and, true_and, if_false]
    split
    · exact .of_ok (doZadd_spec strtod h now c key score name out)
    · exact hunknown
  | [_, _, _, _, _] => exact hunknown
  | [c, key, score, name, offset, limit] =>
    simp only [doRequest, Command.of, List.length_cons, List.length_nil, List.getElem?_cons_zero,
      Option.some.injEq, Nat.reduceAdd, Nat.reduceEqDiff, false_and, true_and, if_false]
    split
    · exact doZquery_spec h now
    · exact hunknown
  | _ :: _ :: _ :: _ :: _ :: _ :: _ :: _ =>
    simpa [doRequest, Command.of] using hunknown

/-- Every command but `zquery` is specified. -/
theorem specified_of_name {strtod : Strtod} {cmd : List Bytes}
    (h : cmd[0]? ≠ some (ascii "zquery")) (a : Keyspace) :
    a.Specified (Command.of strtod cmd) := by
  unfold Command.of
  split <;> try split_ifs
  all_goals first | exact trivial | simp_all

/-! ## Timers -/

section Timers

variable {g : KData} {a : Keyspace}

/-- An item of the heap is the expiry of its key. -/
theorem Refines.item_of_heap (h : Refines g a) {t : HeapItem Ptr} (ht : t ∈ g.heap.a) :
    ∃ v, a.lookup (g.at t.ref).key = some ⟨v, some t.val.toNat⟩ := by
  have hp := h.inv.ttl.owned t ht
  obtain ⟨⟨v, expiry⟩, hl⟩ := h.found (h.inv.db.find_eq_some.mpr ⟨hp, rfl⟩)
  obtain rfl : some t.val.toNat = expiry := by
    have hexp := hl.expiry
    rwa [(h.inv.ttl.expiry_eq_some hp).mpr ht] at hexp
  exact ⟨v, hl.lookup⟩

/-- No key is due before the item at the root. -/
theorem Refines.noneBefore (h : Refines g a) {t : Nat}
    (hroot : ∀ first ∈ g.heap.a[0]?, t ≤ first.val.toNat) : a.NoneBefore t := by
  intro key item e ha he
  cases hf : g.find key with
  | none =>
    rw [h.missing hf] at ha
    cases ha
  | some p =>
    obtain ⟨item', hl⟩ := h.found hf
    obtain rfl : item = item' := Option.some.inj (ha.symm.trans hl.lookup)
    obtain ⟨v, hv, rfl⟩ := Option.map_eq_some_iff.mp (hl.expiry.trans he)
    obtain ⟨i, hi⟩ := List.getElem?_of_mem ((h.inv.ttl.expiry_eq_some hl.mem).mp hv)
    have hlt := (List.getElem?_eq_some_iff.mp hi).1
    have hle := h.inv.ttl.ok.order.root_le i hlt
    have h0 : g.heap.a[0]? = some g.heap.a[0] := List.getElem?_eq_getElem (by omega)
    rw [keyOf_eq hi, keyOf_eq h0] at hle
    exact (hroot _ h0).trans hle

/-- The node of a linked entry is found by its address. -/
theorem hmDelete_same (h : KInv g) {p : Ptr} (hp : p ∈ g.linked) :
    ∃ db n, hmDelete g.db (g.at p).hcode (hnodeSame p) = .ok (db, some n) ∧ n.owner = p ∧
      db.Inv ∧ g.db.nodes.Perm (n :: db.nodes) := by
  have hdec : Decides (hnodeSame p) (fun n => n.owner = p) (g.at p).hcode g.db.nodes :=
    fun n _ _ => ⟨n.owner == p, rfl, beq_iff_eq⟩
  obtain ⟨db, r, hrun, hinv, hans, hrem⟩ := hmDelete_spec h.db.inv hdec
  cases r with
  | some n => exact ⟨db, n, hrun, hans.2.2, hinv, hrem⟩
  | none =>
    obtain ⟨n, hn, rfl⟩ := List.mem_map.mp hp
    obtain ⟨-, hcode, hok⟩ := h.db.node n hn
    exact absurd rfl (hans n hn (by rw [hcode, hok.hcode]))

/-- `process_timers` removes due keys, earliest first; its assertion holds. -/
theorem expireLoop_spec (now : UInt64) : ∀ (fuel nworks : Nat) (g : KData) (a : Keyspace),
    Refines g a → nworks + fuel = kMaxWorks + 1 → 0 < fuel →
    ∃ g' a', expireLoop now (fuel + 1) nworks g = .ok g' ∧ Refines g' a' ∧ Ages g g' ∧
      Keyspace.Expires now.toNat fuel a a' := by
  intro fuel
  induction fuel with
  | zero => intro _ _ _ _ _ hpos; omega
  | succ fuel ih =>
    intro nworks g a h hwork _
    unfold expireLoop
    cases hheap : g.heap.a with
    | nil =>
      refine ⟨g, a, rfl, h, Ages.refl g, .idle (h.noneBefore fun first hf => ?_)⟩
      rw [hheap] at hf
      cases hf
    | cons first rest =>
      have hroot : g.heap.a[0]? = some first := by rw [hheap]; rfl
      have hmem : first ∈ g.heap.a := List.mem_of_getElem? hroot
      have hp := h.inv.ttl.owned first hmem
      dsimp only
      by_cases hdue : first.val < now
      · -- The key at the root goes.
        obtain ⟨v, hlookup⟩ := h.item_of_heap hmem
        have hnone : a.NoneBefore first.val.toNat := h.noneBefore fun t ht => by
          rw [hroot] at ht
          cases ht
          exact le_refl _
        obtain ⟨db, n, hdel, hn, hinv, hperm⟩ := hmDelete_same h.inv hp
        obtain ⟨g1, hrun1, h1, hages1, -⟩ := h.destroy hinv hperm
        rw [hn] at hrun1 h1
        have hassert : ((some n).map HNode.owner == some first.ref) = true := by
          rw [Option.map_some, hn]
          exact beq_self_eq_true _
        rw [if_pos hdue, Store.load_of (h.inv.db.entry_at hp).1, ok_bind, hdel, ok_bind]
        dsimp only
        rw [check_of hassert, ok_bind, hrun1, ok_bind]
        by_cases hmax : nworks ≥ kMaxWorks
        · rw [if_pos hmax]
          obtain rfl : fuel = 0 := by omega
          exact ⟨g1, _, rfl, h1, hages1,
            .due hlookup rfl (UInt64.lt_iff_toNat_lt.mp hdue) hnone .full⟩
        · rw [if_neg hmax]
          obtain ⟨g2, a2, hrun2, h2, hages2, hexp⟩ :=
            ih (nworks + 1) g1 _ h1 (by omega) (by omega)
          exact ⟨g2, a2, hrun2, h2, hages1.trans hages2,
            .due hlookup rfl (UInt64.lt_iff_toNat_lt.mp hdue) hnone hexp⟩
      · rw [if_neg hdue]
        refine ⟨g, a, rfl, h, Ages.refl g, .idle (h.noneBefore fun t ht => ?_)⟩
        rw [hroot] at ht
        cases ht
        exact UInt64.le_iff_toNat_le.mp (UInt64.not_lt.mp hdue)

theorem processTtl_spec (h : Refines g a) (now : UInt64) :
    ∃ g' a', processTtl g now = .ok g' ∧ Refines g' a' ∧ Ages g g' ∧
      Keyspace.Expires now.toNat (kMaxWorks + 1) a a' :=
  expireLoop_spec now (kMaxWorks + 1) 0 g a h (Nat.zero_add _) (Nat.succ_pos _)

theorem poolWork_refines (h : Refines g a) :
    ∃ g', poolWork g = .ok g' ∧ Refines g' a ∧ Ages g g' := by
  obtain ⟨g', hrun, hinv, hdb, hheap, hbrk, hpool, hentry⟩ := poolWork_spec h.inv
  have hlink : g'.linked = g.linked := by
    unfold KData.linked
    rw [hdb]
  have hat : ∀ p ∈ g.linked, g'.at p = g.at p := fun p hp => by
    have hout : p ∉ g.pool.head? := fun hm =>
      (h.inv.pool.queued p (List.mem_of_head? hm)).1 hp
    rw [KData.at, hentry, if_neg hout, KData.at]
  refine ⟨g', hrun, h.keep hinv (fun k => find_congr h.inv.db hinv.db fun p => ?_)
    fun p hp => ⟨hat p hp, by rw [hheap]⟩, ⟨fun p hp => Or.inl (hlink ▸ hp), fun p hp => ?_,
      hbrk.ge⟩⟩
  · rw [hlink]
    exact and_congr_right fun hp => by rw [hat p hp]
  · exact Or.inl (List.mem_of_mem_tail (hpool ▸ hp))

end Timers

end Greenis
