/-
  The commands on sorted sets act on the keyspace as specified, all but `zquery`.

  `ZsetView` is the set that a `ZSet *` refers to, with the map it holds.
-/
import Greenis.Proofs.Commands

namespace Greenis
open CExec BinaryTree

/-! ## The set of a key -/

theorem Keyspace.setZset_of_zset {a : Keyspace} {key : Bytes} {m : Scores}
    (h : a.zset key = some m) : a.setZset key m = a := by
  unfold Keyspace.zset at h
  unfold Keyspace.setZset
  cases ha : a.lookup key with
  | none => rfl
  | some item =>
    obtain ⟨v, expiry⟩ := item
    rw [ha] at h
    cases v with
    | str s => cases h
    | zset m' =>
      cases h
      exact Finmap.insert_of_lookup ha

/-- What `expect_zset` answers for the item of a key. -/
inductive ZsetAt (g : KData) (a : Keyspace) (key : Bytes) : Option ZSetPtr → Prop
  | missing : a.lookup key = none → ZsetAt g a key (some .empty)
  | entry {p : Ptr} {m : Scores} {expiry : Option Nat} :
      Live g a key p ⟨.zset m, expiry⟩ → ZsetAt g a key (some (.entry p))
  | other {s : Bytes} {expiry : Option Nat} :
      a.lookup key = some ⟨.str s, expiry⟩ → ZsetAt g a key none

theorem expectZset_spec {g : KData} {a : Keyspace} (h : Refines g a) (key : Bytes) :
    ∃ g' r, expectZset g key = .ok (g', r) ∧ Refines g' a ∧ Ages g g' ∧ ZsetAt g' a key r := by
  obtain ⟨g1, hrun, h1, hages⟩ := h.lookup key
  unfold expectZset
  rw [hrun, ok_bind]
  cases hf : g1.find key with
  | none => exact ⟨g1, _, rfl, h1, hages, .missing (h1.missing hf)⟩
  | some p =>
    obtain ⟨item, hl⟩ := h1.found hf
    obtain ⟨v, expiry⟩ := item
    have hv := hl.holding
    dsimp only
    rw [Store.load_of hl.entry, ok_bind]
    cases v with
    | str s =>
      rw [if_neg (by rw [hv.1]; decide)]
      exact ⟨g1, none, rfl, h1, hages, .other hl.lookup⟩
    | zset m =>
      rw [if_pos hv.1]
      exact ⟨g1, _, rfl, h1, hages, .entry hl⟩

/-- The set `z`, with tree `t` and scores `m`, at a `ZSet *`. -/
structure ZsetView (g : KData) (a : Keyspace) (key : Bytes) (ptr : ZSetPtr) (z : ZSet)
    (t : BinaryTree Ptr) (m : Scores) : Prop where
  load : zsetLoad g ptr = .ok z
  inv : ZInv z t
  scores : ∀ name, z.scoreOf t name = m.lookup name
  zset : a.zset key = some m
  write : ∀ z' t' m', ZInv z' t' → (∀ name, z'.scoreOf t' name = m'.lookup name) → ∃ g',
    zsetStore g ptr z' = .ok g' ∧ Refines g' (a.setZset key m') ∧ Ages g g'

theorem ZsetAt.view {g : KData} {a : Keyspace} (h : Refines g a) {key : Bytes} {ptr : ZSetPtr}
    (hz : ZsetAt g a key (some ptr)) : ∃ z t m, ZsetView g a key ptr z t m := by
  cases hz with
  | missing hmiss =>
    refine ⟨{}, .nil, ∅, rfl, ZInv.empty, fun _ => rfl, by simp [Keyspace.zset, hmiss],
      fun _ _ _ _ _ => ⟨g, rfl, ?_, Ages.refl g⟩⟩
    simpa [Keyspace.setZset, hmiss] using h
  | @entry p m expiry hl =>
    obtain ⟨htype, t, hinv, hscores⟩ := hl.holding
    refine ⟨(g.at p).zset, t, m, ?_, hinv, hscores, by simp [Keyspace.zset, hl.lookup],
      fun z' t' m' hinv' hscores' => ?_⟩
    · dsimp only [zsetLoad]
      rw [Store.load_of hl.entry, ok_bind]
    · dsimp only [zsetStore]
      rw [Store.modify_of hl.entry, ok_bind]
      have hw := h.write hl (e := { g.at p with zset := z' }) hl.key
        ⟨hl.ok.hcode, hl.ok.type, t', hinv'⟩ (v := .zset m') ⟨htype, t', hinv', hscores'⟩
      exact ⟨_, rfl, by simpa [Keyspace.setZset, hl.lookup] using hw.1, hw.2⟩

/-- Storing the set in another layout leaves the keyspace alone. -/
theorem ZsetView.keep {g : KData} {a : Keyspace} {key : Bytes} {ptr : ZSetPtr} {z : ZSet}
    {t : BinaryTree Ptr} {m : Scores} (hv : ZsetView g a key ptr z t m) {hmap : HMap Ptr}
    (hi : ZInv { z with hmap := hmap } t) : ∃ g',
      zsetStore g ptr { z with hmap := hmap } = .ok g' ∧ Refines g' a ∧ Ages g g' := by
  have h := hv.write _ t m hi hv.scores
  rwa [Keyspace.setZset_of_zset hv.zset] at h

theorem ZsetAt.none_zset {g : KData} {a : Keyspace} {key : Bytes} (hz : ZsetAt g a key none) :
    a.zset key = none := by
  cases hz with
  | other ha => simp [Keyspace.zset, ha]

section Handlers

variable {g : KData} {a : Keyspace} {now : UInt64} {out : Buffer}

theorem doZscore_spec (h : Refines g a) (now : UInt64) (cmd key name : Bytes) (out : Buffer) :
    ∃ res, doZscore g [cmd, key, name] out = .ok res ∧
      Answered g a now (.zscore key name) out res := by
  obtain ⟨g1, r, hrun, h1, hages, hz⟩ := expectZset_spec h key
  unfold doZscore
  rw [index_of_getElem? (a := key) rfl, ok_bind, index_of_getElem? (a := name) rfl, ok_bind,
    hrun, ok_bind]
  cases r with
  | none =>
    refine ⟨_, rfl, .of_scalar h1 hages (outErr_eq out _ _) (congrArg Reply.one ?_)⟩
    simp [Keyspace.reply, hz.none_zset]
  | some ptr =>
    obtain ⟨z, t, m, hview⟩ := hz.view h1
    obtain ⟨hmap, r, hlook, hinv, hnamed, hscore⟩ := zsetLookup_scores hview.inv name
    obtain ⟨g2, hstore, h2, hages2⟩ := hview.keep hinv
    rw [hview.scores] at hscore
    dsimp only
    rw [hview.load, ok_bind, hlook, ok_bind]
    dsimp only
    rw [hstore, ok_bind]
    cases r with
    | none =>
      refine ⟨_, rfl, .of_scalar h2 (hages.trans hages2) (outNil_eq out) (congrArg Reply.one ?_)⟩
      simp [Keyspace.reply, hview.zset, hscore]
    | some p =>
      dsimp only
      rw [Store.load_of (hview.inv.node_at hnamed.1), ok_bind]
      refine ⟨_, rfl, .of_scalar h2 (hages.trans hages2) (outDbl_eq out _) (congrArg Reply.one ?_)⟩
      simp [Keyspace.reply, hview.zset, hscore]

theorem doZrem_spec (h : Refines g a) (now : UInt64) (cmd key name : Bytes) (out : Buffer) :
    ∃ res, doZrem g [cmd, key, name] out = .ok res ∧
      Answered g a now (.zrem key name) out res := by
  obtain ⟨g1, r, hrun, h1, hages, hz⟩ := expectZset_spec h key
  unfold doZrem
  rw [index_of_getElem? (a := key) rfl, ok_bind, index_of_getElem? (a := name) rfl, ok_bind,
    hrun, ok_bind]
  cases r with
  | none =>
    have hnone := hz.none_zset
    refine ⟨_, rfl, .of_scalar ?_ hages (outErr_eq out _ _) (congrArg Reply.one ?_)⟩
    · simpa [Keyspace.after, Keyspace.next, hnone] using h1
    · simp [Keyspace.reply, hnone]
  | some ptr =>
    obtain ⟨z, t, m, hview⟩ := hz.view h1
    obtain ⟨hmap, r, hlook, hinv, hnamed, hscore⟩ := zsetLookup_scores hview.inv name
    rw [hview.scores] at hscore
    dsimp only
    rw [hview.load, ok_bind, hlook, ok_bind]
    have hnext : a.after now (.zrem key name) = a.setZset key (m.erase name) := by
      simp [Keyspace.after, Keyspace.next, hview.zset]
    cases r with
    | none =>
      obtain ⟨g2, hstore, h2, hages2⟩ := hview.keep hinv
      have hout : name ∉ m := Finmap.lookup_eq_none.mp hscore
      dsimp only
      rw [hstore, ok_bind]
      refine ⟨_, rfl, .of_scalar ?_ (hages.trans hages2) (outInt_eq out (x := 0) rfl)
        (congrArg Reply.one ?_)⟩
      · rw [hnext, Finmap.erase_of_lookup hscore, Keyspace.setZset_of_zset hview.zset]
        exact h2
      · simp [Keyspace.reply, hview.zset, hout]
    | some p =>
      obtain ⟨z', t', hdel, hinv', hself, hother⟩ := zsetDelete_scores hinv hnamed.1
      have hname : (({ z with hmap := hmap } : ZSet).at p).name = name := hnamed.2
      have hscores' : ∀ n, z'.scoreOf t' n = (m.erase name).lookup n := fun n => by
        by_cases hn : n = name
        · rw [hn, Finmap.lookup_erase, ← hname]
          exact hself
        · rw [Finmap.lookup_erase_ne hn, hother n (hname ▸ hn)]
          exact hview.scores n
      obtain ⟨g2, hstore, h2, hages2⟩ := hview.write z' t' _ hinv' hscores'
      have hin : name ∈ m := Finmap.mem_iff.mpr ⟨_, hscore⟩
      dsimp only
      rw [hdel, ok_bind, hstore, ok_bind]
      refine ⟨_, rfl, .of_scalar ?_ (hages.trans hages2) (outInt_eq out (x := 1) rfl)
        (congrArg Reply.one ?_)⟩
      · rw [hnext]
        exact h2
      · simp [Keyspace.reply, hview.zset, hin]

/-- The end of `do_zadd`: a tuple goes into the set of an entry. -/
theorem zaddEntry_spec (h : Refines g a) {key : Bytes} {p : Ptr} {m : Scores}
    {expiry : Option Nat} (hl : Live g a key p ⟨.zset m, expiry⟩) (name : Bytes) {score : Double}
    (hs : score.isNaN = false) :
    ∃ zset, zsetInsert (g.at p).zset name score = .ok (zset, decide (name ∉ m)) ∧
      Refines { g with entry := g.entry.write p { g.at p with zset := zset } }
        (a.insert key ⟨.zset (m.insert name (keptScore (m.lookup name) score)), expiry⟩) ∧
      Ages g { g with entry := g.entry.write p { g.at p with zset := zset } } := by
  obtain ⟨htype, t, hinv, hscores⟩ := hl.holding
  obtain ⟨z', t', hrun, hinv', hself, hother⟩ := zsetInsert_scores hinv name hs
  have hadded : (m.lookup name).isNone = decide (name ∉ m) := by
    rw [Bool.eq_iff_iff, Option.isNone_iff_eq_none, Finmap.lookup_eq_none, decide_eq_true_eq]
  rw [hscores] at hrun hself
  refine ⟨z', by rw [hrun, hadded], h.write hl (e := { g.at p with zset := z' }) hl.key
    ⟨hl.ok.hcode, hl.ok.type, t', hinv'⟩ (v := .zset _) ⟨htype, t', hinv', fun n => ?_⟩⟩
  by_cases hn : n = name
  · rw [hn, Finmap.lookup_insert]
    exact hself
  · rw [Finmap.lookup_insert_of_ne _ hn]
    exact (hother n hn).trans (hscores n)

theorem str2dbl_isNaN {strtod : Strtod} {s : Bytes} {score : Double}
    (h : str2dbl strtod s = some score) : score.isNaN = false := by
  unfold str2dbl at h
  grind

/-- What the reply to `zadd` says about a new name. -/
theorem zadd_reply {m : Scores} {name : Bytes} :
    Int64.ofInt (if name ∈ m then 0 else 1) = if decide (name ∉ m) = true then 1 else 0 := by
  by_cases hin : name ∈ m <;> simp [hin]

theorem doZadd_spec (strtod : Strtod) (h : Refines g a) (now : UInt64)
    (cmd key scoreArg name : Bytes) (out : Buffer) :
    ∃ res, doZadd strtod g [cmd, key, scoreArg, name] out = .ok res ∧
      Answered g a now (.zadd key (str2dbl strtod scoreArg) name) out res := by
  unfold doZadd
  rw [index_of_getElem? (a := scoreArg) rfl, ok_bind]
  cases hscore : str2dbl strtod scoreArg with
  | none => exact ⟨_, rfl, .of_scalar h (Ages.refl g) (outErr_eq out _ _) rfl⟩
  | some score =>
    have hs := str2dbl_isNaN hscore
    obtain ⟨g1, hrun, h1, hages⟩ := h.lookup key
    dsimp only
    rw [index_of_getElem? (a := key) rfl, ok_bind, index_of_getElem? (a := name) rfl, ok_bind,
      hrun, ok_bind]
    cases hf : g1.find key with
    | none =>
      -- A new entry, with an empty set.
      have hmiss := h1.missing hf
      obtain ⟨g2, hrun2, h2, hages2, hf2⟩ := h1.insert (show ValueType.zset ≠ .init by decide) hf
        [] (v := .zset ∅) ⟨rfl, .nil, ZInv.empty, fun _ => rfl⟩
      obtain ⟨item, hl⟩ := h2.found hf2
      obtain rfl : item = ⟨.zset ∅, none⟩ := by
        have hl' := hl.lookup
        rw [Finmap.lookup_insert] at hl'
        exact (Option.some.inj hl').symm
      obtain ⟨zset, hins, h3, hages3⟩ := zaddEntry_spec h2 hl name hs
      dsimp only
      rw [hrun2, ok_bind, Store.load_of hl.entry, ok_bind, if_neg (by simp [hl.holding.1]), hins,
        ok_bind]
      dsimp only
      rw [Store.modify_of hl.entry, ok_bind]
      refine ⟨_, rfl, .of_scalar ?_ ((hages.trans hages2).trans hages3)
        (outInt_eq out zadd_reply) (congrArg Reply.one ?_)⟩
      · rw [Finmap.insert_insert] at h3
        simpa [Keyspace.after, Keyspace.next, hmiss, keptScore] using h3
      · simp [Keyspace.reply, Keyspace.zset, hmiss]
    | some p =>
      obtain ⟨item, hl⟩ := h1.found hf
      obtain ⟨v, expiry⟩ := item
      dsimp only
      rw [ok_bind, Store.load_of hl.entry, ok_bind]
      cases v with
      | str s =>
        rw [if_pos (by simp [hl.holding.1])]
        refine ⟨_, rfl, .of_scalar ?_ hages (outErr_eq out _ _) (congrArg Reply.one ?_)⟩
        · simpa [Keyspace.after, Keyspace.next, hl.lookup] using h1
        · simp [Keyspace.reply, Keyspace.zset, hl.lookup]
      | zset m =>
        obtain ⟨zset, hins, h3, hages3⟩ := zaddEntry_spec h1 hl name hs
        rw [if_neg (by simp [hl.holding.1]), hins, ok_bind]
        dsimp only
        rw [Store.modify_of hl.entry, ok_bind]
        refine ⟨_, rfl, .of_scalar ?_ (hages.trans hages3) (outInt_eq out zadd_reply)
          (congrArg Reply.one ?_)⟩
        · simpa [Keyspace.after, Keyspace.next, hl.lookup] using h3
        · simp [Keyspace.reply, Keyspace.zset, hl.lookup]

end Handlers

end Greenis
