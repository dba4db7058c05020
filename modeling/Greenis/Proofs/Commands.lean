/-
  The commands act on the keyspace as specified.

  One lemma per handler: on a state that stands for the keyspace `a` it returns, replies as `a`
  would (`Replies`), and leaves a state that stands for the keyspace after the command. The sum of
  a clock reading and a TTL is a 64-bit sum, which `after` has as the code computes it. With a
  clock below 2^63 it is the sum that is meant, and what is left is `next` (`Answered.refines`).
-/
import Greenis.Proofs.Refines

namespace Greenis
open CExec BinaryTree

/-- The keyspace after a command, where the sum of the clock reading and a TTL has 64 bits. -/
def Keyspace.after (a : Keyspace) (now : UInt64) : Command → Keyspace
  | .pexpire key (some ttlMs) =>
    match a.lookup key with
    | none => a
    | some item => a.insert key { item with expiry := (ttlExpiry now ttlMs).map UInt64.toNat }
  | c => a.next now.toNat c

/-- What a handler has done: replied to the command `c`, and left the next state. -/
structure Answered (g : KData) (a : Keyspace) (now : UInt64) (c : Command) (out : Buffer)
    (res : KData × Buffer) : Prop where
  reply : ∃ r : Reply, res.2 = out ++ r.encode ∧ a.Replies now.toNat c r
  ages : Ages g res.1
  after : Refines res.1 (a.after now c)

/-! ## Times in 64 bits -/

/-- Below 2^63, the sum of a clock reading and a TTL does not wrap. -/
theorem ttlExpiry_toNat {now : UInt64} (hclock : now.toNat < 2 ^ 63) (ttlMs : Int64) :
    (ttlExpiry now ttlMs).map UInt64.toNat = Keyspace.deadline now.toNat ttlMs := by
  unfold ttlExpiry Keyspace.deadline
  by_cases hneg : ttlMs < 0
  · rw [if_pos hneg, if_pos hneg]
    rfl
  · have hle : 0 ≤ ttlMs := Int64.not_lt.mp hneg
    have hlt := ttlMs.toNatClampNeg_lt
    rw [if_neg hneg, if_neg hneg, Option.map_some, UInt64.toNat_add,
      Int64.toNat_toUInt64_of_le hle, Int64.toNat_toInt, Nat.mod_eq_of_lt (by omega)]

/-- Only the 64-bit sum needs a bound. -/
theorem Keyspace.after_eq_next (a : Keyspace) {now : UInt64} {c : Command}
    (h : ∀ key ttlMs, c = .pexpire key (some ttlMs) → now.toNat < 2 ^ 63) :
    a.after now c = a.next now.toNat c := by
  cases c with
  | pexpire key ttl =>
    cases ttl with
    | none => rfl
    | some ttlMs =>
      have hsum := ttlExpiry_toNat (h key ttlMs rfl) ttlMs
      cases ha : a.lookup key with
      | none => simp only [after, next, ha]
      | some item => simp only [after, next, ha, hsum]
  | _ => rfl

/-- The difference of two times, as the signed integer of a reply. -/
theorem remaining_eq (val now : UInt64) :
    Int64.ofInt ((val.toNat - now.toNat : Nat) : Int) =
      if val > now then (val - now).toInt64 else 0 := by
  rw [Int64.ofInt_eq_ofNat]
  by_cases hlt : val > now
  · have hle : now ≤ val := UInt64.le_of_lt hlt
    rw [if_pos hlt, ← UInt64.toNat_sub_of_le _ _ hle, ← UInt64.toInt64_ofNat', UInt64.ofNat_toNat]
  · have hle : val.toNat ≤ now.toNat := UInt64.le_iff_toNat_le.mp (UInt64.not_lt.mp hlt)
    rw [if_neg hlt, Nat.sub_eq_zero_of_le hle]
    rfl

section Handlers

variable {g g' : KData} {a : Keyspace} {now : UInt64} {c : Command} {out out' : Buffer}

theorem Answered.inv {res : KData × Buffer} (h : Answered g a now c out res) : KInv res.1 :=
  h.after.inv

theorem Answered.refines {res : KData × Buffer} (h : Answered g a now c out res)
    (hclock : now.toNat < 2 ^ 63) : Refines res.1 (a.next now.toNat c) := by
  rw [← a.after_eq_next fun _ _ _ => hclock]
  exact h.after

theorem Answered.of_refines (h : Refines g' (a.after now c)) (hages : Ages g g') {r : Reply}
    (hout : out' = out ++ r.encode) (hr : a.Replies now.toNat c r) :
    Answered g a now c out (g', out') :=
  ⟨⟨r, hout, hr⟩, hages, h⟩

theorem Answered.of_scalar (h : Refines g' (a.after now c)) (hages : Ages g g') {v : Scalar}
    (hout : out' = out ++ v.encode) (hr : a.Replies now.toNat c (.one v)) :
    Answered g a now c out (g', out') :=
  .of_refines (r := .one v) h hages hout hr

/-- What is to be shown of a handler: it answers if it returns, and returns where the command is
    specified. -/
structure Serves (g : KData) (a : Keyspace) (now : UInt64) (c : Command) (out : Buffer)
    (run : Exec (KData × Buffer)) : Prop where
  answered : ∀ res, run = .ok res → Answered g a now c out res
  returns : a.Specified c → ∃ res, run = .ok res

theorem Serves.of_ok {run : Exec (KData × Buffer)}
    (h : ∃ res, run = .ok res ∧ Answered g a now c out res) : Serves g a now c out run := by
  obtain ⟨res, hrun, hans⟩ := h
  exact ⟨fun res' hres => Except.ok.inj (hrun.symm.trans hres) ▸ hans, fun _ => ⟨res, hrun⟩⟩

theorem doGet_spec (h : Refines g a) (now : UInt64) (cmd key : Bytes) (out : Buffer) :
    ∃ res, doGet g [cmd, key] out = .ok res ∧ Answered g a now (.get key) out res := by
  obtain ⟨g1, hrun, h1, hages⟩ := h.lookup key
  unfold doGet
  rw [index_of_getElem? (a := key) rfl, ok_bind, hrun, ok_bind]
  cases hf : g1.find key with
  | none =>
    refine ⟨_, rfl, .of_scalar h1 hages (outNil_eq out) (congrArg Reply.one ?_)⟩
    simp [Keyspace.reply, h1.missing hf]
  | some p =>
    obtain ⟨item, hl⟩ := h1.found hf
    obtain ⟨v, expiry⟩ := item
    have hv := hl.holding
    dsimp only
    rw [Store.load_of hl.entry, ok_bind]
    cases v with
    | str s =>
      rw [if_neg (by rw [hv.1]; decide), hv.2]
      refine ⟨_, rfl, .of_scalar h1 hages (outStr_eq out _) (congrArg Reply.one ?_)⟩
      simp [Keyspace.reply, hl.lookup]
    | zset m =>
      rw [if_pos (by rw [hv.1]; decide)]
      refine ⟨_, rfl, .of_scalar h1 hages (outErr_eq out _ _) (congrArg Reply.one ?_)⟩
      simp [Keyspace.reply, hl.lookup]

theorem doSet_spec (h : Refines g a) (now : UInt64) (cmd key value : Bytes) (out : Buffer) :
    ∃ res, doSet g [cmd, key, value] out = .ok res ∧
      Answered g a now (.set key value) out res := by
  obtain ⟨g1, hrun, h1, hages⟩ := h.lookup key
  unfold doSet
  rw [index_of_getElem? (a := key) rfl, ok_bind, index_of_getElem? (a := value) rfl, ok_bind,
    hrun, ok_bind]
  cases hf : g1.find key with
  | none =>
    obtain ⟨g2, hrun2, h2, hages2, -⟩ :=
      h1.insert (show ValueType.str ≠ .init by decide) hf value (v := .str value) ⟨rfl, rfl⟩
    dsimp only
    rw [hrun2, ok_bind]
    refine ⟨_, rfl, .of_scalar ?_ (hages.trans hages2) (outNil_eq out) (congrArg Reply.one ?_)⟩
    · simpa [Keyspace.after, Keyspace.next, h1.missing hf] using h2
    · simp [Keyspace.reply, h1.missing hf]
  | some p =>
    obtain ⟨item, hl⟩ := h1.found hf
    obtain ⟨v, expiry⟩ := item
    have hv := hl.holding
    dsimp only
    rw [Store.load_of hl.entry, ok_bind]
    cases v with
    | str s =>
      rw [if_neg (by rw [hv.1]; decide), Store.modify_of hl.entry, ok_bind]
      obtain ⟨h2, hages2⟩ := h1.write hl (e := { g1.at p with str := value }) hl.key
        ⟨hl.ok.hcode, hl.ok.type, hl.ok.zset⟩ (v := .str value) ⟨hv.1, rfl⟩
      refine ⟨_, rfl, .of_scalar ?_ (hages.trans hages2) (outNil_eq out) (congrArg Reply.one ?_)⟩
      · simpa [Keyspace.after, Keyspace.next, hl.lookup] using h2
      · simp [Keyspace.reply, hl.lookup]
    | zset m =>
      rw [if_pos (by rw [hv.1]; decide)]
      refine ⟨_, rfl, .of_scalar ?_ hages (outErr_eq out _ _) (congrArg Reply.one ?_)⟩
      · simpa [Keyspace.after, Keyspace.next, hl.lookup] using h1
      · simp [Keyspace.reply, hl.lookup]

theorem doDel_spec (h : Refines g a) (now : UInt64) (cmd key : Bytes) (out : Buffer) :
    ∃ res, doDel g [cmd, key] out = .ok res ∧ Answered g a now (.del key) out res := by
  obtain ⟨db, r, hrun, hinv, hans, hrem⟩ :=
    hmDelete_spec h.inv.db.inv (h.inv.db.decides key (strHash key))
  have hf := h.inv.db.find_of_answer hans
  unfold doDel
  rw [index_of_getElem? (a := key) rfl, ok_bind, hrun, ok_bind]
  cases r with
  | none =>
    have hmiss := h.missing hf.symm
    have hout : key ∉ a := Finmap.lookup_eq_none.mp hmiss
    obtain ⟨h1, hages⟩ := h.relayout hinv hrem
    have hsame : a.erase key = a := Finmap.erase_of_lookup hmiss
    refine ⟨_, rfl, .of_scalar ?_ hages (outInt_eq out (x := 0) rfl) (congrArg Reply.one ?_)⟩
    · rw [Keyspace.after, Keyspace.next, hsame]
      · exact h1
      · simp
    · simp [Keyspace.reply, hout]
  | some n =>
    obtain ⟨g', hrun', h', hages, -⟩ := h.destroy hinv hrem
    rw [hans.2.2] at h'
    obtain ⟨item, hl⟩ := h.found hf.symm
    have hin : key ∈ a := Finmap.mem_iff.mpr ⟨item, hl.lookup⟩
    dsimp only
    rw [hrun', ok_bind]
    refine ⟨_, rfl, .of_scalar h' hages (outInt_eq out (x := 1) rfl) (congrArg Reply.one ?_)⟩
    simp [Keyspace.reply, hin]

/-- The walk of `keys` replies every linked key. -/
theorem foldl_outStr (f : HNode Ptr → Bytes) (ns : List (HNode Ptr)) (out : Buffer) :
    ns.foldl (fun out n => outStr out (f n)) out =
      out ++ encodeAll (ns.map fun n => .str (f n)) := by
  induction ns generalizing out with
  | nil => simp [encodeAll]
  | cons n ns ih =>
    rw [List.foldl_cons, ih, outStr_eq, List.map_cons, List.append_assoc]
    rfl

theorem doKeys_spec (h : Refines g a) (now : UInt64) (cmd : Bytes) (out : Buffer) :
    ∃ res, doKeys g [cmd] out = .ok res ∧ Answered g a now .keys out res := by
  have hvisit : ∀ n ∈ g.db.nodes, ∀ s : Buffer,
      cbKeys g n s = .ok (true, outStr s (g.at n.owner).key) := fun n hn s => by
    unfold cbKeys
    rw [Store.load_of (h.inv.db.node n hn).1, ok_bind]
  have hsize : hmSize g.db = (g.db.nodes.map fun n => Scalar.str (g.at n.owner).key).length := by
    rw [hmSize_eq h.inv.db.inv, List.length_map]
  unfold doKeys
  dsimp only
  rw [hmForeach_eq h.inv.db.inv, chainForeach_visits hvisit, ok_bind, ok_bind, foldl_outStr,
    outArr_eq, hsize, List.append_assoc]
  refine ⟨_, rfl, .of_refines h (Ages.refl g)
    (r := .arr (g.db.nodes.map fun n => .str (g.at n.owner).key)) rfl
    ⟨g.linked.map fun p => (g.at p).key, ?_, fun k => ?_, ?_⟩⟩
  · exact (List.nodup_map_iff_inj_on h.inv.db.nodup).mpr h.inv.db.keys
  · rw [h.mem_iff, List.mem_map]
  · simp [KData.linked, Function.comp_def]

theorem doExpire_spec (h : Refines g a) (now : UInt64) (cmd key ttlArg : Bytes) (out : Buffer) :
    ∃ res, doExpire g now [cmd, key, ttlArg] out = .ok res ∧
      Answered g a now (.pexpire key (str2int ttlArg)) out res := by
  unfold doExpire
  rw [index_of_getElem? (a := ttlArg) rfl, ok_bind]
  cases str2int ttlArg with
  | none => exact ⟨_, rfl, .of_scalar h (Ages.refl g) (outErr_eq out _ _) rfl⟩
  | some ttlMs =>
    obtain ⟨g1, hrun, h1, hages⟩ := h.lookup key
    dsimp only
    rw [index_of_getElem? (a := key) rfl, ok_bind, hrun, ok_bind]
    cases hf : g1.find key with
    | none =>
      have hmiss := h1.missing hf
      have hout : key ∉ a := Finmap.lookup_eq_none.mp hmiss
      refine ⟨_, rfl, .of_scalar ?_ hages (outInt_eq out (x := 0) rfl) (congrArg Reply.one ?_)⟩
      · simpa [Keyspace.after, Keyspace.next, hmiss] using h1
      · simp [Keyspace.reply, hout]
    | some p =>
      obtain ⟨item, hl⟩ := h1.found hf
      have hin : key ∈ a := Finmap.mem_iff.mpr ⟨item, hl.lookup⟩
      obtain ⟨g2, hrun2, hinv2, hages2, hfind, hat, hexp, hother⟩ :=
        h1.inv.setTtl hl.mem now ttlMs
      dsimp only
      rw [hrun2, ok_bind]
      refine ⟨_, rfl, .of_scalar ?_ (hages.trans hages2) (outInt_eq out (x := 1) rfl)
        (congrArg Reply.one ?_)⟩
      · simp only [Keyspace.after, hl.lookup]
        refine h1.update hinv2 _ (fun k _ => hfind k) (fun k hk => Finmap.lookup_insert_of_ne _ hk)
          (fun q hq hqk => ⟨hat q, hother q hq fun he => hqk (he ▸ hl.key)⟩) ?_
        rw [hfind, hf, Finmap.lookup_insert]
        exact ⟨by rw [hat]; exact hl.holding, by rw [hexp]⟩
      · simp [Keyspace.reply, hin]

theorem doTtl_spec (h : Refines g a) (now : UInt64) (cmd key : Bytes) (out : Buffer) :
    ∃ res, doTtl g now [cmd, key] out = .ok res ∧ Answered g a now (.pttl key) out res := by
  obtain ⟨g1, hrun, h1, hages⟩ := h.lookup key
  unfold doTtl
  rw [index_of_getElem? (a := key) rfl, ok_bind, hrun, ok_bind]
  cases hf : g1.find key with
  | none =>
    refine ⟨_, rfl, .of_scalar h1 hages (outInt_eq out (x := -2) rfl) (congrArg Reply.one ?_)⟩
    simp [Keyspace.reply, h1.missing hf]
  | some p =>
    obtain ⟨item, hl⟩ := h1.found hf
    obtain ⟨v, expiry⟩ := item
    have hexp : (expiryOf g1.heap p).map UInt64.toNat = expiry := hl.expiry
    dsimp only
    rw [Store.load_of hl.entry, ok_bind]
    cases hi : g1.heap.idx p with
    | none =>
      have hnone : expiry = none := by rw [← hexp, expiryOf, hi]; rfl
      refine ⟨_, rfl, .of_scalar h1 hages (outInt_eq out (x := -1) rfl) (congrArg Reply.one ?_)⟩
      simp [Keyspace.reply, hl.lookup, hnone]
    | some i =>
      obtain ⟨t, ht, rfl⟩ := mem_refs_of_idx h1.inv.ttl hl.mem hi
      have hsome : expiry = some t.val.toNat := by
        rw [← hexp, expiryOf, hi]
        simp [ht]
      dsimp only
      rw [index_of_getElem? ht, ok_bind]
      refine ⟨_, rfl, .of_scalar h1 hages (outInt_eq out (remaining_eq t.val now))
        (congrArg Reply.one ?_)⟩
      simp [Keyspace.reply, hl.lookup, hsome]

end Handlers

end Greenis
