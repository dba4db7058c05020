/-
  What is stored can be read back.

  The framing of a request takes more bytes than the framing of a reply: what a request of at most
  `kMaxMsg` bytes can store is at most `maxStored` bytes long, and one string or tuple of that
  length fits in a reply. `Fits` is the invariant of the runs.
-/
import Greenis.Proofs.RequestCodec
import Greenis.Proofs.TtlPass

namespace Greenis
open CExec LTS LittleEndian

/-- The length of what a request can store: the body of a `set` also has four lengths and the name
    of the command. -/
def maxStored : Nat := kMaxMsg - 19

/-- The strings of a value have at most `n` bytes. -/
def Value.Fits (n : Nat) : Value → Prop
  | .str s => s.length ≤ n
  | .zset m => ∀ name ∈ m, name.length ≤ n

def Keyspace.Fits (n : Nat) (a : Keyspace) : Prop :=
  ∀ key item, a.lookup key = some item → item.value.Fits n

/-- What the command may store has at most `n` bytes. -/
def Command.Fits (n : Nat) : Command → Prop
  | .set _ value => value.length ≤ n
  | .zadd _ _ name => name.length ≤ n
  | _ => True

/-! ## The invariant -/

namespace Keyspace

variable {n : Nat} {a : Keyspace}

theorem Fits.empty : Fits n ∅ := by
  intro key item hitem
  rw [Finmap.lookup_empty] at hitem
  cases hitem

theorem Fits.insert (h : a.Fits n) (key : Bytes) {item : Item} (hitem : item.value.Fits n) :
    Fits n (a.insert key item) := by
  intro k i hi
  by_cases hk : k = key
  · rw [hk, Finmap.lookup_insert] at hi
    cases hi
    exact hitem
  · rw [Finmap.lookup_insert_of_ne _ hk] at hi
    exact h k i hi

theorem Fits.erase (h : a.Fits n) (key : Bytes) : Fits n (a.erase key) := by
  intro k i hi
  by_cases hk : k = key
  · rw [hk, Finmap.lookup_erase] at hi
    cases hi
  · rw [Finmap.lookup_erase_ne hk] at hi
    exact h k i hi

/-- A set of the keyspace, of which the empty one may be missing. -/
theorem Fits.zset (h : a.Fits n) {key : Bytes} {m : Scores} (hm : a.zset key = some m) :
    ∀ name ∈ m, name.length ≤ n := by
  unfold Keyspace.zset at hm
  cases ha : a.lookup key with
  | none =>
    rw [ha] at hm
    cases hm
    intro name hname
    exact absurd hname Finmap.notMem_empty
  | some item =>
    obtain ⟨v, expiry⟩ := item
    rw [ha] at hm
    cases v with
    | str s => cases hm
    | zset m' =>
      cases hm
      exact h key _ ha

theorem Fits.setZset (h : a.Fits n) (key : Bytes) {m : Scores} (hm : ∀ name ∈ m, name.length ≤ n) :
    (a.setZset key m).Fits n := by
  unfold Keyspace.setZset
  cases a.lookup key with
  | none => exact h
  | some item => exact h.insert key hm

/-- Every command keeps the bound. -/
theorem Fits.after (h : a.Fits n) (now : UInt64) {c : Command} (hc : c.Fits n) :
    (a.after now c).Fits n := by
  cases c with
  | get | pttl | keys | zscore | zquery | unknown => exact h
  | set key value =>
    dsimp only [Keyspace.after, next]
    cases a.lookup key with
    | none => exact h.insert key hc
    | some item =>
      obtain ⟨v, expiry⟩ := item
      cases v with
      | str s => exact h.insert key hc
      | zset m => exact h
  | del key => exact h.erase key
  | pexpire key ttl =>
    cases ttl with
    | none => exact h
    | some ttlMs =>
      dsimp only [Keyspace.after]
      cases ha : a.lookup key with
      | none => exact h
      | some item => exact h.insert key (h key item ha)
  | zadd key score name =>
    have hadd : ∀ m : Scores, (∀ k ∈ m, k.length ≤ n) → ∀ s, ∀ k ∈ m.insert name s,
        k.length ≤ n := fun m hm s k hk => by
      rcases Finmap.mem_insert.mp hk with rfl | hk
      · exact hc
      · exact hm k hk
    cases score with
    | none => exact h
    | some score =>
      dsimp only [Keyspace.after, next]
      cases ha : a.lookup key with
      | none => exact h.insert key (hadd ∅ (fun k hk => absurd hk Finmap.notMem_empty) score)
      | some item =>
        obtain ⟨v, expiry⟩ := item
        cases v with
        | str s => exact h
        | zset m => exact h.insert key (hadd m (h key _ ha) _)
  | zrem key name =>
    dsimp only [Keyspace.after, next]
    cases hz : a.zset key with
    | none => exact h
    | some m =>
      apply h.setZset key
      intro k hk
      exact h.zset hz k (Finmap.mem_erase.mp hk).2

theorem Fits.pass (h : a.Fits n) {now k : Nat} {a' : Keyspace} (hpass : Pass now k a a') :
    a'.Fits n := by
  intro key item hitem
  apply h key item
  rw [← hpass.kept key (Finmap.mem_of_lookup_eq_some hitem)]
  exact hitem

end Keyspace

/-! ## Requests -/

/-- A request that `try_one_request` accepts: `parse_req` reads the command from a body that is not
    too long. -/
def KEvent.Accepted : KEvent → Prop
  | .request _ cmd _ => ∃ body : Bytes, body.length ≤ kMaxMsg ∧ parseReq body = .ok (some cmd)
  | _ => True

/-- A request of at most `kMaxMsg` bytes stores no more than `maxStored` bytes at once. -/
theorem fits_of_accepted (strtod : Strtod) {body : Bytes} {cmd : List Bytes}
    (hlen : body.length ≤ kMaxMsg) (hreq : IsRequest body cmd) :
    (Command.of strtod cmd).Fits maxStored := by
  have htotal : 4 + (cmd.map fun s => 4 + s.length).sum ≤ kMaxMsg := by
    rw [← length_encodeCmd, ← hreq.bytes]
    exact hlen
  unfold Command.of
  split
  case h_3 name key x =>
    split_ifs with hset
    · have hname : name.length = 3 := by rw [hset]; rfl
      simp only [List.map_cons, List.map_nil, List.sum_cons, List.sum_nil, hname, kMaxMsg] at htotal
      simp only [Command.Fits, maxStored, kMaxMsg]
      omega
    all_goals trivial
  case h_4 name key score member =>
    split_ifs with hzadd
    · have hname : name.length = 4 := by rw [hzadd]; rfl
      simp only [List.map_cons, List.map_nil, List.sum_cons, List.sum_nil, hname, kMaxMsg] at htotal
      simp only [Command.Fits, maxStored, kMaxMsg]
      omega
    · trivial
  all_goals (try split_ifs) <;> trivial

variable {strtod : Strtod}

/-- A step keeps the bound. -/
theorem KStep.fits {s s' : KState} {l : KEvent} (hstep : KStep strtod s l s') (hl : l.Accepted)
    (h : ∃ a, Refines s.data a ∧ a.Fits maxStored) :
    ∃ a, Refines s'.data a ∧ a.Fits maxStored := by
  obtain ⟨a, ha, hfits⟩ := h
  cases hstep with
  | request _ hrun =>
    obtain ⟨body, hlen, hparse⟩ := hl
    have hans := (doRequest_spec strtod ha _ _ _).answered _ hrun
    exact ⟨_, hans.after, hfits.after _ (fits_of_accepted strtod hlen (parseReq_iff.mp hparse))⟩
  | timers _ hrun =>
    obtain ⟨g', a', hrun', ha', -, hexp⟩ := processTtl_spec ha _
    cases hrun.symm.trans hrun'
    exact ⟨a', ha', hfits.pass hexp.exact⟩
  | work hrun =>
    obtain ⟨g', hrun', ha', -⟩ := poolWork_refines ha
    cases hrun.symm.trans hrun'
    exact ⟨a, ha', hfits⟩

theorem run_fits {ls : List KEvent} {s : KState} (hrun : Run (KStep strtod) {} ls s)
    (hacc : ∀ l ∈ ls, l.Accepted) : ∃ a, Refines s.data a ∧ a.Fits maxStored :=
  hrun.invariant (I := fun s => ∃ a, Refines s.data a ∧ a.Fits maxStored)
    (fun _ _ _ hi hl hstep => hstep.fits hl hi) ⟨∅, Refines.empty, Keyspace.Fits.empty⟩ hacc

/-! ## Replies -/

theorem length_encode_str (s : Bytes) : (Scalar.str s).encode.length = 5 + s.length := by
  simp [Scalar.encode]
  omega

theorem length_encode_dbl (val : Double) : (Scalar.dbl val).encode.length = 9 := by
  simp [Scalar.encode]

theorem length_encode_err (code : ErrorCode) (msg : Bytes) :
    (Scalar.err code msg).encode.length = 9 + msg.length := by
  simp [Scalar.encode]
  omega

section Reads

variable {a : Keyspace}

theorem length_reply_get (h : a.Fits maxStored) (now : Nat) (key : Bytes) :
    (a.reply now (.get key)).encode.length ≤ kMaxMsg := by
  dsimp only [Keyspace.reply]
  cases ha : a.lookup key with
  | none => decide
  | some item =>
    obtain ⟨v, expiry⟩ := item
    cases v with
    | str s =>
      have hs : s.length ≤ maxStored := h key _ ha
      dsimp only
      rw [length_encode_str]
      unfold maxStored at hs
      unfold kMaxMsg at hs ⊢
      omega
    | zset m => exact (length_encode_err _ _).trans_le (by decide)

theorem length_reply_zscore (a : Keyspace) (now : Nat) (key name : Bytes) :
    (a.reply now (.zscore key name)).encode.length ≤ kMaxMsg := by
  dsimp only [Keyspace.reply]
  cases a.zset key with
  | none => exact (length_encode_err _ _).trans_le (by decide)
  | some m =>
    dsimp only
    cases m.lookup name with
    | none => decide
    | some score => exact (length_encode_dbl score).trans_le (by decide)

theorem ZInv.mem_tuples {z : ZSet} {t : BinaryTree Ptr} (h : ZInv z t) {u : Tuple}
    (hu : z.HasTuple u) : u ∈ z.tuples t := by
  obtain ⟨p, zn, hp, rfl⟩ := hu
  have hmem := h.alloc p fun hnone => by rw [hnone] at hp; cases hp
  rw [ZSet.tuples, List.mem_map]
  exact ⟨p, hmem, by rw [ZSet.at_of hp]⟩

/-- An array of at most one tuple. -/
theorem length_encode_tuples (ts : List Tuple) (hlen : ts.length ≤ 1)
    (hts : ∀ t ∈ ts, t.1.length ≤ maxStored) :
    (Reply.arr (ts.flatMap Keyspace.ofTuple)).encode.length ≤ kMaxMsg := by
  match ts with
  | [] => decide
  | [t] =>
    have ht := hts t (List.mem_singleton_self t)
    simp only [List.flatMap_cons, List.flatMap_nil, List.append_nil, Reply.encode, encodeAll,
      Keyspace.ofTuple, List.length_cons, List.length_append, length_bytesOf, length_encode_str,
      length_encode_dbl, List.length_nil]
    unfold maxStored at ht
    unfold kMaxMsg at ht ⊢
    omega
  | _ :: _ :: _ => simp at hlen

/-- A query for at most one tuple, on a set of any size. -/
theorem length_zquery {g g' : KData} {strtod : Strtod} {scoreArg offsetArg limitArg : Bytes}
    {limit : Int64} {out body : Buffer} (ha : Refines g a) (h : a.Fits maxStored)
    (cmd key name : Bytes) (hlimit : str2int limitArg = some limit) (hone : limit = 1 ∨ limit = 2)
    (hres : doZquery strtod g [cmd, key, scoreArg, name, offsetArg, limitArg] out =
      .ok (g', out ++ body)) : body.length ≤ kMaxMsg := by
  have hspec : Serves g a 0 (.zquery key (str2dbl strtod scoreArg) name (str2int offsetArg)
      (str2int limitArg)) out
      (doZquery strtod g [cmd, key, scoreArg, name, offsetArg, limitArg] out) := doZquery_spec ha 0
  obtain ⟨r, hout, hr⟩ := (hspec.answered _ hres).reply
  obtain rfl := List.append_cancel_left hout
  cases hscore : str2dbl strtod scoreArg with
  | none =>
    rw [hscore] at hr
    obtain rfl : r = .one (.err .badArg (ascii "expect fp number")) := hr
    decide
  | some score =>
    cases hoffset : str2int offsetArg with
    | none =>
      rw [hscore, hoffset] at hr
      obtain rfl : r = .one (.err .badArg (ascii "expect int")) := hr
      decide
    | some offset =>
      obtain ⟨g1, -, -, ⟨-, hrun⟩ | ⟨z, t, m, hz, hlist, hm, hrun⟩⟩ :=
        doZquery_eq cmd key name out ha hscore hoffset hlimit
      · rw [hrun, outErr_eq] at hres
        rw [← List.append_cancel_left (Prod.mk.inj (Except.ok.inj hres)).2]
        exact (length_encode_err _ _).trans_le (by decide)
      · have hle : ¬ limit ≤ 0 := by rcases hone with rfl | rfl <;> decide
        rw [hrun, if_neg hle] at hres
        obtain ⟨out', hwin, hres⟩ := bind_eq_ok.mp hres
        obtain ⟨ts, rfl, hts, hlen⟩ := zqueryWindow_array hwin
        have hbody := List.append_cancel_left (Prod.mk.inj (Except.ok.inj hres)).2
        have hlen1 : ts.length ≤ 1 := hlen.trans (by rcases hone with rfl | rfl <;> decide)
        rw [← hbody]
        refine length_encode_tuples ts hlen1 fun u hu => ?_
        apply h.zset hm
        exact hlist.names.2 u.1 |>.mp (List.mem_map_of_mem (hz.mem_tuples (hts u hu)))

end Reads

/-- **What is stored can be read back**: in every state that requests of at most `kMaxMsg` bytes
    lead to, the replies to `get`, `zscore` and `zquery` with limit 1 or 2 are short enough. -/
theorem stored_readable {ls : List KEvent} {s : KState} (hrun : Run (KStep strtod) {} ls s)
    (hacc : ∀ l ∈ ls, l.Accepted) (now : UInt64) (out body : Buffer) (g : KData) :
    (∀ key, doRequest strtod s.data now [ascii "get", key] out = .ok (g, out ++ body) →
      body.length ≤ kMaxMsg) ∧
    (∀ key name, doRequest strtod s.data now [ascii "zscore", key, name] out =
      .ok (g, out ++ body) → body.length ≤ kMaxMsg) ∧
    ∀ key score name offset limit, str2int limit = some 1 ∨ str2int limit = some 2 →
      doRequest strtod s.data now [ascii "zquery", key, score, name, offset, limit] out =
        .ok (g, out ++ body) → body.length ≤ kMaxMsg := by
  obtain ⟨a, ha, hfits⟩ := run_fits hrun hacc
  refine ⟨fun key hres => ?_, fun key name hres => ?_,
    fun key scoreArg name offsetArg limitArg hlim hres => ?_⟩
  · obtain ⟨r, hout, hr⟩ := ((doRequest_spec strtod ha now _ out).answered _ hres).reply
    obtain rfl := List.append_cancel_left hout
    obtain rfl : r = .one (a.reply now.toNat (.get key)) := hr
    exact length_reply_get hfits _ key
  · obtain ⟨r, hout, hr⟩ := ((doRequest_spec strtod ha now _ out).answered _ hres).reply
    obtain rfl := List.append_cancel_left hout
    obtain rfl : r = .one (a.reply now.toNat (.zscore key name)) := hr
    exact length_reply_zscore a _ key name
  · obtain ⟨limit, hlimit, hone⟩ : ∃ limit, str2int limitArg = some limit ∧
        (limit = 1 ∨ limit = 2) := by
      rcases hlim with h | h
      · exact ⟨1, h, Or.inl rfl⟩
      · exact ⟨2, h, Or.inr rfl⟩
    exact length_zquery ha hfits _ key name hlimit hone hres

/-- A string that has been set is read back. -/
theorem stored_readable_set : ∃ (g g' : KData) (body : Bytes),
    doRequest (fun _ => (⟨0⟩, 0)) g 0 [ascii "get", [107]] [] = .ok (g', [] ++ body) ∧
      body = (Scalar.str [118]).encode ∧ body.length ≤ kMaxMsg := by
  set strtod : Strtod := fun _ => (⟨0⟩, 0)
  have hserves := doRequest_spec strtod Refines.empty 0 [ascii "set", [107], [118]] []
  obtain ⟨⟨g, out⟩, hset⟩ := hserves.returns trivial
  have hans := hserves.answered _ hset
  have hrun := (Run.refl ({} : KState)).snoc (KStep.request (UInt64.le_refl 0) hset)
  have hacc : ∀ l ∈ ([] ++ [KEvent.request 0 [ascii "set", [107], [118]] out]), l.Accepted := by
    intro l hl
    obtain rfl := List.mem_singleton.mp hl
    exact ⟨encodeCmd [ascii "set", [107], [118]], by decide,
      parseReq_iff.mpr ⟨rfl, by decide, by decide⟩⟩
  have hserves' := doRequest_spec strtod hans.after 0 [ascii "get", [107]] []
  obtain ⟨⟨g', out'⟩, hget⟩ := hserves'.returns trivial
  obtain ⟨r, rfl, hr⟩ := (hserves'.answered _ hget).reply
  obtain rfl : r = .one (.str [118]) := hr
  exact ⟨g, g', _, hget, rfl, (stored_readable hrun hacc 0 [] _ g').1 [107] hget⟩

end Greenis
