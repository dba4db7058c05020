/-
  `zquery` replies the window of the listing it is asked for.

  The walk of the tree goes by subtree counts of 32 bits, so that the window is specified on sets
  of less than 2^32 tuples. On every set, what the handler appends if it returns is an array.
-/
import Greenis.Proofs.ZCommands

namespace Greenis
open CExec BinaryTree LittleEndian

/-! ## The listing of a set -/

/-- The tuples of a set, in the order of the tree. -/
def ZSet.tuples (z : ZSet) (t : BinaryTree Ptr) : List Tuple :=
  t.inorder.map fun p => ((z.at p).name, (z.at p).score)

@[simp] theorem length_tuples (z : ZSet) (t : BinaryTree Ptr) :
    (z.tuples t).length = t.numNodes := by
  rw [ZSet.tuples, List.length_map, length_inorder]

theorem ZInv.listing {z : ZSet} {t : BinaryTree Ptr} {m : Scores} (h : ZInv z t)
    (hs : ∀ name, z.scoreOf t name = m.lookup name) : Listing m (z.tuples t) := by
  refine ⟨List.pairwise_map.mpr h.sorted, fun name score => ?_⟩
  rw [← hs, h.scoreOf_eq_some, ZSet.tuples, List.mem_map]
  simp only [Prod.mk.injEq]

theorem Listing.nodup {m : Scores} {ts : List Tuple} (h : Listing m ts) : ts.Nodup :=
  h.sorted.imp fun {t u} hlt (he : t = u) => lt_irrefl u.key (he ▸ hlt)

theorem Listing.unique {m : Scores} {ts us : List Tuple} (ht : Listing m ts)
    (hu : Listing m us) : ts = us := by
  have hperm : ts.Perm us := (List.perm_ext_iff_of_nodup ht.nodup hu.nodup).mpr fun t => by
    rw [ht.mem t.1 t.2, hu.mem t.1 t.2]
  exact hperm.eq_of_pairwise (fun t u _ _ htu hut => absurd htu hut.asymm) ht.sorted hu.sorted

/-- Each name of the set is listed once. -/
theorem Listing.names {m : Scores} {ts : List Tuple} (h : Listing m ts) :
    (ts.map Prod.fst).Nodup ∧ ∀ name, name ∈ ts.map Prod.fst ↔ name ∈ m := by
  refine ⟨(List.nodup_map_iff_inj_on h.nodup).mpr fun t ht u hu he => ?_, fun name => ?_⟩
  · have ht' := (h.mem t.1 t.2).mp ht
    rw [he, (h.mem u.1 u.2).mp hu] at ht'
    exact Prod.ext he (Option.some.inj ht').symm
  · rw [Finmap.mem_iff, List.mem_map]
    constructor
    · rintro ⟨t, ht, rfl⟩
      exact ⟨t.2, (h.mem t.1 t.2).mp ht⟩
    · rintro ⟨score, hs⟩
      exact ⟨(name, score), (h.mem name score).mpr hs, rfl⟩

/-- A set that a state holds has a listing. -/
theorem Refines.listing {g : KData} {a : Keyspace} (h : Refines g a) {key : Bytes} {m : Scores}
    (hm : a.zset key = some m) : ∃ ts, Listing m ts := by
  obtain ⟨g1, r, -, h1, -, hz⟩ := expectZset_spec h key
  cases r with
  | none =>
    rw [hz.none_zset] at hm
    cases hm
  | some ptr =>
    obtain ⟨z, t, m', hview⟩ := hz.view h1
    obtain rfl : m = m' := Option.some.inj (hm.symm.trans hview.zset)
    exact ⟨_, hview.inv.listing hview.scores⟩

theorem rank_eq_seekRank (z : ZSet) (t : BinaryTree Ptr) (score : Double) (name : Bytes) :
    z.rank t score name = seekRank (z.tuples t) score name := by
  rw [seekRank, ZSet.tuples, List.countP_map]
  rfl

/-! ## The output loop -/

open Keyspace (ofTuple)

theorem zqueryLoop_spec {z : ZSet} {t : BinaryTree Ptr} (hi : Indexed z t)
    (hN : t.numNodes < 2 ^ 32) (limit : Int) : ∀ (fuel i : Nat) (n : Int) (out : Buffer),
    0 ≤ n → n ≤ 2 * i → limit - n < fuel → 1 ≤ fuel →
    ∃ ts : List Tuple, ts = ((z.tuples t).drop i).take ((limit - n + 1) / 2).toNat ∧
      zqueryLoop z limit fuel t.inorder[i]? n out =
        .ok (n + 2 * ts.length, out ++ encodeAll (ts.flatMap ofTuple)) := by
  intro fuel
  induction fuel with
  | zero => intro i n out _ _ _ hfuel; omega
  | succ fuel ih =>
    intro i n out hn hni hlim _
    refine ⟨_, rfl, ?_⟩
    by_cases hlt : i < t.numNodes
    · have hlt' : i < t.inorder.length := by rwa [length_inorder]
      set p := t.inorder[i] with hp
      have hx : t.inorder[i]? = some p := List.getElem?_eq_getElem hlt'
      have hmem : p ∈ t.inorder := List.getElem_mem hlt'
      have hdrop : (z.tuples t).drop i =
          ((z.at p).name, (z.at p).score) :: (z.tuples t).drop (i + 1) := by
        rw [ZSet.tuples, List.drop_eq_getElem_cons (by rwa [List.length_map]), List.getElem_map]
      rw [hx]
      by_cases hlim' : n < limit
      · -- One more tuple, and the rest by induction.
        have hnext : znodeOffset z (some p) 1 = .ok t.inorder[i + 1]? := by
          rw [← hx, znodeOffset_spec hi hN, if_pos ⟨hlt, by omega⟩]
          norm_cast
        have hi64 : i64 (n + 2) = .ok (n + 2) := if_pos (by omega)
        have htake : ((limit - n + 1) / 2).toNat = ((limit - (n + 2) + 1) / 2).toNat + 1 := by
          omega
        obtain ⟨ts, hts, hloop⟩ := ih (i + 1) (n + 2)
          (outDbl (outStr out (z.at p).name) (z.at p).score) (by omega) (by omega) (by omega)
          (by omega)
        rw [zqueryLoop, if_pos hlim', Store.load_of (hi.node_at hmem), ok_bind]
        dsimp only
        rw [hnext, ok_bind, hi64, ok_bind, hloop, hdrop, htake, List.take_succ_cons, ← hts,
          outDbl_eq, outStr_eq]
        simp only [List.length_cons, List.flatMap_cons, ofTuple, encodeAll_append]
        simp [encodeAll]
        omega
      · have hzero : ((limit - n + 1) / 2).toNat = 0 := by omega
        rw [zqueryLoop, if_neg hlim', hzero]
        simp [encodeAll]
    · have hnone : t.inorder[i]? = none := List.getElem?_eq_none (by rw [length_inorder]; omega)
      rw [hnone, List.drop_eq_nil_of_le (by rw [length_tuples]; omega)]
      simp [zqueryLoop, encodeAll]

/-- The tuple of a node. -/
def ZSet.HasTuple (z : ZSet) (t : Tuple) : Prop :=
  ∃ p zn, z.node p = some zn ∧ t = (zn.name, zn.score)

/-- On every set, the loop appends tuples within the limit, and counts two values for each. -/
theorem zqueryLoop_array {z : ZSet} {limit : Int} : ∀ {fuel : Nat} {node : Option Ptr} {n n' : Int}
    {out out' : Buffer}, zqueryLoop z limit fuel node n out = .ok (n', out') →
    ∃ ts : List Tuple, out' = out ++ encodeAll (ts.flatMap ofTuple) ∧ n' = n + 2 * ts.length ∧
      (∀ t ∈ ts, z.HasTuple t) ∧ ts.length ≤ ((limit - n + 1) / 2).toNat := by
  have hstop : ∀ {n : Int} {out : Buffer}, ∃ ts : List Tuple,
      out = out ++ encodeAll (ts.flatMap ofTuple) ∧ n = n + 2 * ts.length ∧
        (∀ t ∈ ts, z.HasTuple t) ∧ ts.length ≤ ((limit - n + 1) / 2).toNat :=
    fun {_ _} => ⟨[], by simp [encodeAll], by simp, by simp, Nat.zero_le _⟩
  intro fuel
  induction fuel with
  | zero =>
    intro node n n' out out' h
    cases node with
    | none => cases h; exact hstop
    | some p => cases h
  | succ fuel ih =>
    intro node n n' out out' h
    cases node with
    | none => cases h; exact hstop
    | some p =>
      rw [zqueryLoop] at h
      split at h
      · obtain ⟨zn, hzn, h⟩ := bind_eq_ok.mp h
        obtain ⟨next, -, h⟩ := bind_eq_ok.mp h
        obtain ⟨n1, hn1, h⟩ := bind_eq_ok.mp h
        obtain ⟨ts, rfl, rfl, hts, hlen⟩ := ih h
        have hn1 : n1 = n + 2 := by
          unfold i64 at hn1
          split at hn1
          · cases hn1; rfl
          · cases hn1
        refine ⟨(zn.name, zn.score) :: ts, ?_, ?_, ?_, ?_⟩
        · rw [outDbl_eq, outStr_eq]
          simp [ofTuple, encodeAll]
        · rw [hn1, List.length_cons]
          omega
        · rintro t (_ | ⟨_, ht⟩)
          · exact ⟨p, zn, Store.load_eq_ok.mp hzn, rfl⟩
          · exact hts t ht
        · rw [List.length_cons]
          omega
      · cases h
        exact hstop

theorem length_ofTuples (ts : List Tuple) : (ts.flatMap ofTuple).length = 2 * ts.length := by
  simp [ofTuple, List.length_flatMap, Nat.mul_comm]

theorem zqueryWindow_spec {z : ZSet} {t : BinaryTree Ptr} (hi : Indexed z t)
    (hN : t.numNodes < 2 ^ 32) {score : Double} (hs : score.isNaN = false) (name : Bytes)
    (offset : Int) {limit : Int} (hlim : 0 < limit) (out : Buffer) :
    zqueryWindow z score name offset limit out = .ok (out ++
      (Reply.arr ((window (z.tuples t) score name offset limit).flatMap ofTuple)).encode) := by
  set r := seekRank (z.tuples t) score name with hr
  -- The node the loop starts at, by its rank.
  obtain ⟨i, hseek, hwin⟩ : ∃ i : Nat,
      znodeOffset z t.inorder[r]? offset = .ok t.inorder[i]? ∧
      window (z.tuples t) score name offset limit =
        ((z.tuples t).drop i).take ((limit - 0 + 1) / 2).toNat := by
    have hhalf : ((limit - 0 + 1) / 2).toNat = (limit.toNat + 1) / 2 := by omega
    rw [znodeOffset_spec hi hN, hhalf, window, length_tuples]
    by_cases hin : r < t.numNodes ∧ 0 ≤ r + offset
    · exact ⟨(r + offset).toNat, by rw [if_pos hin], if_pos ⟨hlim, hin⟩⟩
    · have hnone : t.inorder[t.numNodes]? = none :=
        List.getElem?_eq_none (by rw [length_inorder])
      refine ⟨t.numNodes, by rw [if_neg hin, hnone], ?_⟩
      rw [if_neg fun h => hin h.2, List.drop_eq_nil_of_le (by rw [length_tuples]), List.take_nil]
  obtain ⟨ts, hts, hloop⟩ := zqueryLoop_spec hi hN limit (limit.toNat + 1) i 0
    (outBeginArr out).1 (le_refl _) (by omega) (by omega) (by omega)
  have hcount : (0 + 2 * (ts.length : Int)).toNat = (ts.flatMap ofTuple).length := by
    rw [length_ofTuples]
    omega
  unfold zqueryWindow
  rw [zsetSeekge_spec hi hs, rank_eq_seekRank, ok_bind, ← hr, hseek, ok_bind]
  dsimp only
  rw [hloop, ok_bind]
  dsimp only
  rw [hcount, outEndArr_eq, hwin, hts]

/-- On every set, the window is an array of tuples within the limit if there is a reply. -/
theorem zqueryWindow_array {z : ZSet} {score : Double} {name : Bytes} {offset limit : Int}
    {out out' : Buffer} (h : zqueryWindow z score name offset limit out = .ok out') :
    ∃ ts : List Tuple, out' = out ++ (Reply.arr (ts.flatMap ofTuple)).encode ∧
      (∀ t ∈ ts, z.HasTuple t) ∧ ts.length ≤ ((limit + 1) / 2).toNat := by
  unfold zqueryWindow at h
  obtain ⟨node, -, h⟩ := bind_eq_ok.mp h
  obtain ⟨node', -, h⟩ := bind_eq_ok.mp h
  obtain ⟨⟨n, out1⟩, hloop, h⟩ := bind_eq_ok.mp h
  obtain ⟨ts, rfl, rfl, hts, hlen⟩ := zqueryLoop_array hloop
  have hcount : (0 + 2 * (ts.length : Int)).toNat = (ts.flatMap ofTuple).length := by
    rw [length_ofTuples]
    omega
  have hend := outEndArr_eq out (ts.flatMap ofTuple)
  rw [← hcount] at hend
  exact ⟨ts, Except.ok.inj (h.symm.trans hend), hts, by rwa [Int.sub_zero] at hlen⟩

/-! ## The handler -/

section Handler

variable {g : KData} {a : Keyspace} {strtod : Strtod}
  {cmd key scoreArg name offsetArg limitArg : Bytes}
  {out : Buffer}

theorem doZquery_badScore (g : KData) (cmd key name offsetArg limitArg : Bytes) (out : Buffer)
    (hscore : str2dbl strtod scoreArg = none) :
    doZquery strtod g [cmd, key, scoreArg, name, offsetArg, limitArg] out =
      .ok (g, outErr out .badArg (ascii "expect fp number")) := by
  unfold doZquery
  rw [index_of_getElem? (a := scoreArg) rfl, ok_bind, hscore]

theorem doZquery_badInt (cmd key name : Bytes) (out : Buffer) {score : Double}
    (hscore : str2dbl strtod scoreArg = some score)
    (hnone : str2int offsetArg = none ∨ str2int limitArg = none) :
    doZquery strtod g [cmd, key, scoreArg, name, offsetArg, limitArg] out =
      .ok (g, outErr out .badArg (ascii "expect int")) := by
  unfold doZquery
  rw [index_of_getElem? (a := scoreArg) rfl, ok_bind, hscore]
  dsimp only
  rw [index_of_getElem? (a := name) rfl, ok_bind, index_of_getElem? (a := offsetArg) rfl,
    ok_bind, index_of_getElem? (a := limitArg) rfl, ok_bind]
  rcases hnone with hnone | hnone
  · rw [hnone]
  · rw [hnone]
    cases str2int offsetArg <;> rfl

/-- A query with its arguments in order looks the set up, and replies the window. -/
theorem doZquery_eq (cmd key name : Bytes) (out : Buffer) (h : Refines g a) {score : Double}
    {offset limit : Int64}
    (hscore : str2dbl strtod scoreArg = some score) (hoffset : str2int offsetArg = some offset)
    (hlimit : str2int limitArg = some limit) :
    ∃ g', Refines g' a ∧ Ages g g' ∧
      ((a.zset key = none ∧
        doZquery strtod g [cmd, key, scoreArg, name, offsetArg, limitArg] out =
          .ok (g', outErr out .badTyp (ascii "expect zset"))) ∨
      ∃ z t m, ZInv z t ∧ Listing m (z.tuples t) ∧ a.zset key = some m ∧
        doZquery strtod g [cmd, key, scoreArg, name, offsetArg, limitArg] out =
          if limit ≤ 0 then .ok (g', outArr out 0)
          else zqueryWindow z score name offset.toInt limit.toInt out >>= fun out =>
            .ok (g', out)) := by
  obtain ⟨g1, r, hrun, h1, hages, hz⟩ := expectZset_spec h key
  refine ⟨g1, h1, hages, ?_⟩
  unfold doZquery
  rw [index_of_getElem? (a := scoreArg) rfl, ok_bind, hscore]
  dsimp only
  rw [index_of_getElem? (a := name) rfl, ok_bind, index_of_getElem? (a := offsetArg) rfl, ok_bind,
    index_of_getElem? (a := limitArg) rfl, ok_bind, hoffset, hlimit]
  dsimp only
  rw [index_of_getElem? (a := key) rfl, ok_bind, hrun, ok_bind]
  cases r with
  | none => exact Or.inl ⟨hz.none_zset, rfl⟩
  | some ptr =>
    obtain ⟨z, t, m, hview⟩ := hz.view h1
    refine Or.inr ⟨z, t, m, hview.inv, hview.inv.listing hview.scores, hview.zset, ?_⟩
    dsimp only
    rw [hview.load, ok_bind]

theorem int64_pos {x : Int64} : ¬ x ≤ 0 ↔ 0 < x.toInt := by
  rw [Int64.le_iff_toInt_le]
  exact not_le

/-- The window of a set that is known by its tree. -/
theorem serves_window {g' : KData} {z : ZSet} {t : BinaryTree Ptr} {m : Scores} (h : Refines g' a)
    (hages : Ages g g') (hz : ZInv z t) (hlist : Listing m (z.tuples t))
    (hm : a.zset key = some m) {score : Double} (hs : score.isNaN = false) {offset limit : Int64}
    (hlim : 0 < limit.toInt) (now : UInt64) :
    Serves g a now (.zquery key (some score) name (some offset) (some limit)) out
      (zqueryWindow z score name offset.toInt limit.toInt out >>= fun out => .ok (g', out)) := by
  by_cases hN : t.numNodes < 2 ^ 32
  · refine Serves.of_ok ⟨_, by rw [zqueryWindow_spec hz.toIndexed hN hs name _ hlim, ok_bind],
      .of_refines h hages rfl ?_⟩
    simp only [Keyspace.Replies, hm]
    intro ts hts _
    rw [hts.unique hlist]
  · have hbig : ∀ ts, Listing m ts → ¬ ts.length < 2 ^ 32 := fun ts hts => by
      rwa [hts.unique hlist, length_tuples]
    refine ⟨fun res hres => ?_, fun hsmall => absurd (hsmall m _ hm hlist) (hbig _ hlist)⟩
    obtain ⟨out', hwin, hres⟩ := bind_eq_ok.mp hres
    cases hres
    obtain ⟨ts, rfl, -⟩ := zqueryWindow_array hwin
    refine .of_refines h hages rfl ?_
    simp only [Keyspace.Replies, hm]
    exact fun us hus hlt => absurd hlt (hbig us hus)

theorem doZquery_spec (h : Refines g a) (now : UInt64) :
    Serves g a now (.zquery key (str2dbl strtod scoreArg) name (str2int offsetArg)
      (str2int limitArg)) out
      (doZquery strtod g [cmd, key, scoreArg, name, offsetArg, limitArg] out) := by
  cases hscore : str2dbl strtod scoreArg with
  | none =>
    exact Serves.of_ok ⟨_, doZquery_badScore g cmd key name offsetArg limitArg out hscore,
      .of_scalar h (Ages.refl g) (outErr_eq out _ _) rfl⟩
  | some score =>
    cases hoffset : str2int offsetArg with
    | none =>
      exact Serves.of_ok ⟨_, doZquery_badInt cmd key name out hscore (Or.inl hoffset),
        .of_scalar h (Ages.refl g) (outErr_eq out _ _) rfl⟩
    | some offset =>
      cases hlimit : str2int limitArg with
      | none =>
        exact Serves.of_ok ⟨_, doZquery_badInt cmd key name out hscore (Or.inr hlimit),
          .of_scalar h (Ages.refl g) (outErr_eq out _ _) rfl⟩
      | some limit =>
        obtain ⟨g1, h1, hages, ⟨hnone, hrun⟩ | ⟨z, t, m, hz, hlist, hm, hrun⟩⟩ :=
          doZquery_eq cmd key name out h hscore hoffset hlimit
        · refine Serves.of_ok ⟨_, hrun, .of_scalar h1 hages (outErr_eq out _ _) ?_⟩
          simp [Keyspace.Replies, Keyspace.reply, hnone]
        · rw [hrun]
          by_cases hle : limit ≤ 0
          · rw [if_pos hle]
            refine Serves.of_ok ⟨_, rfl, .of_refines h1 hages (r := .arr []) (outArr_eq out 0) ?_⟩
            simp only [Keyspace.Replies, hm]
            intro ts _ _
            rw [window, if_neg fun hw => int64_pos.mpr hw.1 hle]
            rfl
          · rw [if_neg hle]
            exact serves_window h1 hages hz hlist hm (str2dbl_isNaN hscore) (int64_pos.mp hle) now

/-- On a set of less than 2^32 tuples, a query returns the window. -/
theorem Refines.zquery (h : Refines g a) (cmd name : Bytes) (out : Buffer) {m : Scores}
    (hm : a.zset key = some m) {ts : List Tuple}
    (hts : Listing m ts) (hlt : ts.length < 2 ^ 32) {score : Double} {offset limit : Int64}
    (hscore : str2dbl strtod scoreArg = some score) (hoffset : str2int offsetArg = some offset)
    (hlimit : str2int limitArg = some limit) : ∃ g',
      doZquery strtod g [cmd, key, scoreArg, name, offsetArg, limitArg] out =
        .ok (g', out ++ tagArr ::
          (bytesOf 4 (2 * (window ts score name offset.toInt limit.toInt).length) ++
            encodeAll ((window ts score name offset.toInt limit.toInt).flatMap ofTuple))) := by
  have hserves : Serves g a 0 (.zquery key (str2dbl strtod scoreArg) name (str2int offsetArg)
      (str2int limitArg)) out
      (doZquery strtod g [cmd, key, scoreArg, name, offsetArg, limitArg] out) := doZquery_spec h 0
  rw [hscore, hoffset, hlimit] at hserves
  obtain ⟨⟨g', out'⟩, hres⟩ := hserves.returns fun m' us hm' hus => by
    obtain rfl : m = m' := Option.some.inj (hm.symm.trans hm')
    rwa [hus.unique hts]
  obtain ⟨r, rfl, hr⟩ := (hserves.answered _ hres).reply
  simp only [Keyspace.Replies, hm] at hr
  rw [hr ts hts hlt, Reply.encode, length_ofTuples] at hres
  exact ⟨g', hres⟩

end Handler

end Greenis
