/-
  `zquery` in every state of a run.

  The reply is the window of the listing (`zquery_window`), which starts at the rank of the key
  moved by the offset (`window_eq`, `window_nil`). The count in its header is a 32-bit field: a
  window of 2^31 tuples is announced as empty (`zquery_count_wraps`).
-/
import Greenis.Proofs.KeyspaceRuns

namespace Greenis
open CExec LTS LittleEndian Keyspace

/-- No tuple: a limit that is not positive, a key after all tuples, or a start out of range. -/
theorem window_nil {ts : List Tuple} {score : Double} {name : Bytes} {offset limit : Int}
    (h : limit ≤ 0 ∨ seekRank ts score name = ts.length ∨
      seekRank ts score name + offset < 0 ∨ ts.length ≤ seekRank ts score name + offset) :
    window ts score name offset limit = [] := by
  unfold window
  by_cases hin : 0 < limit ∧ seekRank ts score name < ts.length ∧
      0 ≤ seekRank ts score name + offset
  · rw [if_pos hin, List.drop_eq_nil_of_le (by omega), List.take_nil]
  · rw [if_neg hin]

/-- Otherwise the tuples from the start on, at most half of the limit, rounded up. -/
theorem window_eq {ts : List Tuple} {score : Double} {name : Bytes} {offset limit : Int}
    (hlim : 0 < limit) (hrank : seekRank ts score name ≠ ts.length)
    (hstart : 0 ≤ seekRank ts score name + offset) :
    window ts score name offset limit =
      (ts.drop (seekRank ts score name + offset).toNat).take ((limit.toNat + 1) / 2) := by
  have hle : seekRank ts score name ≤ ts.length := List.countP_le_length
  unfold window
  rw [if_pos ⟨hlim, by omega, hstart⟩]

variable {strtod : Strtod}

/-- **A query replies the window it asks for.** The state stands for a keyspace; each of its sets
    has a listing, and a query on a set of less than 2^32 tuples returns the array of the tuples in
    the window, with their number, two values each, in the 32-bit count. -/
theorem zquery_window {ls : List KEvent} {s : KState} (hrun : Run (KStep strtod) {} ls s) :
    ∃ a, Refines s.data a ∧ ∀ key m, a.zset key = some m → ∃ ts, Listing m ts ∧
      (ts.length < 2 ^ 32 → ∀ cmd scoreArg name offsetArg limitArg score offset limit out,
        str2dbl strtod scoreArg = some score → str2int offsetArg = some offset →
        str2int limitArg = some limit → ∃ g,
          doZquery strtod s.data [cmd, key, scoreArg, name, offsetArg, limitArg] out =
            .ok (g, out ++ tagArr ::
              (bytesOf 4 (2 * (window ts score name offset.toInt limit.toInt).length) ++
                encodeAll ((window ts score name offset.toInt limit.toInt).flatMap ofTuple)))) := by
  obtain ⟨a, ha⟩ := exists_refines (run_keeps KInv.empty hrun).1
  refine ⟨a, ha, fun key m hm => ?_⟩
  obtain ⟨ts, hts⟩ := ha.listing hm
  refine ⟨ts, hts,
    fun hlt cmd scoreArg name offsetArg limitArg score offset limit out hs ho hl => ?_⟩
  exact ha.zquery cmd name out hm hts hlt hs ho hl

/-- Reads the numbers 1 and 2. -/
def strtodDigit : Strtod := fun s =>
  (if s = ascii "2" then ⟨0x4000000000000000⟩ else ⟨0x3FF0000000000000⟩, 1)

/-- Adds a to d, with the scores 2, 1, 1 and 2. -/
def zaddFour : List (List Bytes) :=
  [[ascii "zadd", ascii "s", ascii "2", ascii "a"], [ascii "zadd", ascii "s", ascii "1", ascii "b"],
    [ascii "zadd", ascii "s", ascii "1", ascii "c"], [ascii "zadd", ascii "s", ascii "2", ascii "d"]]

/-- The order of the four tuples. -/
def fourTuples : List Tuple :=
  [(ascii "b", ⟨0x3FF0000000000000⟩), (ascii "c", ⟨0x3FF0000000000000⟩),
    (ascii "a", ⟨0x4000000000000000⟩), (ascii "d", ⟨0x4000000000000000⟩)]

/-- Tuples in order and with distinct names list a set. -/
theorem Listing.of_tuples {ts : List Tuple} (hsorted : ts.Pairwise fun t u => t.key < u.key)
    (hnames : (ts.map Prod.fst).Nodup) :
    Listing (ts.foldr (fun (t : Tuple) (m : Scores) => m.insert t.1 t.2) ∅) ts := by
  induction ts with
  | nil => exact Listing.empty
  | cons t ts ih =>
    obtain ⟨hname, hnames⟩ := List.nodup_cons.mp hnames
    have hrest := ih hsorted.of_cons hnames
    refine ⟨hsorted, fun name score => ?_⟩
    rw [List.mem_cons, List.foldr_cons]
    by_cases hn : name = t.1
    · have hnot : (name, score) ∉ ts := fun hm => hname (hn ▸ List.mem_map_of_mem hm)
      rw [hn, Finmap.lookup_insert, ← hn, or_iff_left hnot, Option.some_inj, Prod.ext_iff]
      exact (and_iff_right hn).trans eq_comm
    · rw [Finmap.lookup_insert_of_ne _ hn, ← hrest.mem]
      exact or_iff_right fun heq => hn (congrArg Prod.fst heq)

theorem zset_four : (afterAll strtodDigit zaddFour).zset (ascii "s") =
    some (fourTuples.foldr (fun (t : Tuple) (m : Scores) => m.insert t.1 t.2) ∅) := by
  decide

/-- A query from one tuple before a on, for five values: they are three tuples. -/
theorem zquery_window_back : ∃ (ls : List KEvent) (s : KState) (g : KData),
    Run (KStep strtodDigit) {} ls s ∧ Refines s.data (afterAll strtodDigit zaddFour) ∧
    doZquery strtodDigit s.data
      [ascii "zquery", ascii "s", ascii "2", ascii "a", ascii "-1", ascii "5"] [] =
        .ok (g, tagArr :: (bytesOf 4 6 ++ encodeAll [.str (ascii "c"), .dbl ⟨0x3FF0000000000000⟩,
          .str (ascii "a"), .dbl ⟨0x4000000000000000⟩, .str (ascii "d"),
          .dbl ⟨0x4000000000000000⟩])) := by
  obtain ⟨ls, s, hrun, -, -, h⟩ := exists_run strtodDigit zaddFour (by
    intro cmd hcmd a
    simp only [zaddFour, List.mem_cons, List.not_mem_nil, or_false] at hcmd
    rcases hcmd with rfl | rfl | rfl | rfl <;> trivial)
  have hlist : Listing _ fourTuples := .of_tuples (by decide) (by decide)
  obtain ⟨a, ha, hquery⟩ := zquery_window hrun
  obtain rfl := h.unique ha
  obtain ⟨ts, hts, hreply⟩ := hquery (ascii "s") _ zset_four
  obtain rfl := hts.unique hlist
  have hwindow : window fourTuples ⟨0x4000000000000000⟩ (ascii "a") (-1) 5 =
      (fourTuples.drop 1).take 3 := by decide
  obtain ⟨g, hres⟩ := hreply (by decide) (ascii "zquery") (ascii "2") (ascii "a") (ascii "-1")
    (ascii "5") ⟨0x4000000000000000⟩ (-1) 5 [] (by decide) (by decide) (by decide)
  rw [show (-1 : Int64).toInt = -1 from rfl, show (5 : Int64).toInt = 5 from rfl, hwindow] at hres
  exact ⟨ls, s, g, hrun, h, hres⟩

/-! ## More values than a count can hold -/

/-- A `zadd` to one set for each of the first `n` numbers, all with the score 0. -/
def zaddCmds (n : Nat) : List (List Bytes) :=
  (List.range n).map fun i => [ascii "zadd", ascii "s", ascii "0", bytesOf 8 i]

/-- Reads the number 0. -/
def strtodZero : Strtod := fun s => if s = ascii "0" then (⟨0⟩, 1) else (⟨0⟩, 0)

theorem zset_next_zadd {a : Keyspace} {now : Nat} {key name : Bytes} {score : Double} {m : Scores}
    (hm : a.zset key = some m) : (a.next now (.zadd key (some score) name)).zset key =
      some (m.insert name (keptScore (m.lookup name) score)) := by
  dsimp only [Keyspace.next]
  cases ha : a.lookup key with
  | none =>
    obtain rfl : ∅ = m := by simpa [Keyspace.zset, ha] using hm
    simp [Keyspace.zset, Finmap.lookup_insert, keptScore]
  | some old =>
    obtain ⟨v, expiry⟩ := old
    cases v with
    | str s => simp [Keyspace.zset, ha] at hm
    | zset m' =>
      obtain rfl : m' = m := by simpa [Keyspace.zset, ha] using hm
      simp [Keyspace.zset, Finmap.lookup_insert]

theorem afterAll_zaddCmds_succ (n : Nat) : afterAll strtodZero (zaddCmds (n + 1)) =
    (afterAll strtodZero (zaddCmds n)).next 0
      (.zadd (ascii "s") (some ⟨0⟩) (bytesOf 8 n)) := by
  rw [afterAll, zaddCmds, List.range_succ, List.map_append, List.foldl_append]
  rfl

theorem afterAll_zaddCmds (n : Nat) :
    ∃ m, (afterAll strtodZero (zaddCmds n)).zset (ascii "s") = some m ∧
      ∀ name score, m.lookup name = some score ↔ score = ⟨0⟩ ∧ ∃ i < n, bytesOf 8 i = name := by
  induction n with
  | zero => exact ⟨∅, rfl, by simp⟩
  | succ n ih =>
    obtain ⟨m, hm, hmem⟩ := ih
    have hkept : keptScore (m.lookup (bytesOf 8 n)) ⟨0⟩ = ⟨0⟩ := by
      cases hold : m.lookup (bytesOf 8 n) with
      | none => rfl
      | some s =>
        rw [((hmem _ _).mp hold).1]
        rfl
    refine ⟨_, by rw [afterAll_zaddCmds_succ, zset_next_zadd hm, hkept], fun name score => ?_⟩
    by_cases hname : name = bytesOf 8 n
    · rw [hname, Finmap.lookup_insert]
      constructor
      · intro h
        exact ⟨(Option.some.inj h).symm, n, Nat.lt_succ_self n, rfl⟩
      · rintro ⟨rfl, -⟩
        rfl
    · rw [Finmap.lookup_insert_of_ne _ hname, hmem]
      refine and_congr_right fun _ => ⟨?_, ?_⟩
      · rintro ⟨i, hi, rfl⟩
        exact ⟨i, Nat.lt_succ_of_lt hi, rfl⟩
      · rintro ⟨i, hi, rfl⟩
        rcases Nat.lt_succ_iff_lt_or_eq.mp hi with hi | rfl
        · exact ⟨i, hi, rfl⟩
        · exact absurd rfl hname

/-- The only key is that of the set, which has `n` members. -/
theorem lookup_zaddCmds {n : Nat} (hpos : 0 < n) (hn : n ≤ 2 ^ 64) :
    (∃ m expiry, (afterAll strtodZero (zaddCmds n)).lookup (ascii "s") = some ⟨.zset m, expiry⟩ ∧
      m.keys.card = n) ∧
    ∀ key, key ≠ ascii "s" → (afterAll strtodZero (zaddCmds n)).lookup key = none := by
  refine ⟨?_, fun key hkey => ?_⟩
  · obtain ⟨m, hm, hmem⟩ := afterAll_zaddCmds n
    have hkeys : m.keys = ((List.range n).map (bytesOf 8)).toFinset := Finset.ext fun name => by
      rw [Finmap.mem_keys, Finmap.mem_iff, List.mem_toFinset, List.mem_map]
      simp only [hmem, exists_eq_left, List.mem_range]
    have hcard : m.keys.card = n := by
      rw [hkeys, List.toFinset_card_of_nodup (nodup_names hn), List.length_map, List.length_range]
    unfold Keyspace.zset at hm
    cases ha : (afterAll strtodZero (zaddCmds n)).lookup (ascii "s") with
    | none =>
      rw [ha] at hm
      obtain rfl := Option.some.inj hm
      rw [Finmap.keys_empty, Finset.card_empty] at hcard
      omega
    | some item =>
      rw [ha] at hm
      obtain ⟨v, expiry⟩ := item
      cases v with
      | str s => cases hm
      | zset m' =>
        obtain rfl := Option.some.inj hm
        exact ⟨m', expiry, rfl, hcard⟩
  · clear hpos hn
    induction n with
    | zero => exact Finmap.lookup_empty key
    | succ n ih =>
      rw [afterAll_zaddCmds_succ]
      dsimp only [Keyspace.next]
      cases (afterAll strtodZero (zaddCmds n)).lookup (ascii "s") with
      | none => exact (Finmap.lookup_insert_of_ne _ hkey).trans ih
      | some item =>
        obtain ⟨v, expiry⟩ := item
        cases v with
        | str s => exact ih
        | zset m => exact (Finmap.lookup_insert_of_ne _ hkey).trans ih

/-- With 2^31 tuples in the window, the count in the reply to `zquery` is 0. -/
theorem zquery_count_wraps : ¬ ∀ (strtod : Strtod) (ls : List KEvent) (s : KState) (a : Keyspace)
    (key scoreArg name offsetArg limitArg : Bytes) (m : Scores) (ts : List Tuple) (score : Double)
    (offset limit : Int64) (g : KData) (reply : Bytes), Run (KStep strtod) {} ls s →
    Refines s.data a → a.zset key = some m → Listing m ts → ts.length < 2 ^ 32 →
    str2dbl strtod scoreArg = some score → str2int offsetArg = some offset →
    str2int limitArg = some limit →
    doZquery strtod s.data [ascii "zquery", key, scoreArg, name, offsetArg, limitArg] [] =
      .ok (g, reply) →
    valueOf ((reply.drop 1).take 4) =
      2 * (window ts score name offset.toInt limit.toInt).length := by
  intro hexact
  obtain ⟨m, hm, hmem⟩ := afterAll_zaddCmds (2 ^ 31)
  obtain ⟨ls, s, hrun, -, -, h⟩ := exists_run strtodZero (zaddCmds (2 ^ 31)) (by
    intro cmd hc a
    obtain ⟨i, -, rfl⟩ := List.mem_map.mp hc
    exact trivial)
  obtain ⟨ts, hts⟩ := h.listing hm
  -- All tuples have the score 0, so that none is before (0, "").
  have hperm : (ts.map Prod.fst).Perm ((List.range (2 ^ 31)).map (bytesOf 8)) :=
    (List.perm_ext_iff_of_nodup hts.names.1 (nodup_names (by omega))).mpr fun name => by
      rw [hts.names.2, Finmap.mem_iff, List.mem_map]
      simp only [hmem, exists_and_right, exists_eq, true_and, List.mem_range]
  have hlen : ts.length = 2 ^ 31 := by
    have := hperm.length_eq
    rwa [List.length_map, List.length_map, List.length_range] at this
  have hrank : seekRank ts ⟨0⟩ [] = 0 := by
    refine List.countP_eq_zero.mpr fun t ht => ?_
    obtain ⟨hscore, -⟩ := (hmem t.1 t.2).mp ((hts.mem t.1 t.2).mp ht)
    rw [decide_eq_true_eq, Tuple.key, tupleKey_lt, hscore]
    rintro (hlt | ⟨-, hlt⟩)
    · exact lt_irrefl _ hlt
    · exact List.not_lt_nil _ hlt
  have hscore : str2dbl strtodZero (ascii "0") = some ⟨0⟩ := by decide
  have hoffset : str2int (ascii "0") = some 0 := by decide
  have hlimit : str2int (ascii "9223372036854775807") = some 9223372036854775807 := by decide
  have hwindow : (window ts ⟨0⟩ [] (0 : Int64).toInt (9223372036854775807 : Int64).toInt).length =
      2 ^ 31 := by
    rw [show (0 : Int64).toInt = 0 from rfl,
      show (9223372036854775807 : Int64).toInt = 9223372036854775807 from rfl,
      window_eq (by decide) (by omega) (by omega), hrank, List.length_take, List.length_drop, hlen]
    rfl
  obtain ⟨g, hres⟩ := h.zquery (ascii "zquery") [] [] hm hts (by omega)
    hscore hoffset hlimit
  have hcount := hexact strtodZero ls s _ _ _ [] _ _ m ts _ _ _ g _ hrun h hm hts (by omega)
    hscore hoffset hlimit hres
  rw [hwindow, List.nil_append, List.drop_succ_cons, List.drop_zero,
    List.take_left' (length_bytesOf 4 _), valueOf_bytesOf] at hcount
  exact absurd hcount (by decide)

end Greenis
