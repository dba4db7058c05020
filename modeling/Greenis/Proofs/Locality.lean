/-
  The commands work on the entries they know.

  `g.beside d` is the keyspace `g` with more entries in its memory, which neither the hash table
  nor the queue leads to. A command does there what it does without them (`doRequest_beside`), and
  so does each iteration of the timer loop (`expireOne_beside`): they neither read nor write a cell
  of `d`.
-/
import Greenis.Lib.Frame
import Greenis.Model.Threads
import Greenis.Proofs.Request

namespace Greenis
open CExec Store

/-! ## The hash table -/

section HashTable

variable {α σ : Type} {eq eq' : HNode α → Exec Bool}

theorem chainFind_follows (h : ∀ n, Follows id (eq n) (eq' n)) (hcode : UInt64)
    (chain : List (HNode α)) : Follows id (chainFind hcode eq chain) (chainFind hcode eq' chain) := by
  induction chain with
  | nil => exact Follows.ok id _
  | cons cur next ih =>
    refine Follows.bind (r := id) ?_ fun found _ => ?_
    · split
      · exact h cur
      · exact Follows.ok id _
    · dsimp only [id]
      split
      · exact Follows.ok id _
      · exact ih.bind fun r _ => Follows.ok id _

theorem hLookup_follows (h : ∀ n, Follows id (eq n) (eq' n)) (htab : HTab α) (hcode : UInt64) :
    Follows id (hLookup htab hcode eq) (hLookup htab hcode eq') := by
  unfold hLookup
  split
  · exact Follows.ok id _
  · refine .after _ fun chain _ => ?_
    exact (chainFind_follows h hcode chain).bind fun r _ => Follows.ok id _

theorem hmLookup_follows (h : ∀ n, Follows id (eq n) (eq' n)) (hmap : HMap α) (hcode : UInt64) :
    Follows id (hmLookup hmap hcode eq) (hmLookup hmap hcode eq') := by
  refine .after _ fun hmap _ => (hLookup_follows h _ hcode).bind fun r _ => ?_
  cases r with
  | some f => exact Follows.refl _
  | none =>
    refine (hLookup_follows h _ hcode).bind fun r _ => ?_
    cases r with
    | some f => exact Follows.refl _
    | none => exact Follows.refl _

theorem hmDelete_follows (h : ∀ n, Follows id (eq n) (eq' n)) (hmap : HMap α) (hcode : UInt64) :
    Follows id (hmDelete hmap hcode eq) (hmDelete hmap hcode eq') := by
  refine .after _ fun hmap _ => (hLookup_follows h _ hcode).bind fun r _ => ?_
  cases r with
  | some f => exact Follows.refl _
  | none =>
    refine (hLookup_follows h _ hcode).bind fun r _ => ?_
    cases r with
    | some f => exact Follows.refl _
    | none => exact Follows.refl _

variable {f f' : HNode α → σ → Exec (Bool × σ)}

theorem chainForeach_follows (h : ∀ n s, Follows id (f n s) (f' n s)) (chain : List (HNode α))
    (s : σ) : Follows id (chainForeach f chain s) (chainForeach f' chain s) := by
  induction chain generalizing s with
  | nil => exact Follows.ok id _
  | cons node next ih =>
    refine (h node s).bind fun r _ => ?_
    dsimp only [id]
    split
    · exact ih r.2
    · exact Follows.ok id _

theorem slotsForeach_follows (h : ∀ n s, Follows id (f n s) (f' n s))
    (slots : List (List (HNode α))) (n : Nat) (i : Nat) (s : σ) :
    Follows id (slotsForeach f slots n i s) (slotsForeach f' slots n i s) := by
  induction n generalizing i s with
  | zero => exact Follows.ok id _
  | succ n ih =>
    refine .after _ fun chain _ => (chainForeach_follows h chain s).bind fun r _ => ?_
    dsimp only [id]
    split
    · exact ih (i + 1) r.2
    · exact Follows.ok id _

theorem hForeach_follows (h : ∀ n s, Follows id (f n s) (f' n s)) (htab : HTab α) (s : σ) :
    Follows id (hForeach htab f s) (hForeach htab f' s) := by
  unfold hForeach
  split
  · exact Follows.ok id _
  · exact .after _ fun slots _ => slotsForeach_follows h slots _ 0 s

theorem hmForeach_follows (h : ∀ n s, Follows id (f n s) (f' n s)) (hmap : HMap α) (s : σ) :
    Follows id (hmForeach hmap f s) (hmForeach hmap f' s) := by
  refine (hForeach_follows h hmap.newer s).bind fun r _ => ?_
  dsimp only [id]
  split
  · exact (hForeach_follows h hmap.older r.2).bind fun r _ => Follows.ok id _
  · exact Follows.ok id _

end HashTable

/-! ## Entries -/

def KData.beside (g : KData) (d : Store Entry) : KData := { g with entry := g.entry.join d }

section Entries

variable {g : KData} {d : Store Entry}

theorem entryEq_beside (key : Bytes) (node : HNode Ptr) :
    Follows id (entryEq g key node) (entryEq (g.beside d) key node) :=
  (load_join g.entry d node.owner).bind fun _ _ => Follows.ok id _

theorem entrySetTtl_beside (now : UInt64) (ent : Ptr) (ttlMs : Int64) :
    Follows (KData.beside · d) (entrySetTtl g now ent ttlMs)
      (entrySetTtl (g.beside d) now ent ttlMs) := by
  refine (load_join g.entry d ent).bind fun e _ => ?_
  dsimp only [KData.beside]
  split
  · split
    · exact .after _ fun heap _ => Follows.ok (KData.beside · d) _
    · exact .after _ fun heap _ => Follows.ok (KData.beside · d) _
  · split
    · exact Follows.ok (KData.beside · d) _
    · exact .after _ fun heap _ => Follows.ok (KData.beside · d) _

theorem entryDelSync_beside (h : g.entry.Apart d) (ent : Ptr) :
    Follows (KData.beside · d) (entryDelSync g ent) (entryDelSync (g.beside d) ent) := by
  refine (load_join g.entry d ent).bind fun e _ => ?_
  dsimp only [id]
  split
  · exact .after _ fun z _ => (free_join h ent).bind fun entry _ => Follows.ok (KData.beside · d) _
  · exact (free_join h ent).bind fun entry _ => Follows.ok (KData.beside · d) _

theorem entrySetTtl_entry {g' : KData} {now : UInt64} {ent : Ptr} {ttlMs : Int64}
    (hrun : entrySetTtl g now ent ttlMs = .ok g') : g'.entry = g.entry := by
  obtain ⟨e, -, hrun⟩ := bind_eq_ok.mp hrun
  split at hrun
  · split at hrun
    · obtain ⟨heap, -, hrun⟩ := bind_eq_ok.mp hrun
      cases hrun
      rfl
    · obtain ⟨heap, -, hrun⟩ := bind_eq_ok.mp hrun
      cases hrun
      rfl
  · split at hrun
    · cases hrun
      rfl
    · obtain ⟨heap, -, hrun⟩ := bind_eq_ok.mp hrun
      cases hrun
      rfl

theorem entryDel_beside (h : g.entry.Apart d) (ent : Ptr) :
    Follows (KData.beside · d) (entryDel g ent) (entryDel (g.beside d) ent) := by
  refine (entrySetTtl_beside 0 ent (-1)).bind fun g1 hg1 => ?_
  have h1 : g1.entry.Apart d := entrySetTtl_entry hg1 ▸ h
  refine (load_join g1.entry d ent).bind fun e _ => ?_
  dsimp only [id]
  by_cases hlarge : (if e.type = .zset then hmSize e.zset.hmap else 0) > kLargeContainerSize
  · rw [if_pos hlarge, if_pos hlarge]
    exact Follows.ok (KData.beside · d) _
  · rw [if_neg hlarge, if_neg hlarge]
    exact entryDelSync_beside h1 ent

/-- What a function on the keyspace returns, with more entries in the memory. -/
def withBeside {β : Type} (d : Store Entry) (r : KData × β) : KData × β := (r.1.beside d, r.2)

theorem dbLookup_beside (key : Bytes) :
    Follows (withBeside d) (dbLookup g key) (dbLookup (g.beside d) key) :=
  (hmLookup_follows (entryEq_beside key) g.db (strHash key)).bind fun _ _ =>
    Follows.ok (withBeside d) _

theorem dbInsert_beside (type : ValueType) (key str : Bytes) :
    Follows (withBeside d) (dbInsert g type key str) (dbInsert (g.beside d) type key str) := by
  unfold dbInsert
  dsimp only [entryNew, KData.beside]
  rw [write_join]
  exact .after _ fun db _ => Follows.ok (withBeside d) _

end Entries

/-! ## Commands -/

section Commands

variable {g : KData} {d : Store Entry}

theorem doGet_beside (cmd : List Bytes) (out : Buffer) :
    Follows (withBeside d) (doGet g cmd out) (doGet (g.beside d) cmd out) := by
  refine .after _ fun key _ => (dbLookup_beside key).bind fun r _ => ?_
  obtain ⟨g, node⟩ := r
  cases node with
  | none => exact Follows.ok (withBeside d) _
  | some ent =>
    refine (load_join g.entry d ent).bind fun e _ => ?_
    dsimp only [id]
    split
    · exact Follows.ok (withBeside d) _
    · exact Follows.ok (withBeside d) _

theorem doSet_beside (cmd : List Bytes) (out : Buffer) :
    Follows (withBeside d) (doSet g cmd out) (doSet (g.beside d) cmd out) := by
  refine .after _ fun key _ => .after _ fun value _ => (dbLookup_beside key).bind fun r _ => ?_
  obtain ⟨g, node⟩ := r
  cases node with
  | none => exact (dbInsert_beside .str key value).bind fun _ _ => Follows.ok (withBeside d) _
  | some ent =>
    refine (load_join g.entry d ent).bind fun e _ => ?_
    dsimp only [id]
    split
    · exact Follows.ok (withBeside d) _
    · exact (modify_join g.entry d ent _).bind fun _ _ => Follows.ok (withBeside d) _

theorem doDel_beside (h : g.entry.Apart d) (cmd : List Bytes) (out : Buffer) :
    Follows (withBeside d) (doDel g cmd out) (doDel (g.beside d) cmd out) := by
  refine .after _ fun key _ =>
    (hmDelete_follows (entryEq_beside key) g.db (strHash key)).bind fun r _ => ?_
  obtain ⟨db, node⟩ := r
  cases node with
  | none => exact Follows.ok (withBeside d) _
  | some node =>
    exact (entryDel_beside (g := { g with db := db }) h node.owner).bind fun _ _ =>
      Follows.ok (withBeside d) _

theorem doKeys_beside (cmd : List Bytes) (out : Buffer) :
    Follows (withBeside d) (doKeys g cmd out) (doKeys (g.beside d) cmd out) := by
  have hcb : ∀ node out, Follows id (cbKeys g node out) (cbKeys (g.beside d) node out) :=
    fun node out => (load_join g.entry d node.owner).bind fun _ _ => Follows.ok id _
  exact (hmForeach_follows hcb g.db _).bind fun _ _ => Follows.ok (withBeside d) _

theorem doExpire_beside (now : UInt64) (cmd : List Bytes) (out : Buffer) :
    Follows (withBeside d) (doExpire g now cmd out) (doExpire (g.beside d) now cmd out) := by
  refine .after _ fun ttlArg _ => ?_
  cases str2int ttlArg with
  | none => exact Follows.ok (withBeside d) _
  | some ttlMs =>
    refine .after _ fun key _ => (dbLookup_beside key).bind fun r _ => ?_
    obtain ⟨g, node⟩ := r
    cases node with
    | none => exact Follows.ok (withBeside d) _
    | some ent => exact (entrySetTtl_beside now ent ttlMs).bind fun _ _ => Follows.ok (withBeside d) _

theorem doTtl_beside (now : UInt64) (cmd : List Bytes) (out : Buffer) :
    Follows (withBeside d) (doTtl g now cmd out) (doTtl (g.beside d) now cmd out) := by
  refine .after _ fun key _ => (dbLookup_beside key).bind fun r _ => ?_
  obtain ⟨g, node⟩ := r
  cases node with
  | none => exact Follows.ok (withBeside d) _
  | some ent =>
    refine (load_join g.entry d ent).bind fun e _ => ?_
    dsimp only [withBeside, KData.beside]
    cases g.heap.idx ent with
    | none => exact Follows.ok (withBeside d) _
    | some pos => exact .after _ fun _ _ => Follows.ok (withBeside d) _

theorem doZadd_beside (strtod : Strtod) (cmd : List Bytes) (out : Buffer) :
    Follows (withBeside d) (doZadd strtod g cmd out) (doZadd strtod (g.beside d) cmd out) := by
  refine .after _ fun scoreArg _ => ?_
  cases str2dbl strtod scoreArg with
  | none => exact Follows.ok (withBeside d) _
  | some score =>
    refine .after _ fun key _ => .after _ fun name _ => (dbLookup_beside key).bind fun r _ => ?_
    obtain ⟨g, node⟩ := r
    dsimp only [withBeside]
    refine Follows.bind (r := withBeside d) ?_ fun r _ => ?_
    · cases node with
      | none => exact dbInsert_beside .zset key []
      | some ent => exact Follows.ok (withBeside d) _
    obtain ⟨g, ent⟩ := r
    refine (load_join g.entry d ent).bind fun e _ => ?_
    dsimp only [id]
    split
    · exact Follows.ok (withBeside d) _
    · exact .after _ fun _ _ => (modify_join g.entry d ent _).bind fun _ _ =>
        Follows.ok (withBeside d) _

theorem zsetLoad_beside (ptr : ZSetPtr) :
    Follows id (zsetLoad g ptr) (zsetLoad (g.beside d) ptr) := by
  cases ptr with
  | empty => exact Follows.ok id _
  | entry ent => exact (load_join g.entry d ent).bind fun _ _ => Follows.ok id _

theorem zsetStore_beside (ptr : ZSetPtr) (zset : ZSet) :
    Follows (KData.beside · d) (zsetStore g ptr zset) (zsetStore (g.beside d) ptr zset) := by
  cases ptr with
  | empty => exact Follows.ok (KData.beside · d) _
  | entry ent =>
    exact (modify_join g.entry d ent _).bind fun _ _ => Follows.ok (KData.beside · d) _

theorem expectZset_beside (key : Bytes) :
    Follows (withBeside d) (expectZset g key) (expectZset (g.beside d) key) := by
  refine (dbLookup_beside key).bind fun r _ => ?_
  obtain ⟨g, node⟩ := r
  cases node with
  | none => exact Follows.ok (withBeside d) _
  | some ent => exact (load_join g.entry d ent).bind fun _ _ => Follows.ok (withBeside d) _

theorem doZrem_beside (cmd : List Bytes) (out : Buffer) :
    Follows (withBeside d) (doZrem g cmd out) (doZrem (g.beside d) cmd out) := by
  refine .after _ fun key _ => .after _ fun name _ => (expectZset_beside key).bind fun r _ => ?_
  obtain ⟨g, zset⟩ := r
  cases zset with
  | none => exact Follows.ok (withBeside d) _
  | some ptr =>
    refine (zsetLoad_beside ptr).bind fun z _ => .after _ fun found _ => ?_
    obtain ⟨z, znode⟩ := found
    cases znode with
    | none => exact (zsetStore_beside ptr z).bind fun _ _ => Follows.ok (withBeside d) _
    | some znode =>
      exact .after _ fun z _ => (zsetStore_beside ptr z).bind fun _ _ => Follows.ok (withBeside d) _

theorem doZscore_beside (cmd : List Bytes) (out : Buffer) :
    Follows (withBeside d) (doZscore g cmd out) (doZscore (g.beside d) cmd out) := by
  refine .after _ fun key _ => .after _ fun name _ => (expectZset_beside key).bind fun r _ => ?_
  obtain ⟨g, zset⟩ := r
  cases zset with
  | none => exact Follows.ok (withBeside d) _
  | some ptr =>
    refine (zsetLoad_beside ptr).bind fun z _ => .after _ fun found _ => ?_
    obtain ⟨z, znode⟩ := found
    refine (zsetStore_beside ptr z).bind fun g _ => ?_
    cases znode with
    | none => exact Follows.ok (withBeside d) _
    | some znode => exact .after _ fun _ _ => Follows.ok (withBeside d) _

theorem doZquery_beside (strtod : Strtod) (cmd : List Bytes) (out : Buffer) :
    Follows (withBeside d) (doZquery strtod g cmd out) (doZquery strtod (g.beside d) cmd out) := by
  refine .after _ fun scoreArg _ => ?_
  cases str2dbl strtod scoreArg with
  | none => exact Follows.ok (withBeside d) _
  | some score =>
    refine .after _ fun name _ => .after _ fun offsetArg _ => .after _ fun limitArg _ => ?_
    cases str2int offsetArg with
    | none => exact Follows.ok (withBeside d) _
    | some offset =>
      cases str2int limitArg with
      | none => exact Follows.ok (withBeside d) _
      | some limit =>
        refine .after _ fun key _ => (expectZset_beside key).bind fun r _ => ?_
        obtain ⟨g, zset⟩ := r
        cases zset with
        | none => exact Follows.ok (withBeside d) _
        | some ptr =>
          dsimp only [withBeside]
          split
          · exact Follows.ok (withBeside d) _
          · exact (zsetLoad_beside ptr).bind fun z _ => .after _ fun out _ =>
              Follows.ok (withBeside d) _

theorem doRequest_follows (h : g.entry.Apart d) (strtod : Strtod) (now : UInt64)
    (cmd : List Bytes) (out : Buffer) :
    Follows (withBeside d) (doRequest strtod g now cmd out)
      (doRequest strtod (g.beside d) now cmd out) := by
  unfold doRequest
  refine .ite (doGet_beside cmd out) (.ite (doSet_beside cmd out) (.ite (doDel_beside h cmd out) ?_))
  refine .ite (doExpire_beside now cmd out) (.ite (doTtl_beside now cmd out) ?_)
  refine .ite (doKeys_beside cmd out) (.ite (doZadd_beside strtod cmd out) ?_)
  refine .ite (doZrem_beside cmd out) (.ite (doZscore_beside cmd out) ?_)
  exact .ite (doZquery_beside strtod cmd out) (Follows.ok (withBeside d) _)

/-- A query depends on the memory of the entries up to the set only, and gets there. -/
theorem doZquery_mirrors (h : KInv g) (strtod : Strtod) (cmd : List Bytes) (out : Buffer) :
    Mirrors (withBeside d) (doZquery strtod g cmd out) (doZquery strtod (g.beside d) cmd out) := by
  obtain ⟨a, ha⟩ := exists_refines h
  refine .after _ fun scoreArg _ => ?_
  cases str2dbl strtod scoreArg with
  | none => exact .ok (withBeside d) _
  | some score =>
    refine .after _ fun name _ => .after _ fun offsetArg _ => .after _ fun limitArg _ => ?_
    cases str2int offsetArg with
    | none => exact .ok (withBeside d) _
    | some offset =>
      cases str2int limitArg with
      | none => exact .ok (withBeside d) _
      | some limit =>
        refine .after _ fun key _ => ?_
        obtain ⟨g1, zset, hzset, h1, -, hz⟩ := expectZset_spec ha key
        refine .bind (expectZset_beside key) hzset ?_
        cases zset with
        | none => exact .ok (withBeside d) _
        | some ptr =>
          obtain ⟨z, t, m, hview⟩ := hz.view h1
          dsimp only [withBeside]
          split
          · exact .ok (withBeside d) _
          · exact .bind (zsetLoad_beside ptr) hview.load (.after _ fun out _ => .ok (withBeside d) _)

/-- A command that is no query is specified. -/
theorem specified_of_not {strtod : Strtod} {cmd : List Bytes}
    (h : ¬ (cmd.length = 6 ∧ cmd[0]? = some (ascii "zquery"))) (a : Keyspace) :
    a.Specified (Command.of strtod cmd) := by
  unfold Command.of
  split <;> try split_ifs
  all_goals first | exact trivial | simp_all

/-- A command does what it does without the other entries. -/
theorem doRequest_beside (hk : KInv g) (h : g.entry.Apart d) (strtod : Strtod) (now : UInt64)
    (cmd : List Bytes) (out : Buffer) :
    Mirrors (withBeside d) (doRequest strtod g now cmd out)
      (doRequest strtod (g.beside d) now cmd out) := by
  obtain ⟨a, ha⟩ := exists_refines hk
  by_cases hz : cmd.length = 6 ∧ cmd[0]? = some (ascii "zquery")
  · have hquery : ∀ g, doRequest strtod g now cmd out = doZquery strtod g cmd out := by
      intro g
      unfold doRequest
      rw [if_neg fun h => by omega, if_neg fun h => by omega, if_neg fun h => by omega,
        if_neg fun h => by omega, if_neg fun h => by omega, if_neg fun h => by omega,
        if_neg fun h => by omega, if_neg fun h => by omega, if_neg fun h => by omega, if_pos hz]
    rw [hquery, hquery]
    exact doZquery_mirrors hk strtod cmd out
  · obtain ⟨res, hres⟩ := (doRequest_spec strtod ha now cmd out).returns (specified_of_not hz a)
    exact (doRequest_follows h strtod now cmd out).mirrors hres

end Commands

/-! ## Timers -/

section Timers

variable {g : KData} {d : Store Entry}

/-- The TTL loop goes round by round. -/
theorem expireLoop_succ (now : UInt64) (fuel nworks : Nat) (g : KData) :
    expireLoop now (fuel + 1) nworks g = expireOne g now >>= fun r => r.elim (.ok g) fun g =>
      if nworks ≥ kMaxWorks then .ok g else expireLoop now fuel (nworks + 1) g := by
  rw [expireLoop]
  unfold expireOne
  cases g.heap.a with
  | nil => rfl
  | cons first rest =>
    dsimp only
    split
    · simp only [bind_assoc, ok_bind, Option.elim_some]
    · rfl

theorem expireOne_follows (h : g.entry.Apart d) (now : UInt64) :
    Follows (Option.map (KData.beside · d)) (expireOne g now) (expireOne (g.beside d) now) := by
  unfold expireOne
  dsimp only [KData.beside]
  cases g.heap.a with
  | nil => exact Follows.ok (Option.map (KData.beside · d)) _
  | cons first rest =>
    refine .ite ?_ (Follows.ok (Option.map (KData.beside · d)) _)
    refine (load_join g.entry d first.ref).bind fun e _ => .after _ fun found _ => ?_
    refine .after _ fun _ _ => ?_
    exact (entryDel_beside (g := { g with db := found.1 }) h first.ref).bind fun g _ =>
      Follows.ok (Option.map (KData.beside · d)) _

/-- A round removes the key that is due first, if any key is due. -/
inductive Expired (g : KData) (a : Keyspace) (now : UInt64) : Option KData → Prop
  | none : a.NoneBefore now.toNat → Expired g a now none
  | some {g' : KData} {key : Bytes} {item : Item} {e : Nat} : a.lookup key = some item →
      item.expiry = some e → e < now.toNat → a.NoneBefore e → Refines g' (a.erase key) →
      Ages g g' → Expired g a now (some g')

theorem expireOne_spec {a : Keyspace} (h : Refines g a) (now : UInt64) :
    ∃ r, expireOne g now = .ok r ∧ Expired g a now r := by
  unfold expireOne
  cases hheap : g.heap.a with
  | nil =>
    refine ⟨none, rfl, .none (h.noneBefore fun first hf => ?_)⟩
    rw [hheap] at hf
    cases hf
  | cons first rest =>
    have hroot : g.heap.a[0]? = some first := by rw [hheap]; rfl
    have hleast : a.NoneBefore first.val.toNat := h.noneBefore fun t ht => by
      rw [hroot] at ht
      cases ht
      exact Nat.le_refl _
    dsimp only
    by_cases hdue : first.val < now
    · have hmem : first ∈ g.heap.a := List.mem_of_getElem? hroot
      have hp := h.inv.ttl.owned first hmem
      obtain ⟨v, hlookup⟩ := h.item_of_heap hmem
      obtain ⟨db, n, hdel, hn, hinv, hperm⟩ := hmDelete_same h.inv hp
      obtain ⟨g1, hrun1, h1, hages1, -⟩ := h.destroy hinv hperm
      rw [hn] at hrun1 h1
      have hassert : ((some n).map HNode.owner == some first.ref) = true := by
        rw [Option.map_some, hn]
        exact beq_self_eq_true _
      rw [if_pos hdue, Store.load_of (h.inv.db.entry_at hp).1, ok_bind, hdel, ok_bind]
      dsimp only
      rw [check_of hassert, ok_bind, hrun1, ok_bind]
      exact ⟨_, rfl, .some hlookup rfl (UInt64.lt_iff_toNat_lt.mp hdue) hleast h1 hages1⟩
    · rw [if_neg hdue]
      refine ⟨none, rfl, .none fun key item e ha he => ?_⟩
      exact Nat.le_trans (UInt64.le_iff_toNat_le.mp (UInt64.not_lt.mp hdue)) (hleast key item e ha he)

/-- A round that removes a large sorted set queues its entry. -/
theorem expireOne_queues {a : Keyspace} {g' : KData} (h : Refines g a)
    (hlarge : ∀ key v e, a.lookup key = some ⟨v, some e⟩ →
      ∃ m, v = .zset m ∧ kLargeContainerSize < m.keys.card)
    {now : UInt64} (hrun : expireOne g now = .ok (some g')) : ∃ p, g'.pool = g.pool ++ [p] := by
  unfold expireOne at hrun
  cases hheap : g.heap.a with
  | nil =>
    rw [hheap] at hrun
    cases hrun
  | cons first rest =>
    rw [hheap] at hrun
    dsimp only at hrun
    by_cases hdue : first.val < now
    · have hmem : first ∈ g.heap.a := hheap ▸ List.mem_cons_self
      have hp := h.inv.ttl.owned first hmem
      obtain ⟨v, hlookup⟩ := h.item_of_heap hmem
      obtain ⟨m, rfl, hcard⟩ := hlarge _ v _ hlookup
      obtain ⟨item, hl⟩ := h.found (h.inv.db.find_eq_some.mpr ⟨hp, rfl⟩)
      obtain rfl := Option.some.inj (hl.lookup.symm.trans hlookup)
      obtain ⟨htype, t, ht, hm⟩ := hl.holding
      rw [← (ht.nodes_used hm).2] at hcard
      obtain ⟨db, n, hdel, hn, hinv, hperm⟩ := hmDelete_same h.inv hp
      obtain ⟨hun, -, -⟩ := unlink_spec h.inv hinv hperm
      rw [if_pos hdue, Store.load_of hl.entry, ok_bind, hdel, ok_bind] at hrun
      dsimp only at hrun
      obtain ⟨-, -, hrun⟩ := bind_eq_ok.mp hrun
      obtain ⟨g1, hrun1, hg1⟩ := bind_eq_ok.mp hrun
      obtain rfl := Option.some.inj (Except.ok.inj hg1)
      exact ⟨first.ref,
        entryDel_queues (g := { g with db := db }) (hn ▸ hun) hl.entry htype hcard hrun1⟩
    · rw [if_neg hdue] at hrun
      cases hrun

theorem expireOne_beside {a : Keyspace} (ha : Refines g a) (h : g.entry.Apart d) (now : UInt64) :
    Mirrors (Option.map (KData.beside · d)) (expireOne g now) (expireOne (g.beside d) now) := by
  obtain ⟨r, hr, -⟩ := expireOne_spec ha now
  exact (expireOne_follows h now).mirrors hr

end Timers

end Greenis
