/-
  The keyspace in memory: the hash table of entries, the heap of their timers, and the queue of
  entries to destroy.

  `DbInv` says what the hash table holds, `TtlInv` that the heap and the `heap_idx` of the linked
  entries point at each other, `PoolInv` that every allocated entry is linked or queued, never
  both. `KInv` is all three. `g.find key` is the linked entry of a key; the primitives below are
  specified by what they do to it.
-/
import Greenis.Model.Response
import Greenis.Proofs.Heap
import Greenis.Proofs.ZsetRuns

namespace Greenis
open CExec BinaryTree

/-! ## Invariants -/

def KData.at (g : KData) (p : Ptr) : Entry := (g.entry p).getD default

theorem KData.at_of {g : KData} {p : Ptr} {e : Entry} (h : g.entry p = some e) : g.at p = e := by
  simp [KData.at, h]

/-- What every allocated entry satisfies. -/
structure EntryOk (e : Entry) : Prop where
  hcode : e.hcode = strHash e.key
  type : e.type ≠ .init
  zset : ∃ t, ZInv e.zset t

/-- The entries in the hash table. -/
def KData.linked (g : KData) : List Ptr := g.db.nodes.map HNode.owner

structure DbInv (g : KData) : Prop where
  inv : g.db.Inv
  nodup : g.linked.Nodup
  node : ∀ n ∈ g.db.nodes, g.entry n.owner = some (g.at n.owner) ∧
    n.hcode = strHash (g.at n.owner).key ∧ EntryOk (g.at n.owner)
  keys : ∀ p ∈ g.linked, ∀ q ∈ g.linked, (g.at p).key = (g.at q).key → p = q

/-- The heap is in order, its items belong to entries of `S`, and an entry of `S` without an item
    has no `heap_idx`. -/
structure TtlInv (heap : Heap Ptr) (S : Ptr → Prop) : Prop where
  ok : HeapOk heap
  owned : ∀ t ∈ heap.a, S t.ref
  idle : ∀ p, S p → p ∉ refs heap.a → heap.idx p = none

/-- Each allocated entry is in `S` or in the queue. -/
structure PoolInv (g : KData) (S : Ptr → Prop) : Prop where
  nodup : g.pool.Nodup
  queued : ∀ p ∈ g.pool, ¬ S p ∧ ∃ e, g.entry p = some e ∧ EntryOk e
  alloc : ∀ p, g.entry p ≠ none → p < g.brk ∧ (S p ∨ p ∈ g.pool)

structure KInv (g : KData) : Prop where
  db : DbInv g
  ttl : TtlInv g.heap (· ∈ g.linked)
  pool : PoolInv g (· ∈ g.linked)

theorem EntryOk.new {type : ValueType} (h : type ≠ .init) (key str : Bytes) :
    EntryOk { hcode := strHash key, key := key, type := type, str := str } :=
  ⟨rfl, h, _, ZInv.empty⟩

theorem KInv.empty : KInv {} where
  db := ⟨HMap.Inv.empty, List.nodup_nil, by simp [HMap.nodes], by simp [KData.linked, HMap.nodes]⟩
  ttl := ⟨⟨fun i _ hi => by simp at hi, fun i t ht => by simp at ht⟩, by simp,
    by simp [KData.linked, HMap.nodes]⟩
  pool := ⟨List.nodup_nil, by simp, fun p hp => absurd rfl hp⟩

theorem DbInv.entry_at {g : KData} (h : DbInv g) {p : Ptr} (hp : p ∈ g.linked) :
    g.entry p = some (g.at p) ∧ EntryOk (g.at p) := by
  obtain ⟨n, hn, rfl⟩ := List.mem_map.mp hp
  exact ⟨(h.node n hn).1, (h.node n hn).2.2⟩

theorem KInv.lt_brk {g : KData} (h : KInv g) {p : Ptr} (hp : p ∈ g.linked) : p < g.brk :=
  (h.pool.alloc p (by rw [(h.db.entry_at hp).1]; simp)).1

/-- The linked entry of a key. -/
def KData.find (g : KData) (key : Bytes) : Option Ptr := g.linked.find? fun p => (g.at p).key == key

theorem DbInv.find_eq_some {g : KData} (h : DbInv g) {key : Bytes} {p : Ptr} :
    g.find key = some p ↔ p ∈ g.linked ∧ (g.at p).key = key := by
  unfold KData.find
  constructor
  · intro hf
    exact ⟨List.mem_of_find?_eq_some hf, by simpa using List.find?_some hf⟩
  · rintro ⟨hp, rfl⟩
    cases hf : g.linked.find? fun q => (g.at q).key == (g.at p).key with
    | none => simpa using List.find?_eq_none.mp hf p hp
    | some q =>
      rw [h.keys q (List.mem_of_find?_eq_some hf) p hp (by simpa using List.find?_some hf)]

theorem find_eq_none {g : KData} {key : Bytes} :
    g.find key = none ↔ ∀ p ∈ g.linked, (g.at p).key ≠ key := by
  simp [KData.find]

/-- `find` depends on which entries are linked, and on their keys. -/
theorem find_congr {g g' : KData} (h : DbInv g) (h' : DbInv g') {key : Bytes}
    (hsame : ∀ p, (p ∈ g'.linked ∧ (g'.at p).key = key) ↔ (p ∈ g.linked ∧ (g.at p).key = key)) :
    g'.find key = g.find key := by
  refine Option.ext fun p => ?_
  rw [h'.find_eq_some, h.find_eq_some, hsame]

/-! ## The life of an entry -/

/-- Where an entry is in its life: 0 before `entry_new`, 1 linked, 2 handed to the thread pool,
    3 freed. -/
def KData.stage (g : KData) (p : Ptr) : Nat :=
  if p ∈ g.linked then 1 else if p ∈ g.pool then 2 else if p < g.brk then 3 else 0

/-- Only new entries are linked, and only linked or new ones are handed to the thread pool. -/
structure Ages (g g' : KData) : Prop where
  linked : ∀ p ∈ g'.linked, p ∈ g.linked ∨ g.brk ≤ p
  pool : ∀ p ∈ g'.pool, p ∈ g.pool ∨ p ∈ g.linked ∨ g.brk ≤ p
  brk : g.brk ≤ g'.brk

theorem Ages.refl (g : KData) : Ages g g := ⟨fun _ => Or.inl, fun _ => Or.inl, le_refl _⟩

theorem Ages.trans {g g1 g' : KData} (h : Ages g g1) (h' : Ages g1 g') : Ages g g' := by
  refine ⟨fun p hp => ?_, fun p hp => ?_, h.brk.trans h'.brk⟩
  · rcases h'.linked p hp with hp | hp
    · exact h.linked p hp
    · exact Or.inr (h.brk.trans hp)
  · rcases h'.pool p hp with hp | hp | hp
    · exact h.pool p hp
    · exact Or.inr (h.linked p hp)
    · exact Or.inr (Or.inr (h.brk.trans hp))

/-- Linked entries that stay linked, and the queue left alone. -/
theorem Ages.of_subset {g g' : KData} (hl : ∀ p ∈ g'.linked, p ∈ g.linked)
    (hp : g'.pool = g.pool) (hb : g'.brk = g.brk) : Ages g g' :=
  ⟨fun p h => Or.inl (hl p h), fun _ h => Or.inl (hp ▸ h), hb.ge⟩

theorem Ages.stage_le {g g' : KData} (hg : KInv g) (h : Ages g g') (p : Ptr) :
    g.stage p ≤ g'.stage p := by
  have hbrk := h.brk
  have hl := h.linked p
  have hq := h.pool p
  have hlt : p ∈ g.pool → p < g.brk := fun hp => by
    obtain ⟨-, e, he, -⟩ := hg.pool.queued p hp
    exact (hg.pool.alloc p (by rw [he]; simp)).1
  have hlt' : p ∈ g.linked → p < g.brk := hg.lt_brk
  unfold KData.stage
  grind

/-! ## The hash table -/

/-- `entry_eq` decides on every linked entry. -/
theorem DbInv.decides {g : KData} (h : DbInv g) (key : Bytes) (hcode : UInt64) :
    Decides (entryEq g key) (fun n => (g.at n.owner).key = key) hcode g.db.nodes := by
  intro n hn _
  refine ⟨(g.at n.owner).key == key, ?_, beq_iff_eq⟩
  unfold entryEq
  rw [Store.load_of (h.node n hn).1, ok_bind]

theorem DbInv.find_of_answer {g : KData} (h : DbInv g) {key : Bytes} {r : Option (HNode Ptr)}
    (ha : Answer g.db.nodes (fun n => (g.at n.owner).key = key) (strHash key) r) :
    r.map HNode.owner = g.find key := by
  cases r with
  | some n =>
    exact (h.find_eq_some.mpr ⟨List.mem_map_of_mem ha.1, ha.2.2⟩).symm
  | none =>
    refine (find_eq_none.mpr fun p hp hk => ?_).symm
    obtain ⟨n, hn, rfl⟩ := List.mem_map.mp hp
    exact ha n hn (by rw [(h.node n hn).2.1, hk]) hk

theorem DbInv.of_perm {g : KData} (h : DbInv g) {db : HMap Ptr} (hi : db.Inv)
    (hp : db.nodes.Perm g.db.nodes) : DbInv { g with db := db } := by
  have hlinked : ({ g with db := db } : KData).linked.Perm g.linked := hp.map _
  exact ⟨hi, hlinked.nodup_iff.mpr h.nodup, fun n hn => h.node n (hp.mem_iff.mp hn),
    fun p hp q hq => h.keys p (hlinked.mem_iff.mp hp) q (hlinked.mem_iff.mp hq)⟩

/-- The layout of the table does not matter. -/
theorem KInv.relayout {g : KData} (h : KInv g) {db : HMap Ptr} (hi : db.Inv)
    (hp : db.nodes.Perm g.db.nodes) : KInv { g with db := db } ∧
      (∀ k, ({ g with db := db } : KData).find k = g.find k) ∧ Ages g { g with db := db } := by
  have hdb := h.db.of_perm hi hp
  have hmem : ∀ p, p ∈ ({ g with db := db } : KData).linked ↔ p ∈ g.linked := fun p =>
    (hp.map HNode.owner).mem_iff
  refine ⟨⟨hdb, ⟨h.ttl.ok, fun t ht => (hmem _).mpr (h.ttl.owned t ht),
    fun p hp => h.ttl.idle p ((hmem p).mp hp)⟩, h.pool.nodup, fun p hp => ?_, fun p hp => ?_⟩,
    fun k => find_congr h.db hdb fun p => ?_, Ages.of_subset (fun p => (hmem p).mp) rfl rfl⟩
  · exact ⟨fun hm => (h.pool.queued p hp).1 ((hmem p).mp hm), (h.pool.queued p hp).2⟩
  · rw [hmem]
    exact h.pool.alloc p hp
  · rw [hmem]
    rfl

/-- A lookup finds the entry of the key, and changes nothing but the layout of the table. -/
theorem dbLookup_spec {g : KData} (h : KInv g) (key : Bytes) :
    ∃ db, dbLookup g key = .ok ({ g with db := db }, g.find key) ∧ db.Inv ∧
      db.nodes.Perm g.db.nodes := by
  obtain ⟨db, r, hrun, hmig, ha⟩ := hmLookup_spec h.db.inv (h.db.decides key (strHash key))
  refine ⟨db, ?_, hmig.inv, hmig.perm⟩
  unfold dbLookup
  rw [hrun, ok_bind, ← h.db.find_of_answer ha]

/-! ## The heap of timers -/

theorem mem_refs_of_idx {heap : Heap Ptr} {S : Ptr → Prop} (h : TtlInv heap S) {p : Ptr}
    (hp : S p) {i : Nat} (hi : heap.idx p = some i) :
    ∃ t, heap.a[i]? = some t ∧ t.ref = p := by
  have hmem : p ∈ refs heap.a := by
    by_contra hne
    rw [h.idle p hp hne] at hi
    cases hi
  obtain ⟨t, ht, rfl⟩ := mem_refs.mp hmem
  obtain ⟨j, hj⟩ := List.getElem?_of_mem ht
  have := h.ok.back j t hj
  rw [hi] at this
  cases this
  exact ⟨t, hj, rfl⟩

/-- The expiry time of an entry: the value of its heap item. -/
def expiryOf (heap : Heap Ptr) (p : Ptr) : Option UInt64 :=
  match heap.idx p with
  | some i => heap.a[i]?.map (·.val)
  | none => none

theorem TtlInv.expiry_eq_some {heap : Heap Ptr} {S : Ptr → Prop} (h : TtlInv heap S) {p : Ptr}
    (hp : S p) {v : UInt64} : expiryOf heap p = some v ↔ (⟨v, p⟩ : HeapItem Ptr) ∈ heap.a := by
  unfold expiryOf
  constructor
  · intro hv
    cases hi : heap.idx p with
    | none =>
      rw [hi] at hv
      cases hv
    | some i =>
      obtain ⟨t, ht, rfl⟩ := mem_refs_of_idx h hp hi
      rw [hi] at hv
      simp only [ht, Option.map_some, Option.some.injEq] at hv
      rw [← hv]
      exact List.mem_of_getElem? ht
  · intro hm
    obtain ⟨i, hi⟩ := List.getElem?_of_mem hm
    rw [h.ok.back i _ hi]
    simp [hi]

/-- The expiry of an entry depends on the items that refer to it. -/
theorem expiryOf_congr {heap heap' : Heap Ptr} {S S' : Ptr → Prop} (h : TtlInv heap S)
    (h' : TtlInv heap' S') {p : Ptr} (hp : S p) (hp' : S' p)
    (hsame : ∀ v, (⟨v, p⟩ : HeapItem Ptr) ∈ heap'.a ↔ (⟨v, p⟩ : HeapItem Ptr) ∈ heap.a) :
    expiryOf heap' p = expiryOf heap p :=
  Option.ext fun v => by rw [h'.expiry_eq_some hp', h.expiry_eq_some hp, hsame]

theorem TtlInv.mono {heap : Heap Ptr} {S T : Ptr → Prop} (h : TtlInv heap S)
    (hsub : ∀ p, T p → S p) (hown : ∀ t ∈ heap.a, T t.ref) : TtlInv heap T :=
  ⟨h.ok, hown, fun p hp => h.idle p (hsub p hp)⟩

theorem not_mem_refs_of_idx {heap : Heap Ptr} (h : HeapOk heap) {p : Ptr}
    (hi : heap.idx p = none) : p ∉ refs heap.a := by
  intro hm
  obtain ⟨s, hs, rfl⟩ := mem_refs.mp hm
  obtain ⟨j, hj⟩ := List.getElem?_of_mem hs
  rw [h.back j s hj] at hi
  cases hi

/-- No two items of a heap refer to one cell. -/
theorem mem_eraseIdx_iff {heap : Heap Ptr} (h : HeapOk heap) {i : Nat} {t : HeapItem Ptr}
    (ht : heap.a[i]? = some t) (s : HeapItem Ptr) :
    s ∈ heap.a.eraseIdx i ↔ s ∈ heap.a ∧ s.ref ≠ t.ref := by
  obtain ⟨hlt, hget⟩ := List.getElem?_eq_some_iff.mp ht
  have hperm : heap.a.Perm (t :: heap.a.eraseIdx i) := by
    rw [← hget]
    exact (List.getElem_cons_eraseIdx_perm hlt).symm
  have hout : t.ref ∉ refs (heap.a.eraseIdx i) :=
    (List.nodup_cons.mp ((refs_perm hperm).nodup_iff.mp h.back.nodup)).1
  rw [hperm.mem_iff, List.mem_cons]
  constructor
  · intro hs
    exact ⟨Or.inr hs, fun he => hout (he ▸ mem_refs.mpr ⟨s, hs, rfl⟩)⟩
  · rintro ⟨rfl | hs, hne⟩
    · exact absurd rfl hne
    · exact hs

/-- Removing the item of an entry. -/
theorem heapClear_spec {heap : Heap Ptr} {S : Ptr → Prop} (h : TtlInv heap S) {p : Ptr} (hp : S p)
    {i : Nat} (hi : heap.idx p = some i) :
    ∃ heap', heapDelete heap i = .ok heap' ∧
      TtlInv { heap' with idx := Function.update heap'.idx p none } S ∧
      ∀ t, t ∈ heap'.a ↔ t ∈ heap.a ∧ t.ref ≠ p := by
  obtain ⟨t, ht, rfl⟩ := mem_refs_of_idx h hp hi
  obtain ⟨heap', hrun, hr⟩ := heapDelete_spec h.ok (List.getElem?_eq_some_iff.mp ht).1
  have hmem : ∀ s, s ∈ heap'.a ↔ s ∈ heap.a ∧ s.ref ≠ t.ref := fun s => by
    rw [hr.perm.mem_iff, mem_eraseIdx_iff h.ok ht]
  refine ⟨heap', hrun,
    ⟨⟨hr.ok.order, fun j s hs => ?_⟩, fun s hs => ?_, fun q hq hnone => ?_⟩, hmem⟩
  · have hne : s.ref ≠ t.ref := ((hmem s).mp (List.mem_of_getElem? hs)).2
    exact (Function.update_of_ne hne _ _).trans (hr.ok.back j s hs)
  · exact h.owned s ((hmem s).mp hs).1
  · dsimp only at hnone ⊢
    by_cases hqt : q = t.ref
    · rw [hqt, Function.update_self]
    · rw [Function.update_of_ne hqt, hr.frame q fun hm =>
        hnone ((refs_perm hr.perm).mem_iff.mpr hm)]
      refine h.idle q hq fun hm => hnone ?_
      obtain ⟨s, hs, rfl⟩ := mem_refs.mp hm
      exact mem_refs.mpr ⟨s, (hmem s).mpr ⟨hs, hqt⟩, rfl⟩

/-- Setting the item of an entry. -/
theorem heapSet_spec {heap : Heap Ptr} {S : Ptr → Prop} (h : TtlInv heap S) {p : Ptr} (hp : S p)
    (v : UInt64) :
    ∃ heap', heapUpsert heap (heap.idx p) ⟨v, p⟩ = .ok heap' ∧ TtlInv heap' S ∧
      ∀ t, t ∈ heap'.a ↔ t = ⟨v, p⟩ ∨ (t ∈ heap.a ∧ t.ref ≠ p) := by
  -- Replacing and appending leave the same items, and write cells of these items only.
  obtain ⟨heap', hrun, hok, hmem, hframe⟩ : ∃ heap',
      heapUpsert heap (heap.idx p) ⟨v, p⟩ = .ok heap' ∧ HeapOk heap' ∧
      (∀ t, t ∈ heap'.a ↔ t = ⟨v, p⟩ ∨ (t ∈ heap.a ∧ t.ref ≠ p)) ∧
      ∀ q, q ≠ p → q ∉ refs heap.a → heap'.idx q = heap.idx q := by
    cases hi : heap.idx p with
    | some i =>
      obtain ⟨t, ht, rfl⟩ := mem_refs_of_idx h hp hi
      obtain ⟨heap', hrun, hr⟩ := heapUpsert_replace h.ok (t := ⟨v, t.ref⟩) ht rfl
      exact ⟨heap', hrun, hr.ok, fun s => by
        rw [hr.perm.mem_iff, List.mem_cons, mem_eraseIdx_iff h.ok ht], fun q _ hq => hr.frame q hq⟩
    | none =>
      have hnew := not_mem_refs_of_idx h.ok hi
      obtain ⟨heap', hrun, hr⟩ :=
        heapUpsert_append h.ok none (by simp) (t := ⟨v, p⟩) hnew
      refine ⟨heap', hrun, hr.ok, fun s => ?_, fun q hqp hq => hr.frame q fun hm => ?_⟩
      · rw [hr.perm.mem_iff, List.mem_cons]
        exact or_congr_right ⟨fun hs => ⟨hs, fun he => hnew (he ▸ mem_refs.mpr ⟨s, hs, rfl⟩)⟩,
          And.left⟩
      · rcases List.mem_cons.mp hm with he | hm
        · exact hqp he
        · exact hq hm
  refine ⟨heap', hrun, ⟨hok, fun s hs => ?_, fun q hq hnone => ?_⟩, hmem⟩
  · rcases (hmem s).mp hs with rfl | hs
    · exact hp
    · exact h.owned s hs.1
  · have hqp : q ≠ p := fun he =>
      hnone (he ▸ mem_refs.mpr ⟨⟨v, p⟩, (hmem _).mpr (Or.inl rfl), rfl⟩)
    have hq' : q ∉ refs heap.a := fun hm => by
      obtain ⟨s, hs, rfl⟩ := mem_refs.mp hm
      exact hnone (mem_refs.mpr ⟨s, (hmem s).mpr (Or.inr ⟨hs, hqp⟩), rfl⟩)
    rw [hframe q hqp hq']
    exact h.idle q hq hq'

/-- The expiry a TTL sets: a negative TTL removes it. -/
def ttlExpiry (now : UInt64) (ttlMs : Int64) : Option UInt64 :=
  if ttlMs < 0 then none else some (now + ttlMs.toUInt64)

theorem expiryOf_none {heap : Heap Ptr} {S : Ptr → Prop} (h : TtlInv heap S) {p : Ptr} (hp : S p)
    (hnone : p ∉ refs heap.a) : expiryOf heap p = none := by
  simp [expiryOf, h.idle p hp hnone]

/-- `entry_set_ttl` sets the expiry of one entry. -/
theorem entrySetTtl_spec {g : KData} {S : Ptr → Prop} (h : TtlInv g.heap S) {p : Ptr} (hp : S p)
    {e : Entry} (he : g.entry p = some e) (now : UInt64) (ttlMs : Int64) :
    ∃ heap, entrySetTtl g now p ttlMs = .ok { g with heap := heap } ∧ TtlInv heap S ∧
      expiryOf heap p = ttlExpiry now ttlMs ∧
      (∀ t, t.ref ≠ p → (t ∈ heap.a ↔ t ∈ g.heap.a)) ∧ (ttlMs < 0 → p ∉ refs heap.a) := by
  unfold entrySetTtl
  rw [Store.load_of he, ok_bind]
  by_cases hneg : ttlMs < 0
  · have httl : ttlExpiry now ttlMs = none := if_pos hneg
    cases hi : g.heap.idx p with
    | some i =>
      obtain ⟨heap, hrun, hinv, hmem⟩ := heapClear_spec h hp hi
      have hnone : p ∉ refs heap.a := fun hm => by
        obtain ⟨s, hs, rfl⟩ := mem_refs.mp hm
        exact ((hmem s).mp hs).2 rfl
      refine ⟨_, ?_, hinv, (expiryOf_none hinv hp hnone).trans httl.symm, fun t ht => ?_,
        fun _ => hnone⟩
      · dsimp only
        rw [if_pos hneg, hrun, ok_bind]
      · rw [hmem]
        exact and_iff_left ht
    | none =>
      have hnone := not_mem_refs_of_idx h.ok hi
      exact ⟨g.heap, if_pos hneg, h, (expiryOf_none h hp hnone).trans httl.symm,
        fun _ _ => Iff.rfl, fun _ => hnone⟩
  · have httl : ttlExpiry now ttlMs = some (now + ttlMs.toUInt64) := if_neg hneg
    obtain ⟨heap, hrun, hinv, hmem⟩ := heapSet_spec h hp (now + ttlMs.toUInt64)
    refine ⟨heap, ?_, hinv, ?_, fun t ht => ?_, fun hlt => absurd hlt hneg⟩
    · cases hi : g.heap.idx p <;> rw [hi] at hrun <;> dsimp only <;>
        rw [if_neg hneg, hrun, ok_bind]
    · rw [httl, hinv.expiry_eq_some hp, hmem]
      exact Or.inl rfl
    · rw [hmem]
      constructor
      · rintro (rfl | ht')
        · exact absurd rfl ht
        · exact ht'.1
      · exact fun ht' => Or.inr ⟨ht', ht⟩

/-! ## Entries -/

/-- Assigning to the value of a linked entry. -/
theorem KInv.write {g : KData} (h : KInv g) {p : Ptr} (hp : p ∈ g.linked) {e : Entry}
    (hkey : e.key = (g.at p).key) (hok : EntryOk e) :
    KInv { g with entry := g.entry.write p e } ∧
      ∀ k, ({ g with entry := g.entry.write p e } : KData).find k = g.find k := by
  set g' : KData := { g with entry := g.entry.write p e } with hg'
  have hat : ∀ q, q ≠ p → g'.entry q = g.entry q := fun q hq => Store.write_other _ _ hq
  have hatp : g'.entry p = some e := Store.write_same _ _ _
  have hkeys : ∀ q, (g'.at q).key = (g.at q).key := fun q => by
    by_cases hq : q = p
    · rw [hq, KData.at_of hatp, hkey]
    · rw [KData.at, hat q hq, KData.at]
  have hdb : DbInv g' := by
    refine ⟨h.db.inv, h.db.nodup, fun n hn => ?_, fun q hq r hr he => ?_⟩
    · obtain ⟨h1, h2, h3⟩ := h.db.node n hn
      rw [hkeys]
      by_cases hnp : n.owner = p
      · rw [hnp, hatp, KData.at_of hatp]
        exact ⟨rfl, hnp ▸ h2, hok⟩
      · rw [hat _ hnp, KData.at, hat _ hnp]
        exact ⟨h1, h2, h3⟩
    · rw [hkeys, hkeys] at he
      exact h.db.keys q hq r hr he
  refine ⟨⟨hdb, h.ttl, h.pool.nodup, fun q hq => ?_, fun q hq => ?_⟩,
    fun k => find_congr h.db hdb fun q => by rw [hkeys]; rfl⟩
  · obtain ⟨hout, e', he', hok'⟩ := h.pool.queued q hq
    have hqp : q ≠ p := fun he => hout (he ▸ hp)
    exact ⟨hout, e', (hat q hqp).trans he', hok'⟩
  · by_cases hqp : q = p
    · rw [hqp]
      exact ⟨(h.pool.alloc p (by rw [(h.db.entry_at hp).1]; simp)).1, Or.inl hp⟩
    · rw [hat q hqp] at hq
      exact h.pool.alloc q hq

/-- What linking a new entry does. -/
structure Inserted (g g' : KData) (e : Entry) : Prop where
  inv : KInv g'
  fresh : g.brk ∉ g.linked
  entry : g'.entry = g.entry.write g.brk e
  find : ∀ k, g'.find k = if k = e.key then some g.brk else g.find k
  new : expiryOf g'.heap g.brk = none
  expiry : ∀ q ∈ g.linked, expiryOf g'.heap q = expiryOf g.heap q
  ages : Ages g g'

theorem dbInsert_spec {g : KData} (h : KInv g) {type : ValueType} (ht : type ≠ .init)
    {key : Bytes} (hnone : g.find key = none) (str : Bytes) :
    ∃ g', dbInsert g type key str = .ok (g', g.brk) ∧
      Inserted g g' { hcode := strHash key, key := key, type := type, str := str } := by
  obtain ⟨db, hrun, hinv, hperm⟩ := hmInsert_spec h.db.inv ⟨g.brk, strHash key⟩
  set e : Entry := { hcode := strHash key, key := key, type := type, str := str } with he
  set g' : KData := { (entryNew g type key str).1 with db := db } with hg'
  have hnew : g.brk ∉ g.linked := fun hm => lt_irrefl _ (h.lt_brk hm)
  have hne : ∀ q ∈ g.linked, q ≠ g.brk := fun q hq heq => hnew (heq ▸ hq)
  have hat : ∀ q, q ≠ g.brk → g'.entry q = g.entry q := fun q hq => Store.write_other _ _ hq
  have hatn : g'.entry g.brk = some e := Store.write_same _ _ _
  have hlinked : g'.linked.Perm (g.brk :: g.linked) := hperm.map _
  have hmem : ∀ q, q ∈ g'.linked ↔ q = g.brk ∨ q ∈ g.linked := fun q => by
    rw [hlinked.mem_iff, List.mem_cons]
  have hkey : ∀ q ∈ g.linked, (g'.at q).key = (g.at q).key := fun q hq => by
    rw [KData.at, hat q (hne q hq), KData.at]
  have hkeyn : (g'.at g.brk).key = key := by rw [KData.at_of hatn]
  have hdb : DbInv g' := by
    refine ⟨hinv, hlinked.nodup_iff.mpr (List.nodup_cons.mpr ⟨hnew, h.db.nodup⟩), fun n hn => ?_,
      fun q hq r hr heq => ?_⟩
    · rcases List.mem_cons.mp (hperm.mem_iff.mp hn) with rfl | hn
      · dsimp only
        rw [KData.at_of hatn]
        exact ⟨hatn, rfl, EntryOk.new ht key str⟩
      · have hnl : n.owner ∈ g.linked := List.mem_map_of_mem hn
        rw [hkey _ hnl, hat _ (hne _ hnl), KData.at, hat _ (hne _ hnl)]
        exact h.db.node n hn
    · have hother : ∀ s ∈ g.linked, (g.at s).key ≠ key := find_eq_none.mp hnone
      rcases (hmem q).mp hq with hq | hq <;> rcases (hmem r).mp hr with hr | hr
      · rw [hq, hr]
      · rw [hq, hkeyn, hkey r hr] at heq
        exact absurd heq.symm (hother r hr)
      · rw [hr, hkeyn, hkey q hq] at heq
        exact absurd heq (hother q hq)
      · rw [hkey q hq, hkey r hr] at heq
        exact h.db.keys q hq r hr heq
  have hidx : ∀ q, q ≠ g.brk → g'.heap.idx q = g.heap.idx q := fun q hq =>
    Function.update_of_ne hq _ _
  have hidxn : g'.heap.idx g.brk = none := Function.update_self ..
  have hexp : ∀ q, q ≠ g.brk → expiryOf g'.heap q = expiryOf g.heap q := fun q hq => by
    simp only [expiryOf, hidx q hq]
    rfl
  have hown : ∀ t ∈ g'.heap.a, t.ref ∈ g.linked := h.ttl.owned
  refine ⟨g', ?_, ⟨⟨hdb, ⟨⟨h.ttl.ok.order, fun i t hi => ?_⟩, fun t ht => ?_, fun q hq hq' => ?_⟩,
    h.pool.nodup, fun q hq => ?_, fun q hq => ?_⟩, hnew, rfl, fun k => ?_, ?_,
    fun q hq => hexp q (hne q hq), fun q hq => ?_, fun _ => Or.inl, Nat.le_succ _⟩⟩
  · unfold dbInsert
    dsimp only [entryNew]
    rw [hrun, ok_bind]
    rfl
  · rw [hidx _ (hne _ (hown t (List.mem_of_getElem? hi)))]
    exact h.ttl.ok.back i t hi
  · exact (hmem _).mpr (Or.inr (hown t ht))
  · rcases (hmem q).mp hq with rfl | hq
    · exact hidxn
    · rw [hidx q (hne q hq)]
      exact h.ttl.idle q hq hq'
  · obtain ⟨hout, e', he', hok'⟩ := h.pool.queued q hq
    have hqn : q ≠ g.brk := by
      rintro rfl
      exact lt_irrefl _ (h.pool.alloc _ (by rw [he']; simp)).1
    refine ⟨fun hm => ?_, e', (hat q hqn).trans he', hok'⟩
    rcases (hmem q).mp hm with he | hm
    · exact hqn he
    · exact hout hm
  · by_cases hqn : q = g.brk
    · rw [hqn]
      exact ⟨Nat.lt_succ_self _, Or.inl ((hmem _).mpr (Or.inl rfl))⟩
    · rw [hat q hqn] at hq
      obtain ⟨hlt, hin⟩ := h.pool.alloc q hq
      exact ⟨Nat.lt_succ_of_lt hlt, hin.imp_left fun hm => (hmem q).mpr (Or.inr hm)⟩
  · by_cases hk : k = key
    · rw [if_pos hk, hdb.find_eq_some, hmem, hkeyn]
      exact ⟨Or.inl rfl, hk.symm⟩
    · rw [if_neg hk]
      refine find_congr h.db hdb fun q => ?_
      rw [hmem]
      constructor
      · rintro ⟨rfl | hq, hq'⟩
        · exact absurd (hq'.symm.trans hkeyn) hk
        · exact ⟨hq, hkey q hq ▸ hq'⟩
      · rintro ⟨hq, hq'⟩
        exact ⟨Or.inr hq, (hkey q hq).trans hq'⟩
  · simp [expiryOf, hidxn]
  · exact ((hmem q).mp hq).symm.imp_right fun he => he.ge

/-! ## Destruction -/

/-- The entry `p` has been taken out of the hash table, and nothing else has happened to it. -/
structure Unlinked (g : KData) (p : Ptr) : Prop where
  db : DbInv g
  out : p ∉ g.linked
  alloc : ∃ e, g.entry p = some e ∧ EntryOk e
  ttl : TtlInv g.heap fun q => q = p ∨ q ∈ g.linked
  pool : PoolInv g fun q => q = p ∨ q ∈ g.linked

/-- Taking a node out of the hash table. -/
theorem unlink_spec {g : KData} (h : KInv g) {db : HMap Ptr} (hi : db.Inv) {n : HNode Ptr}
    (hp : g.db.nodes.Perm (n :: db.nodes)) :
    Unlinked { g with db := db } n.owner ∧
      (∀ q, q ∈ ({ g with db := db } : KData).linked ↔ q ∈ g.linked ∧ q ≠ n.owner) ∧
      ∀ k, ({ g with db := db } : KData).find k =
        if k = (g.at n.owner).key then none else g.find k := by
  set g' : KData := { g with db := db } with hg'
  have hlinked : g.linked.Perm (n.owner :: g'.linked) := hp.map _
  obtain ⟨hout, hnodup⟩ := List.nodup_cons.mp (hlinked.nodup_iff.mp h.db.nodup)
  have hmem : ∀ q, q ∈ g'.linked ↔ q ∈ g.linked ∧ q ≠ n.owner := fun q => by
    rw [hlinked.mem_iff, List.mem_cons]
    constructor
    · exact fun hq => ⟨Or.inr hq, fun he => hout (he ▸ hq)⟩
    · rintro ⟨he | hq, hne⟩
      · exact absurd he hne
      · exact hq
  have hmem' : ∀ q, (q = n.owner ∨ q ∈ g'.linked) ↔ q ∈ g.linked := fun q => by
    rw [hlinked.mem_iff, List.mem_cons]
  have hnl : n.owner ∈ g.linked := (hmem' _).mp (Or.inl rfl)
  have hdb : DbInv g' :=
    ⟨hi, hnodup, fun m hm => h.db.node m (hp.mem_iff.mpr (List.mem_cons_of_mem _ hm)),
      fun q hq r hr => h.db.keys q ((hmem q).mp hq).1 r ((hmem r).mp hr).1⟩
  refine ⟨⟨hdb, hout, ⟨_, h.db.entry_at hnl⟩, ?_, ?_⟩, hmem, fun k => ?_⟩
  · exact ⟨h.ttl.ok, fun t ht => (hmem' _).mpr (h.ttl.owned t ht),
      fun q hq => h.ttl.idle q ((hmem' q).mp hq)⟩
  · exact ⟨h.pool.nodup, fun q hq => ⟨fun hm => (h.pool.queued q hq).1 ((hmem' q).mp hm),
      (h.pool.queued q hq).2⟩, fun q hq => by
        rw [hmem']
        exact h.pool.alloc q hq⟩
  · by_cases hk : k = (g.at n.owner).key
    · rw [if_pos hk]
      refine find_eq_none.mpr fun q hq he => ?_
      obtain ⟨hql, hqn⟩ := (hmem q).mp hq
      exact hqn (h.db.keys q hql _ hnl (he.trans hk))
    · rw [if_neg hk]
      refine find_congr h.db hdb fun q => ?_
      rw [hmem]
      constructor
      · exact fun hq => ⟨hq.1.1, hq.2⟩
      · rintro ⟨hq, hq'⟩
        exact ⟨⟨hq, fun he => hk (by rw [← hq', he])⟩, hq'⟩

/-- Freeing an entry that is not linked. -/
theorem DbInv.free {g : KData} (h : DbInv g) {p : Ptr} (hp : p ∉ g.linked) :
    DbInv { g with entry := Function.update g.entry p none } := by
  set g' : KData := { g with entry := Function.update g.entry p none } with hg'
  have hentry : ∀ q ∈ g.linked, g'.entry q = g.entry q := fun q hq =>
    Function.update_of_ne (fun he : q = p => hp (he ▸ hq)) _ _
  have hat : ∀ q ∈ g.linked, g'.at q = g.at q := fun q hq => by
    rw [KData.at, hentry q hq, KData.at]
  refine ⟨h.inv, h.nodup, fun n hn => ?_, fun q hq r hr he => ?_⟩
  · have hn' : n.owner ∈ g.linked := List.mem_map_of_mem hn
    rw [hat _ hn', hentry _ hn']
    exact h.node n hn
  · rw [hat q hq, hat r hr] at he
    exact h.keys q hq r hr he

theorem entryDelSync_spec {g : KData} {p : Ptr} {e : Entry} (he : g.entry p = some e)
    (hok : EntryOk e) :
    entryDelSync g p = .ok { g with entry := Function.update g.entry p none } := by
  unfold entryDelSync
  rw [Store.load_of he, ok_bind]
  by_cases ht : e.type = .zset
  · obtain ⟨t, hz⟩ := hok.zset
    obtain ⟨z', hrun, -⟩ := zsetClear_spec hz
    rw [if_pos ht, hrun, ok_bind, Store.free_of he, ok_bind]
  · rw [if_neg ht, Store.free_of he, ok_bind]

/-- What destroying the unlinked entry `p` does: it is freed, or queued once. -/
structure Destroyed (g g' : KData) (p : Ptr) : Prop where
  inv : KInv g'
  db : g'.db = g.db
  brk : g'.brk = g.brk
  entry : ∀ q, q ≠ p → g'.entry q = g.entry q
  fate : (g'.entry p = none ∧ g'.pool = g.pool) ∨
    (g'.entry p = g.entry p ∧ g'.pool = g.pool ++ [p])
  items : ∀ t, t ∈ g'.heap.a ↔ t ∈ g.heap.a ∧ t.ref ≠ p
  expiry : ∀ q ∈ g.linked, expiryOf g'.heap q = expiryOf g.heap q

/-- `entry_del` destroys an entry that is no longer in the hash table. -/
theorem entryDel_spec {g : KData} {p : Ptr} (h : Unlinked g p) :
    ∃ g', entryDel g p = .ok g' ∧ Destroyed g g' p := by
  obtain ⟨e, he, hok⟩ := h.alloc
  obtain ⟨heap, hrun, httl, -, hitems, hgone⟩ :=
    entrySetTtl_spec h.ttl (Or.inl rfl) he 0 (-1)
  have hgone : p ∉ refs heap.a := hgone (by decide)
  have hne : ∀ t ∈ heap.a, t.ref ≠ p := fun t ht hr => hgone (hr ▸ mem_refs.mpr ⟨t, ht, rfl⟩)
  have hitems' : ∀ t, t ∈ heap.a ↔ t ∈ g.heap.a ∧ t.ref ≠ p := fun t => by
    by_cases ht : t.ref = p
    · exact ⟨fun hm => absurd ht (hne t hm), fun hm => absurd ht hm.2⟩
    · rw [hitems t ht]
      exact (and_iff_left ht).symm
  have httl' : TtlInv heap (· ∈ g.linked) :=
    httl.mono (fun _ hq => Or.inr hq) fun t ht =>
      (httl.owned t ht).resolve_left (hne t ht)
  have hexp : ∀ q ∈ g.linked, expiryOf heap q = expiryOf g.heap q := fun q hq =>
    expiryOf_congr h.ttl httl' (Or.inr hq) hq fun v => hitems _ fun hqp => h.out (hqp ▸ hq)
  have hpool : ∀ q ∈ g.pool, q ≠ p ∧ q ∉ g.linked := fun q hq =>
    ⟨fun hqp => (h.pool.queued q hq).1 (Or.inl hqp),
      fun hl => (h.pool.queued q hq).1 (Or.inr hl)⟩
  have hload : ({ g with heap := heap } : KData).entry.load p = .ok e := Store.load_of he
  have hdb : ∀ pool, DbInv { g with heap := heap, pool := pool } := fun _ =>
    ⟨h.db.inv, h.db.nodup, h.db.node, h.db.keys⟩
  unfold entryDel
  rw [hrun, ok_bind, hload, ok_bind]
  dsimp only
  by_cases hlarge : (if e.type = .zset then hmSize e.zset.hmap else 0) > kLargeContainerSize
  · -- Large: handed to the thread pool.
    rw [if_pos hlarge]
    refine ⟨_, rfl, ⟨hdb _, httl', ?_, fun q hq => ?_, fun q hq => ?_⟩, rfl, rfl,
      fun _ _ => rfl, Or.inr ⟨rfl, rfl⟩, hitems', hexp⟩
    · refine List.nodup_append.mpr ⟨h.pool.nodup, List.nodup_singleton p, fun q hq r hr => ?_⟩
      rw [List.mem_singleton.mp hr]
      exact (hpool q hq).1
    · rcases List.mem_append.mp hq with hq | hq
      · exact ⟨(hpool q hq).2, (h.pool.queued q hq).2⟩
      · rw [List.mem_singleton.mp hq]
        exact ⟨h.out, e, he, hok⟩
    · obtain ⟨hlt, (rfl | hl) | hq⟩ := h.pool.alloc q hq
      · exact ⟨hlt, Or.inr (List.mem_append_right _ (List.mem_singleton_self _))⟩
      · exact ⟨hlt, Or.inl hl⟩
      · exact ⟨hlt, Or.inr (List.mem_append_left _ hq)⟩
  · rw [if_neg hlarge]
    have hfree : ∀ q, q ≠ p → Function.update g.entry p none q = g.entry q := fun q hq =>
      Function.update_of_ne hq _ _
    have hfreed := h.db.free h.out
    refine ⟨_, entryDelSync_spec (g := { g with heap := heap }) he hok,
      ⟨⟨hfreed.1, hfreed.2, hfreed.3, hfreed.4⟩, httl', h.pool.nodup, fun q hq => ?_,
        fun q hq => ?_⟩,
      rfl, rfl, hfree, Or.inl ⟨Function.update_self .., rfl⟩, hitems', hexp⟩
    · obtain ⟨-, e', he', hok'⟩ := h.pool.queued q hq
      exact ⟨(hpool q hq).2, e', (hfree q (hpool q hq).1).trans he', hok'⟩
    · dsimp only at hq
      have hqp : q ≠ p := by
        rintro rfl
        exact hq (Function.update_self ..)
      rw [hfree q hqp] at hq
      obtain ⟨hlt, (hqp' | hl) | hq⟩ := h.pool.alloc q hq
      · exact absurd hqp' hqp
      · exact ⟨hlt, Or.inl hl⟩
      · exact ⟨hlt, Or.inr hq⟩

/-- A large sorted set is left to the workers. -/
theorem entryDel_queues {g g' : KData} {p : Ptr} {e : Entry} (h : Unlinked g p)
    (he : g.entry p = some e) (htype : e.type = .zset)
    (hlarge : kLargeContainerSize < hmSize e.zset.hmap) (hrun : entryDel g p = .ok g') :
    g'.pool = g.pool ++ [p] := by
  obtain ⟨heap, hset, -⟩ := entrySetTtl_spec h.ttl (Or.inl rfl) he 0 (-1)
  have hload : ({ g with heap := heap } : KData).entry.load p = .ok e := Store.load_of he
  rw [entryDel, hset, ok_bind, hload, ok_bind] at hrun
  dsimp only at hrun
  rw [if_pos htype, if_pos hlarge] at hrun
  rw [← Except.ok.inj hrun]

/-- A worker frees the entry at the front of the queue, and nothing else changes. -/
theorem poolWork_spec {g : KData} (h : KInv g) :
    ∃ g', poolWork g = .ok g' ∧ KInv g' ∧ g'.db = g.db ∧ g'.heap = g.heap ∧ g'.brk = g.brk ∧
      g'.pool = g.pool.tail ∧ (∀ q, g'.entry q = if q ∈ g.pool.head? then none else g.entry q) := by
  unfold poolWork
  cases hpool : g.pool with
  | nil => exact ⟨g, rfl, h, rfl, rfl, rfl, hpool, by simp⟩
  | cons p pool =>
    have hp : p ∈ g.pool := hpool ▸ List.mem_cons_self
    obtain ⟨hout, e, he, hok⟩ := h.pool.queued p hp
    have hnodup := List.nodup_cons.mp (hpool ▸ h.pool.nodup)
    have hfree : ∀ q, q ≠ p → Function.update g.entry p none q = g.entry q := fun q hq =>
      Function.update_of_ne hq _ _
    have hfreed := h.db.free hout
    refine ⟨_, entryDelSync_spec (g := { g with pool := pool }) he hok,
      ⟨⟨hfreed.1, hfreed.2, hfreed.3, hfreed.4⟩, h.ttl, hnodup.2, fun q hq => ?_, fun q hq => ?_⟩,
      rfl, rfl, rfl, rfl, fun q => ?_⟩
    · obtain ⟨hq', e', he', hok'⟩ := h.pool.queued q (hpool ▸ List.mem_cons_of_mem _ hq)
      exact ⟨hq', e', (hfree q fun he => hnodup.1 (he ▸ hq)).trans he', hok'⟩
    · dsimp only at hq
      have hqp : q ≠ p := by
        rintro rfl
        exact hq (Function.update_self ..)
      rw [hfree q hqp] at hq
      obtain ⟨hlt, hl | hq⟩ := h.pool.alloc q hq
      · exact ⟨hlt, Or.inl hl⟩
      · rcases List.mem_cons.mp (hpool ▸ hq) with hq | hq
        · exact absurd hq hqp
        · exact ⟨hlt, Or.inr hq⟩
    · by_cases hq : q = p
      · simp [hq]
      · simp [hq, Ne.symm hq]

end Greenis
