/-
  The server's memory stands for a keyspace.

  `Refines g a`: under every key, `g` links an entry exactly when `a` has an item, with the value
  of the entry and the expiry of its heap item. The primitives of the commands act on the two
  sides alike. Every state that keeps the invariant stands for some keyspace (`exists_refines`).
-/
import Greenis.Lib.FiniteMap
import Greenis.Proofs.Keyspace
import Greenis.Proofs.Reply
import Greenis.Spec.Keyspace

namespace Greenis
open CExec BinaryTree

/-- The value of an entry. -/
def Holding (e : Entry) : Value → Prop
  | .str s => e.type = .str ∧ e.str = s
  | .zset m => e.type = .zset ∧ ∃ t, ZInv e.zset t ∧ ∀ name, e.zset.scoreOf t name = m.lookup name

/-- A linked entry for an item, and none for none. -/
def Stands (g : KData) : Option Ptr → Option Item → Prop
  | some p, some item =>
    Holding (g.at p) item.value ∧ (expiryOf g.heap p).map UInt64.toNat = item.expiry
  | none, none => True
  | _, _ => False

structure Refines (g : KData) (a : Keyspace) : Prop where
  inv : KInv g
  stands : ∀ key, Stands g (g.find key) (a.lookup key)

theorem Refines.empty : Refines {} ∅ := ⟨KInv.empty, fun _ => trivial⟩

section Lookups

variable {g g' : KData} {a a' : Keyspace}

theorem Refines.missing (h : Refines g a) {key : Bytes} (hf : g.find key = none) :
    a.lookup key = none := by
  have hs := h.stands key
  rw [hf] at hs
  cases ha : a.lookup key with
  | none => rfl
  | some item =>
    rw [ha] at hs
    cases hs

/-- What is known of the entry of a key. -/
structure Live (g : KData) (a : Keyspace) (key : Bytes) (p : Ptr) (item : Item) : Prop where
  lookup : a.lookup key = some item
  mem : p ∈ g.linked
  key : (g.at p).key = key
  entry : g.entry p = some (g.at p)
  ok : EntryOk (g.at p)
  holding : Holding (g.at p) item.value
  expiry : (expiryOf g.heap p).map UInt64.toNat = item.expiry

theorem Refines.found (h : Refines g a) {key : Bytes} {p : Ptr} (hf : g.find key = some p) :
    ∃ item, Live g a key p item := by
  have hs := h.stands key
  rw [hf] at hs
  obtain ⟨hp, hkey⟩ := h.inv.db.find_eq_some.mp hf
  obtain ⟨he, hok⟩ := h.inv.db.entry_at hp
  cases ha : a.lookup key with
  | none =>
    rw [ha] at hs
    cases hs
  | some item =>
    rw [ha] at hs
    exact ⟨item, ha, hp, hkey, he, hok, hs.1, hs.2⟩

theorem Refines.mem_iff (h : Refines g a) {key : Bytes} :
    key ∈ a ↔ ∃ p, p ∈ g.linked ∧ (g.at p).key = key := by
  constructor
  · intro hk
    obtain ⟨item, ha⟩ := Finmap.mem_iff.mp hk
    cases hf : g.find key with
    | none =>
      rw [h.missing hf] at ha
      cases ha
    | some p => exact ⟨p, h.inv.db.find_eq_some.mp hf⟩
  · rintro ⟨p, hp⟩
    obtain ⟨item, hl⟩ := h.found (h.inv.db.find_eq_some.mpr hp)
    exact Finmap.mem_iff.mpr ⟨item, hl.lookup⟩

/-- What is stored is one value. -/
theorem Holding.unique {e : Entry} {v v' : Value} (h : Holding e v) (h' : Holding e v') : v = v' := by
  cases v with
  | str s =>
    cases v' with
    | str s' => exact congrArg Value.str (h.2.symm.trans h'.2)
    | zset m' => cases h.1.symm.trans h'.1
  | zset m =>
    cases v' with
    | str s' => cases h.1.symm.trans h'.1
    | zset m' =>
      obtain ⟨-, t, ht, hm⟩ := h
      obtain ⟨-, t', ht', hm'⟩ := h'
      refine congrArg Value.zset (Finmap.ext_lookup fun name => ?_)
      rw [← hm, ← hm']
      exact scoreOf_congr ht' ht
        (fun p => and_congr_left fun _ => ht.mem_inorder.trans ht'.mem_inorder.symm) fun _ _ _ => rfl

/-- The memory stands for one keyspace. -/
theorem Refines.unique (h : Refines g a) (h' : Refines g a') : a = a' := by
  refine Finmap.ext_lookup fun key => ?_
  have hs := h.stands key
  have hs' := h'.stands key
  cases ha : a.lookup key with
  | none =>
    rw [ha] at hs
    cases hf : g.find key with
    | none => exact (h'.missing hf).symm
    | some p =>
      rw [hf] at hs
      cases hs
  | some item =>
    cases hf : g.find key with
    | none => rw [ha, hf] at hs; cases hs
    | some p =>
      obtain ⟨item', hl⟩ := h'.found hf
      rw [ha, hf] at hs
      obtain ⟨v, expiry⟩ := item
      obtain ⟨v', expiry'⟩ := item'
      obtain rfl : v = v' := hs.1.unique hl.holding
      obtain rfl : expiry = expiry' := hs.2.symm.trans hl.expiry
      exact hl.lookup.symm

theorem Stands.congr {r : Option Ptr} {i : Option Item} (h : Stands g r i)
    (hsame : ∀ p ∈ r, g'.at p = g.at p ∧ expiryOf g'.heap p = expiryOf g.heap p) :
    Stands g' r i := by
  cases r with
  | none =>
    cases i with
    | none => trivial
    | some item => cases h
  | some p =>
    cases i with
    | none => cases h
    | some item =>
      obtain ⟨hat, hexp⟩ := hsame p rfl
      obtain ⟨hv, he⟩ := h
      exact ⟨hat ▸ hv, hexp ▸ he⟩

/-- A step that touches one key. -/
theorem Refines.update (h : Refines g a) (hinv : KInv g') (key : Bytes)
    (hfind : ∀ k, k ≠ key → g'.find k = g.find k)
    (hlookup : ∀ k, k ≠ key → a'.lookup k = a.lookup k)
    (hsame : ∀ p ∈ g.linked, (g.at p).key ≠ key →
      g'.at p = g.at p ∧ expiryOf g'.heap p = expiryOf g.heap p)
    (hkey : Stands g' (g'.find key) (a'.lookup key)) : Refines g' a' := by
  refine ⟨hinv, fun k => ?_⟩
  by_cases hk : k = key
  · rw [hk]
    exact hkey
  · rw [hfind k hk, hlookup k hk]
    refine (h.stands k).congr fun p hp => ?_
    obtain ⟨hp, hpk⟩ := h.inv.db.find_eq_some.mp hp
    exact hsame p hp (hpk ▸ hk)

/-- A step that leaves the keyspace alone. -/
theorem Refines.keep (h : Refines g a) (hinv : KInv g') (hfind : ∀ k, g'.find k = g.find k)
    (hsame : ∀ p ∈ g.linked, g'.at p = g.at p ∧ expiryOf g'.heap p = expiryOf g.heap p) :
    Refines g' a := by
  refine ⟨hinv, fun k => ?_⟩
  rw [hfind]
  exact (h.stands k).congr fun p hp => hsame p (h.inv.db.find_eq_some.mp hp).1

/-! ## The primitives -/

theorem Refines.relayout (h : Refines g a) {db : HMap Ptr} (hi : db.Inv)
    (hp : db.nodes.Perm g.db.nodes) :
    Refines { g with db := db } a ∧ Ages g { g with db := db } := by
  obtain ⟨hinv, hfind, hages⟩ := h.inv.relayout hi hp
  exact ⟨h.keep hinv hfind fun _ _ => ⟨rfl, rfl⟩, hages⟩

/-- The lookup every command starts with. -/
theorem Refines.lookup (h : Refines g a) (key : Bytes) :
    ∃ g', dbLookup g key = .ok (g', g'.find key) ∧ Refines g' a ∧ Ages g g' := by
  obtain ⟨db, hrun, hi, hp⟩ := dbLookup_spec h.inv key
  refine ⟨{ g with db := db }, ?_, h.relayout hi hp⟩
  rw [hrun, (h.inv.relayout hi hp).2.1]

/-- Assigning a value to the entry of a key. -/
theorem Refines.write (h : Refines g a) {key : Bytes} {p : Ptr} {item : Item}
    (hl : Live g a key p item) {e : Entry} (hkey : e.key = key) (hok : EntryOk e) {v : Value}
    (hv : Holding e v) :
    Refines { g with entry := g.entry.write p e } (a.insert key ⟨v, item.expiry⟩) ∧
      Ages g { g with entry := g.entry.write p e } := by
  obtain ⟨hinv, hfind⟩ := h.inv.write hl.mem (hkey.trans hl.key.symm) hok
  refine ⟨h.update hinv _ (fun k _ => hfind k) (fun k hk => Finmap.lookup_insert_of_ne _ hk)
    (fun q _ hqk => ⟨?_, rfl⟩) ?_, Ages.of_subset (fun _ hp => hp) rfl rfl⟩
  · have hqp : q ≠ p := fun he => hqk (he ▸ hl.key)
    exact congrArg (Option.getD · default) (Store.write_other g.entry e hqp)
  · have hf : g.find key = some p := h.inv.db.find_eq_some.mpr ⟨hl.mem, hl.key⟩
    rw [hfind, hf, Finmap.lookup_insert]
    refine ⟨?_, hl.expiry⟩
    rw [KData.at_of (Store.write_same _ _ _)]
    exact hv

/-- Linking an entry under a new key. -/
theorem Refines.insert (h : Refines g a) {type : ValueType} (ht : type ≠ .init) {key : Bytes}
    (hnone : g.find key = none) (str : Bytes) {v : Value}
    (hv : Holding { hcode := strHash key, key := key, type := type, str := str } v) :
    ∃ g', dbInsert g type key str = .ok (g', g.brk) ∧ Refines g' (a.insert key ⟨v, none⟩) ∧
      Ages g g' ∧ g'.find key = some g.brk := by
  obtain ⟨g', hrun, hins⟩ := dbInsert_spec h.inv ht hnone str
  have hf : g'.find key = some g.brk := (hins.find key).trans (if_pos rfl)
  refine ⟨g', hrun, h.update hins.inv _ (fun k hk => (hins.find k).trans (if_neg hk))
    (fun k hk => Finmap.lookup_insert_of_ne _ hk) (fun q hq _ => ⟨?_, hins.expiry q hq⟩) ?_,
    hins.ages, hf⟩
  · have hqn : q ≠ g.brk := fun he => hins.fresh (he ▸ hq)
    rw [KData.at, hins.entry, Store.write_other _ _ hqn, KData.at]
  · rw [hf, Finmap.lookup_insert]
    refine ⟨?_, by rw [hins.new]; rfl⟩
    rw [KData.at_of (e := { hcode := strHash key, key := key, type := type, str := str })
      (by rw [hins.entry]; exact Store.write_same _ _ _)]
    exact hv

/-- Setting the TTL of the entry of a key, in 64 bits. -/
theorem KInv.setTtl (h : KInv g) {p : Ptr} (hp : p ∈ g.linked) (now : UInt64) (ttlMs : Int64) :
    ∃ g', entrySetTtl g now p ttlMs = .ok g' ∧ KInv g' ∧ Ages g g' ∧
      (∀ k, g'.find k = g.find k) ∧ (∀ q, g'.at q = g.at q) ∧
      expiryOf g'.heap p = ttlExpiry now ttlMs ∧
      ∀ q ∈ g.linked, q ≠ p → expiryOf g'.heap q = expiryOf g.heap q := by
  obtain ⟨heap, hrun, httl, hexp, hother, -⟩ :=
    entrySetTtl_spec h.ttl hp (h.db.entry_at hp).1 now ttlMs
  refine ⟨_, hrun, ⟨⟨h.db.1, h.db.2, h.db.3, h.db.4⟩, httl, h.pool.1, h.pool.2, h.pool.3⟩,
    Ages.of_subset (fun _ hq => hq) rfl rfl, fun _ => rfl, fun _ => rfl, hexp, fun q hq hqp => ?_⟩
  exact expiryOf_congr h.ttl httl hq hq fun v => hother _ hqp

/-- Destroying the entry of a key, after its node has been taken out of the hash table. -/
theorem Refines.destroy (h : Refines g a) {db : HMap Ptr} (hi : db.Inv) {n : HNode Ptr}
    (hperm : g.db.nodes.Perm (n :: db.nodes)) :
    ∃ g', entryDel { g with db := db } n.owner = .ok g' ∧
      Refines g' (a.erase (g.at n.owner).key) ∧ Ages g g' ∧
      ∀ t, t ∈ g'.heap.a ↔ t ∈ g.heap.a ∧ t.ref ≠ n.owner := by
  obtain ⟨hun, hlinked, hfind⟩ := unlink_spec h.inv hi hperm
  obtain ⟨g', hrun, hd⟩ := entryDel_spec hun
  have hlink : g'.linked = ({ g with db := db } : KData).linked := by
    unfold KData.linked
    rw [hd.db]
  have hat : ∀ q, q ≠ n.owner → g'.at q = g.at q := fun q hq => by
    rw [KData.at, hd.entry q hq, KData.at]
  have hmem : ∀ q ∈ g'.linked, q ∈ g.linked ∧ q ≠ n.owner := fun q hq =>
    (hlinked q).mp (hlink ▸ hq)
  have hf : ∀ k, g'.find k = ({ g with db := db } : KData).find k := fun k => by
    refine find_congr hun.db hd.inv.db fun q => ?_
    rw [hlink]
    refine and_congr_right fun hq => ?_
    rw [hat q ((hlinked q).mp hq).2]
    rfl
  have hin : n.owner ∈ g.linked :=
    List.mem_map_of_mem (hperm.mem_iff.mpr List.mem_cons_self)
  refine ⟨g', hrun, h.update hd.inv (g.at n.owner).key (fun k hk => ?_)
    (fun k hk => Finmap.lookup_erase_ne hk) (fun q hq hqk => ?_) ?_,
    ⟨fun q hq => Or.inl (hmem q hq).1, fun q hq => ?_, hd.brk.ge⟩, hd.items⟩
  · rw [hf, hfind, if_neg hk]
  · have hqn : q ≠ n.owner := fun he => hqk (he ▸ rfl)
    exact ⟨hat q hqn, hd.expiry q ((hlinked q).mpr ⟨hq, hqn⟩)⟩
  · rw [hf, hfind, if_pos rfl, Finmap.lookup_erase]
    trivial
  · rcases hd.fate with ⟨-, hp⟩ | ⟨-, hp⟩
    · exact Or.inl (hp ▸ hq)
    · rcases List.mem_append.mp (hp ▸ hq) with hq | hq
      · exact Or.inl hq
      · rw [List.mem_singleton.mp hq]
        exact Or.inr (Or.inl hin)

end Lookups

/-! ## Every state stands for a keyspace -/

theorem exists_scores (z : ZSet) (t : BinaryTree Ptr) :
    ∃ m : Scores, ∀ name, z.scoreOf t name = m.lookup name := by
  obtain ⟨m, hm⟩ := Finmap.exists_lookup_eq (t.inorder.map fun p => (z.at p).name)
    (z.scoreOf t) fun name hne => by
      by_contra hout
      refine hne (scoreOf_eq_none.mpr fun p hp hn => hout ?_)
      exact List.mem_map.mpr ⟨p, hp, hn⟩
  exact ⟨m, fun name => (hm name).symm⟩

theorem exists_value {e : Entry} (h : EntryOk e) : ∃ v, Holding e v := by
  cases ht : e.type with
  | init => exact absurd ht h.type
  | str => exact ⟨.str e.str, ht, rfl⟩
  | zset =>
    obtain ⟨t, hz⟩ := h.zset
    obtain ⟨m, hm⟩ := exists_scores e.zset t
    exact ⟨.zset m, ht, t, hz, hm⟩

theorem exists_refines {g : KData} (h : KInv g) : ∃ a, Refines g a := by
  have hvalue : ∀ p : Ptr, ∃ v, p ∈ g.linked → Holding (g.at p) v := fun p => by
    by_cases hp : p ∈ g.linked
    · obtain ⟨v, hv⟩ := exists_value (h.db.entry_at hp).2
      exact ⟨v, fun _ => hv⟩
    · exact ⟨.str [], fun hm => absurd hm hp⟩
  choose value hvalue using hvalue
  obtain ⟨a, ha⟩ := Finmap.exists_lookup_eq (g.linked.map fun p => (g.at p).key)
    (fun key => (g.find key).map fun p =>
      (⟨value p, (expiryOf g.heap p).map UInt64.toNat⟩ : Item)) fun key hne => by
      cases hf : g.find key with
      | none => exact absurd (by rw [hf]; rfl) hne
      | some p =>
        obtain ⟨hp, rfl⟩ := h.db.find_eq_some.mp hf
        exact List.mem_map_of_mem hp
  refine ⟨a, h, fun key => ?_⟩
  rw [ha]
  cases hf : g.find key with
  | none => trivial
  | some p => exact ⟨hvalue p (h.db.find_eq_some.mp hf).1, rfl⟩

end Greenis
