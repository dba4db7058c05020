/-
  What the server has allocated is what it keeps.

  In every state of a run there are as many entries as keys and deletions that are still queued, as
  many timers as keys with an expiry, as many nodes in a sorted set as members, and as many
  connections as open sockets (`nothing_leaks`). The workers bring the entries down to the keys, and
  the deletion of a sorted set frees all of its nodes.
-/
import Greenis.Lib.Allocation
import Greenis.Proofs.Overdue

namespace Greenis
open CExec LTS BinaryTree

variable {strtod : Strtod}

/-! ## Counts -/

section Keyspaces

variable {g : KData} {a : Keyspace}

theorem Refines.length_linked (h : Refines g a) : a.keys.card = g.linked.length :=
  card_eq_length (fun p => (g.at p).key) h.inv.db.nodup h.inv.db.keys fun _ =>
    Finmap.mem_keys.trans h.mem_iff

/-- The entries in the hash table and those that are queued. -/
theorem Refines.entries (h : Refines g a) :
    g.entry.used.encard = ↑(a.keys.card + g.pool.length) := by
  have hdisj : g.linked.Disjoint g.pool := fun p hp hq => (h.inv.pool.queued p hq).1 hp
  rw [h.length_linked, ← List.length_append]
  refine Store.encard_used (h.inv.db.nodup.append h.inv.pool.nodup hdisj) fun p => ?_
  rw [Store.mem_used, List.mem_append]
  constructor
  · exact fun hp => (h.inv.pool.alloc p hp).2
  · rintro (hp | hp)
    · rw [(h.inv.db.entry_at hp).1]
      exact nofun
    · obtain ⟨-, e, he, -⟩ := h.inv.pool.queued p hp
      rw [he]
      exact nofun

theorem Refines.timed_iff (h : Refines g a) {key : Bytes} :
    (a.expiryAt key).isSome = true ↔ ∃ t ∈ g.heap.a, (g.at t.ref).key = key := by
  rw [h.expiryAt, Option.isSome_map]
  constructor
  · intro hsome
    obtain ⟨v, hv⟩ := Option.isSome_iff_exists.mp hsome
    obtain ⟨p, hp, hexp⟩ := Option.bind_eq_some_iff.mp hv
    obtain ⟨hlinked, hkey⟩ := h.inv.db.find_eq_some.mp hp
    exact ⟨_, (h.inv.ttl.expiry_eq_some hlinked).mp hexp, hkey⟩
  · rintro ⟨t, ht, hkey⟩
    have hlinked := h.inv.ttl.owned t ht
    rw [h.inv.db.find_eq_some.mpr ⟨hlinked, hkey⟩, Option.bind_some,
      (h.inv.ttl.expiry_eq_some hlinked).mpr ht]
    rfl

/-- The items of the heap and the keys with an expiry. -/
theorem Refines.timers (h : Refines g a) :
    g.heap.a.length = (a.keys.filter fun key => (a.expiryAt key).isSome).card := by
  have hn := h.inv.ttl.ok.back.nodup
  refine (card_eq_length (fun t : HeapItem Ptr => (g.at t.ref).key) hn.of_map
    (fun t ht u hu hkey => ?_) fun key => ?_).symm
  · have href := h.inv.db.keys t.ref (h.inv.ttl.owned t ht) u.ref (h.inv.ttl.owned u hu) hkey
    exact List.inj_on_of_nodup_map hn ht hu href
  · rw [Finset.mem_filter, h.timed_iff, Finmap.mem_keys, h.mem_iff]
    constructor
    · exact And.right
    · rintro ⟨t, ht, hkey⟩
      exact ⟨⟨t.ref, h.inv.ttl.owned t ht, hkey⟩, t, ht, hkey⟩

end Keyspaces

/-- The connections and the sockets that are open. -/
theorem Listed.conns_used {g : GData} {ys : List Ptr} (h : Listed g ys) :
    g.conns.used.encard = g.fds.length := by
  have hn := (List.nodup_cons.mp h.ring.nodup).2
  have hat : ∀ {p c}, g.conns p = some c → ((g.conns p).getD default).fd = c.fd := fun hp => by
    rw [hp]
    rfl
  have hcard : g.fds.toFinset.card = ys.length :=
    card_eq_length (fun p => ((g.conns p).getD default).fd) hn (fun p hp q hq hfd => by
      obtain ⟨c, hc⟩ := (h.conn p).mp hp
      obtain ⟨d, hd⟩ := (h.conn q).mp hq
      rw [hat hc, hat hd] at hfd
      exact h.fd_inj hc hd hfd) fun fd => by
      rw [List.mem_toFinset, h.fds]
      constructor
      · rintro ⟨p, hp⟩
        obtain ⟨c, hc, hfd⟩ := (h.entry fd p).mp hp
        exact ⟨p, (h.conn p).mpr ⟨c, hc⟩, (hat hc).trans hfd⟩
      · rintro ⟨p, hp, hfd⟩
        obtain ⟨c, hc⟩ := (h.conn p).mp hp
        exact ⟨p, (h.entry fd p).mpr ⟨c, hc, (hat hc).symm.trans hfd⟩⟩
  rw [← List.toFinset_card_of_nodup h.nodup, hcard]
  refine Store.encard_used hn fun p => ?_
  rw [h.conn, Store.mem_used, Option.ne_none_iff_exists']

/-! ## Runs -/

/-- Freeing an entry frees the nodes of its sorted set. -/
theorem EntryOk.clears {e : Entry} (h : EntryOk e) :
    ∃ z, zsetClear e.zset = .ok z ∧ z.node.used = ∅ := by
  obtain ⟨t, hz⟩ := h.zset
  obtain ⟨z, hrun, -, hnone⟩ := zsetClear_spec hz
  exact ⟨z, hrun, Set.eq_empty_of_forall_notMem fun p hp => hp (hnone p)⟩

theorem KInv.entry_ok {g : KData} (h : KInv g) {p : Ptr} {e : Entry} (he : g.entry p = some e) :
    EntryOk e := by
  rcases (h.pool.alloc p (by rw [he]; exact nofun)).2 with hp | hp
  · obtain ⟨he', hok⟩ := h.db.entry_at hp
    exact Option.some.inj (he'.symm.trans he) ▸ hok
  · obtain ⟨-, e', he', hok⟩ := h.pool.queued p hp
    exact Option.some.inj (he'.symm.trans he) ▸ hok

/-- The workers free what is queued, one entry each time. -/
theorem run_works (strtod : Strtod) (phase : Phase) {g : GData} {a : Keyspace}
    (h : Refines g.kv a) :
    ∃ kv, Run (LoopStep strtod) ⟨g, phase⟩ (List.replicate g.kv.pool.length .work)
      ⟨{ g with kv := kv }, phase⟩ ∧ Refines kv a ∧ kv.pool = [] := by
  obtain ⟨n, hn⟩ : ∃ n, g.kv.pool.length = n := ⟨_, rfl⟩
  rw [hn]
  induction n generalizing g with
  | zero => exact ⟨g.kv, .refl _, h, List.length_eq_zero_iff.mp hn⟩
  | succ n ih =>
    obtain ⟨kv, hwork, hkv, -⟩ := poolWork_refines h
    obtain ⟨kv', hwork', -, -, -, -, hpool, -⟩ := poolWork_spec h.inv
    obtain rfl := ok_unique hwork hwork'
    obtain ⟨kv', hrun, hrest⟩ := ih (g := { g with kv := kv }) hkv (by
      show kv.pool.length = n
      rw [hpool, List.length_tail, hn, Nat.add_sub_cancel])
    exact ⟨kv', ((Run.refl _).snoc (.work hwork)).trans hrun, hrest⟩

/-- **Nothing leaks.** In every state that the server reaches, whatever its clients have done, it
    stands for a keyspace, and has allocated an entry for each key and for each deletion that is
    queued, a timer for each key with an expiry, a node for each member of a sorted set, a
    connection for each open socket, and no others. The jobs that are queued leave the entries of
    the keys. An entry that is freed leaves no node behind. -/
theorem nothing_leaks {es : List LoopEvent} {s : LoopState}
    (hrun : Run (LoopStep strtod) {} es s) :
    ∃ a, Refines s.data.kv a ∧ hmSize s.data.kv.db = a.keys.card ∧
      s.data.kv.entry.used.encard = ↑(a.keys.card + s.data.kv.pool.length) ∧
      s.data.kv.heap.a.length = (a.keys.filter fun key => (a.expiryAt key).isSome).card ∧
      s.data.conns.used.encard = s.data.fds.length ∧
      (∀ key m expiry, a.lookup key = some ⟨.zset m, expiry⟩ → ∃ p ∈ s.data.kv.find key,
        (s.data.kv.at p).zset.node.used.encard = m.keys.card ∧
        hmSize (s.data.kv.at p).zset.hmap = m.keys.card) ∧
      (∀ p e, s.data.kv.entry p = some e →
        ∃ z, zsetClear e.zset = .ok z ∧ z.node.used = ∅) ∧
      ∃ kv, Run (LoopStep strtod) s (List.replicate s.data.kv.pool.length .work)
        ⟨{ s.data with kv := kv }, s.phase⟩ ∧ Refines kv a ∧
        kv.entry.used.encard = a.keys.card := by
  obtain ⟨ys, h, -⟩ := run_steady hrun
  obtain ⟨a, ha⟩ := exists_refines h.kv
  refine ⟨a, ha, ?_, ha.entries, ha.timers, h.listed.conns_used, fun key m expiry hkey => ?_,
    fun p e he => (h.kv.entry_ok he).clears, ?_⟩
  · rw [hmSize_eq h.kv.db.inv, ha.length_linked]
    exact (List.length_map _).symm
  · obtain ⟨p, hp, hname⟩ := ha.mem_iff.mp (Finmap.mem_of_lookup_eq_some hkey)
    have hfind := h.kv.db.find_eq_some.mpr ⟨hp, hname⟩
    obtain ⟨item, hl⟩ := ha.found hfind
    obtain rfl := Option.some.inj (hl.lookup.symm.trans hkey)
    obtain ⟨-, t, hz, hscores⟩ := hl.holding
    exact ⟨p, hfind, hz.nodes_used hscores⟩
  · obtain ⟨kv, hworks, hkv, hpool⟩ := run_works strtod s.phase ha
    refine ⟨kv, hworks, hkv, ?_⟩
    rw [hkv.entries, hpool]
    rfl

/-- A client sets a key and its TTL. -/
theorem exists_timed_run : ∃ (es : List LoopEvent) (s : LoopState),
    Run (LoopStep fun _ => (⟨0⟩, 0)) {} es s ∧ hmSize s.data.kv.db = 1 ∧ s.data.kv.pool = [] ∧
      s.data.kv.heap.a.length = 1 ∧ s.data.fds = [5] := by
  have hrun := (run_readable fun _ => (⟨0⟩, 0)).snoc (l := .served ⟨0, fun _ => 0,
    .data (frame (encodeCmd [ascii "set", [107], [118]]) ++
      frame (encodeCmd [ascii "pexpire", [107], ascii "1"])), .count 3, .again⟩)
    (.mk (.mk (.served rfl) (.still 0)))
  exact ⟨_, _, run_loop hrun, rfl, rfl, rfl, rfl⟩

/-- There is one entry, with one timer, and one connection. -/
theorem nothing_leaks_timed : ∃ s : LoopState, s.data.kv.heap.a.length = 1 ∧
    s.data.kv.entry.used.encard = 1 ∧ s.data.conns.used.encard = 1 := by
  obtain ⟨es, s, hrun, hsize, hpool, hheap, hfds⟩ := exists_timed_run
  obtain ⟨a, -, hkeys, hentries, -, hconns, -⟩ := nothing_leaks hrun
  refine ⟨s, hheap, ?_, ?_⟩
  · rw [hentries, ← hkeys, hsize, hpool]
    rfl
  · rw [hconns, hfds]
    rfl

end Greenis
