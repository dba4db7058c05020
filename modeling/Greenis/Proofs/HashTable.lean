/-
  The hash map holds exactly what was inserted and not deleted.

  `HTab.Wf` is an allocated table: a power of two of slots, each node in the slot its hash code
  names, `size` the number of nodes. `HMap.Inv` is a map of two such tables, the older one half
  as large and empty below `migratePos`. Every operation returns, keeps `HMap.Inv`, and changes
  `HMap.nodes` by the node it adds or removes (`hmInsert_spec`, `hmLookup_spec`,
  `hmDelete_spec`); the migration inside each of them changes nothing (`hmHelpRehashing_spec`).
-/
import Greenis.Lib.Buckets
import Greenis.Model.HashTable

namespace Greenis
open CExec Buckets

variable {α : Type}

/-! ## Tables -/

def HTab.slots (t : HTab α) : List (List (HNode α)) := t.tab.getD []

def HTab.nodes (t : HTab α) : List (HNode α) := t.slots.flatten

/-- The slot of a node in a table of the given mask. -/
def slotOf (mask : Nat) (n : HNode α) : Nat := n.hcode.toNat &&& mask

/-- An allocated table whose counters and filing are right. -/
structure HTab.Wf (t : HTab α) : Prop where
  alloc : t.tab = some t.slots
  length : t.slots.length = t.mask + 1
  pow : ∃ k, t.mask + 1 = 2 ^ (k + 2)
  size : t.size = t.nodes.length
  filed : Filed (slotOf t.mask) t.slots

@[simp] theorem slots_empty : ({} : HTab α).slots = [] := rfl

@[simp] theorem nodes_empty : ({} : HTab α).nodes = [] := rfl

theorem HTab.Wf.mask_ne_zero {t : HTab α} (hw : t.Wf) : t.mask ≠ 0 := by
  obtain ⟨k, hk⟩ := hw.pow
  have h4 : 2 ^ (k + 2) = 4 * 2 ^ k := by rw [Nat.pow_add, Nat.mul_comm]
  have hpos : 0 < 2 ^ k := Nat.two_pow_pos k
  omega

theorem hInit_spec (k : Nat) :
    ∃ t : HTab α, hInit (2 ^ (k + 2)) = .ok t ∧ t.Wf ∧ t.mask + 1 = 2 ^ (k + 2) ∧ t.nodes = [] := by
  have hpos : 0 < 2 ^ (k + 2) := Nat.two_pow_pos _
  have hand : (2 ^ (k + 2) - 1) &&& 2 ^ (k + 2) = 0 := by
    rw [Nat.and_comm]
    simp
  have hnodes : (List.replicate (2 ^ (k + 2)) ([] : List (HNode α))).flatten = [] := by
    simp
  refine ⟨{ tab := some (List.replicate (2 ^ (k + 2)) []), mask := 2 ^ (k + 2) - 1, size := 0 },
    ?_, ?_, by simp; omega, hnodes⟩
  · unfold hInit
    rw [check_of (by simp [hpos, hand])]
    rfl
  · refine ⟨rfl, ?_, ⟨k, by simp; omega⟩, ?_, Filed.replicate_nil _ _⟩
    · simp [HTab.slots]; omega
    · show 0 = (List.replicate (2 ^ (k + 2)) ([] : List (HNode α))).flatten.length
      rw [hnodes]; rfl

/-- A well-formed table has a chain at the slot of every hash code. -/
theorem HTab.Wf.chain {t : HTab α} (hw : t.Wf) (hcode : UInt64) :
    ∃ ns, t.slots[hcode.toNat &&& t.mask]? = some ns := by
  have hlt : hcode.toNat &&& t.mask < t.slots.length := by
    rw [hw.length]
    exact Nat.lt_succ_of_le Nat.and_le_right
  exact ⟨_, List.getElem?_eq_getElem hlt⟩

/-- Replacing a chain of a well-formed table by one that is filed right and adjusting `size`. -/
theorem HTab.Wf.setChain {t : HTab α} (hw : t.Wf) {i : Nat} {ns' : List (HNode α)} {size' : Nat}
    (hfiled : Filed (slotOf t.mask) (t.slots.set i ns'))
    (hsize : size' = (t.slots.set i ns').flatten.length) :
    ({ t with tab := some (t.slots.set i ns'), size := size' } : HTab α).Wf :=
  ⟨rfl, by simpa [HTab.slots] using hw.length, hw.pow, hsize, hfiled⟩

theorem hInsert_spec {t : HTab α} (hw : t.Wf) (n : HNode α) :
    ∃ t', hInsert t n = .ok t' ∧ t'.Wf ∧ t'.mask = t.mask ∧ t'.nodes.Perm (n :: t.nodes) := by
  obtain ⟨ns, hc⟩ := hw.chain n.hcode
  have hperm := flatten_set_cons hc n
  refine ⟨{ t with tab := some (t.slots.set (n.hcode.toNat &&& t.mask) (n :: ns)),
                   size := t.size + 1 }, ?_, ?_, rfl, hperm⟩
  · unfold hInsert
    rw [hw.alloc, deref_some, ok_bind]
    dsimp only
    rw [index_of_getElem? hc]
    rfl
  · refine hw.setChain (hw.filed.set_cons hc rfl) ?_
    rw [hperm.length_eq, List.length_cons, hw.size]
    rfl

theorem hDetach_spec {t : HTab α} (hw : t.Wf) {f : From} {ns : List (HNode α)} {n : HNode α}
    (hc : t.slots[f.slot]? = some ns) (hn : ns[f.pos]? = some n) :
    ∃ t', hDetach t f = .ok (t', n) ∧ t'.Wf ∧ t'.mask = t.mask ∧ t.nodes.Perm (n :: t'.nodes) ∧
      t'.slots = t.slots.set f.slot (ns.eraseIdx f.pos) := by
  have hperm := flatten_set_eraseIdx hc hn
  refine ⟨{ t with tab := some (t.slots.set f.slot (ns.eraseIdx f.pos)), size := t.size - 1 },
    ?_, ?_, rfl, hperm, rfl⟩
  · unfold hDetach
    rw [hw.alloc, deref_some, ok_bind, index_of_getElem? hc, ok_bind, index_of_getElem? hn]
    rfl
  · refine hw.setChain (hw.filed.set_eraseIdx hc _) ?_
    have hlen := hperm.length_eq
    rw [List.length_cons] at hlen
    have hsize : t.size = t.slots.flatten.length := hw.size
    omega

/-! ## Lookup in a table -/

/-- What the comparison of a lookup answers on the nodes of one hash code. -/
def Decides (eq : HNode α → Exec Bool) (P : HNode α → Prop) (hcode : UInt64)
    (ns : List (HNode α)) : Prop :=
  ∀ n ∈ ns, n.hcode = hcode → ∃ b, eq n = .ok b ∧ (b = true ↔ P n)

theorem Decides.mono {eq : HNode α → Exec Bool} {P : HNode α → Prop} {hcode : UInt64}
    {ns ms : List (HNode α)} (h : Decides eq P hcode ns) (hsub : ∀ n ∈ ms, n ∈ ns) :
    Decides eq P hcode ms :=
  fun n hn => h n (hsub n hn)

theorem chainFind_spec {eq : HNode α → Exec Bool} {P : HNode α → Prop} {hcode : UInt64} :
    ∀ {ns : List (HNode α)}, Decides eq P hcode ns → ∃ r, chainFind hcode eq ns = .ok r ∧
      match r with
      | some i => ∃ n, ns[i]? = some n ∧ n.hcode = hcode ∧ P n
      | none => ∀ n ∈ ns, n.hcode = hcode → ¬ P n
  | [], _ => ⟨none, rfl, by simp⟩
  | cur :: next, hd => by
    -- The answer for the rest of the chain, and what it means one node further out.
    have hnext : Decides eq P hcode next := hd.mono fun n hn => List.mem_cons_of_mem _ hn
    obtain ⟨r, hr, hspec⟩ := chainFind_spec hnext
    have hskip : (cur.hcode = hcode → ¬ P cur) →
        match r.map (· + 1) with
        | some i => ∃ n, (cur :: next)[i]? = some n ∧ n.hcode = hcode ∧ P n
        | none => ∀ n ∈ cur :: next, n.hcode = hcode → ¬ P n := by
      intro hcur
      cases r with
      | some i => exact hspec
      | none =>
        intro n hn
        rcases List.mem_cons.mp hn with rfl | hn
        · exact hcur
        · exact hspec n hn
    by_cases hh : cur.hcode = hcode
    · obtain ⟨b, hb, hbP⟩ := hd cur List.mem_cons_self hh
      cases b with
      | true =>
        refine ⟨some 0, ?_, cur, rfl, hh, hbP.mp rfl⟩
        simp [chainFind, hh, hb]
      | false =>
        refine ⟨r.map (· + 1), ?_, hskip fun _ hP => by simpa using hbP.mpr hP⟩
        simp [chainFind, hh, hb, hr]
    · refine ⟨r.map (· + 1), ?_, hskip fun h => absurd h hh⟩
      simp [chainFind, hh, hr]

/-- What `hLookup` may answer. -/
def Found (t : HTab α) (P : HNode α → Prop) (hcode : UInt64) : Option From → Prop
  | some f => ∃ ns n, t.slots[f.slot]? = some ns ∧ ns[f.pos]? = some n ∧ n.hcode = hcode ∧ P n
  | none => ∀ n ∈ t.nodes, n.hcode = hcode → ¬ P n

theorem hLookup_spec {t : HTab α} (ht : t = {} ∨ t.Wf) {eq : HNode α → Exec Bool}
    {P : HNode α → Prop} {hcode : UInt64} (hd : Decides eq P hcode t.nodes) :
    ∃ r, hLookup t hcode eq = .ok r ∧ Found t P hcode r := by
  rcases ht with rfl | hw
  · exact ⟨none, rfl, by intro n hn; cases hn⟩
  obtain ⟨ns, hc⟩ := hw.chain hcode
  obtain ⟨r, hr, hspec⟩ := chainFind_spec (hd.mono fun n hn => mem_flatten_of_getElem? hc hn)
  refine ⟨r.map (From.mk (hcode.toNat &&& t.mask)), ?_, ?_⟩
  · unfold hLookup
    rw [hw.alloc]
    dsimp only
    rw [index_of_getElem? hc, ok_bind, hr]
    rfl
  · cases r with
    | some i =>
      obtain ⟨n, hn, hP⟩ := hspec
      exact ⟨ns, n, hc, hn, hP⟩
    | none =>
      intro n hn hh
      -- A node of this hash code can only be in the chain that was walked.
      obtain ⟨ns', hc', hnc⟩ := hw.filed.mem_bucket hn
      rw [slotOf, hh, hc] at hc'
      cases hc'
      exact hspec n hnc hh

theorem hAt_spec {t : HTab α} (ht : t = {} ∨ t.Wf) {f : From} {ns : List (HNode α)} {n : HNode α}
    (hc : t.slots[f.slot]? = some ns) (hn : ns[f.pos]? = some n) : hAt t f = .ok n := by
  rcases ht with rfl | hw
  · cases hc
  · unfold hAt
    rw [hw.alloc, deref_some, ok_bind, index_of_getElem? hc, ok_bind, index_of_getElem? hn]

/-! ## Maps and migration -/

def HMap.nodes (h : HMap α) : List (HNode α) := h.newer.nodes ++ h.older.nodes

structure HMap.Inv (h : HMap α) : Prop where
  newer : h.newer = {} ∨ h.newer.Wf
  older : h.older = {} ∨
    (h.older.Wf ∧ h.newer.Wf ∧ h.newer.mask + 1 = (h.older.mask + 1) * 2)
  passed : ∀ i ns, i < h.migratePos → h.older.slots[i]? = some ns → ns = []

theorem HMap.Inv.empty : ({} : HMap α).Inv :=
  ⟨Or.inl rfl, Or.inl rfl, by intro i ns hi; simp at hi⟩

theorem HMap.Inv.olderTab {h : HMap α} (hi : h.Inv) : h.older = {} ∨ h.older.Wf :=
  hi.older.imp_right And.left

theorem HTab.size_eq {t : HTab α} (ht : t = {} ∨ t.Wf) : t.size = t.nodes.length := by
  rcases ht with rfl | hw
  · rfl
  · exact hw.size

theorem hmSize_eq {h : HMap α} (hi : h.Inv) : hmSize h = h.nodes.length := by
  unfold hmSize HMap.nodes
  rw [List.length_append, HTab.size_eq hi.newer, HTab.size_eq hi.olderTab]

/-- While nodes are left to migrate: the slots below `migratePos` are empty, and one from there on is
    not. -/
structure HMap.Unmigrated (h : HMap α) : Prop where
  below : ∀ i ns, i < h.migratePos → h.older.slots[i]? = some ns → ns = []
  ahead : ∃ i ns, h.migratePos ≤ i ∧ i ≤ h.older.mask ∧ h.older.slots[i]? = some ns ∧ ns ≠ []

/-- A node to migrate is left only in an allocated older table, at or after `migratePos`. -/
theorem HMap.Inv.migrating {h : HMap α} (hi : h.Inv) (hsize : 0 < h.older.size) :
    h.older.Wf ∧ h.newer.Wf ∧ h.newer.mask + 1 = (h.older.mask + 1) * 2 ∧ h.Unmigrated := by
  rcases hi.older with he | ⟨ho, hn, hm⟩
  · rw [he] at hsize; cases hsize
  · have hne : h.older.slots.flatten ≠ [] := fun hnil => by
      have := ho.size
      rw [HTab.nodes, hnil] at this
      rw [this] at hsize
      cases hsize
    obtain ⟨i, ns, hge, hlt, hget, hns⟩ := exists_bucket_of_below_empty hi.passed hne
    rw [ho.length] at hlt
    exact ⟨ho, hn, hm, hi.passed, i, ns, hge, Nat.le_of_lt_succ hlt, hget, hns⟩

theorem HMap.Unmigrated.le_mask {h : HMap α} (hu : h.Unmigrated) :
    h.migratePos ≤ h.older.mask := by
  obtain ⟨i, ns, hge, hle, -⟩ := hu.ahead
  exact Nat.le_trans hge hle

/-- What a migration of up to `k` nodes does. -/
structure Migrated (h h' : HMap α) (k : Nat) : Prop where
  inv : h'.Inv
  perm : h'.nodes.Perm h.nodes
  mask : h'.newer.mask = h.newer.mask
  left : h'.older.size = h.older.size - k

/-- The nodes `ns` have gone from the older table to the newer. -/
structure Rehashed (h h' : HMap α) (ns : List (HNode α)) : Prop where
  inv : h'.Inv
  newer : h'.newer.nodes.Perm (ns ++ h.newer.nodes)
  older : h.older.nodes.Perm (ns ++ h'.older.nodes)
  mask : h'.newer.mask = h.newer.mask

theorem Rehashed.refl {h : HMap α} (hi : h.Inv) : Rehashed h h [] :=
  ⟨hi, List.Perm.refl _, List.Perm.refl _, rfl⟩

theorem Rehashed.trans {h h1 h2 : HMap α} {ns ms : List (HNode α)} (h01 : Rehashed h h1 ns)
    (h12 : Rehashed h1 h2 ms) : Rehashed h h2 (ns ++ ms) where
  inv := h12.inv
  newer := by
    have hswap : (ms ++ (ns ++ h.newer.nodes)).Perm (ns ++ ms ++ h.newer.nodes) := by
      rw [← List.append_assoc]
      exact List.perm_append_comm.append_right _
    exact (h12.newer.trans (h01.newer.append_left ms)).trans hswap
  older := by
    rw [List.append_assoc]
    exact h01.older.trans (h12.older.append_left ns)
  mask := h12.mask.trans h01.mask

theorem Rehashed.size {h h' : HMap α} {ns : List (HNode α)} (hi : h.Inv) (hm : Rehashed h h' ns) :
    h.older.size = ns.length + h'.older.size := by
  rw [HTab.size_eq hi.olderTab, hm.older.length_eq, List.length_append,
    HTab.size_eq hm.inv.olderTab]

theorem Rehashed.migrated {h h' : HMap α} {ns : List (HNode α)} {k : Nat} (hi : h.Inv)
    (hm : Rehashed h h' ns) (hlen : ns.length = min k h.older.size) : Migrated h h' k where
  inv := hm.inv
  perm := by
    have h1 : (h'.newer.nodes ++ h'.older.nodes).Perm
        (h.newer.nodes ++ ns ++ h'.older.nodes) :=
      (hm.newer.trans List.perm_append_comm).append_right _
    rw [List.append_assoc] at h1
    exact h1.trans (hm.older.symm.append_left _)
  mask := hm.mask
  left := by
    have := hm.size hi
    omega

/-- One iteration of the loop of `hm_help_rehashing`; `none` if its condition is false. -/
def helpStep (hmap : HMap α) (nwork : Nat) : Exec (Option (HMap α × Nat)) :=
  if nwork < kRehashingWork ∧ hmap.older.size > 0 then do
    let slots ← deref hmap.older.tab
    let chain ← index slots hmap.migratePos
    match chain with
    | [] => .ok (some ({ hmap with migratePos := hmap.migratePos + 1 }, nwork))
    | _ :: _ => do
      let (older, node) ← hDetach hmap.older ⟨hmap.migratePos, 0⟩
      let newer ← hInsert hmap.newer node
      .ok (some ({ hmap with newer := newer, older := older }, nwork + 1))
  else .ok none

theorem helpLoop_succ (fuel : Nat) (h : HMap α) (nwork : Nat) :
    helpLoop (fuel + 1) h nwork = helpStep h nwork >>= fun r =>
      match r with
      | none => .ok h
      | some (h', nwork') => helpLoop fuel h' nwork' := by
  rw [helpLoop, helpStep]
  split
  · simp only [bind_assoc]
    apply congrArg
    funext slots
    apply congrArg
    funext chain
    cases chain with
    | nil => rfl
    | cons node rest =>
      simp only [bind_assoc]
      rfl
  · rfl

/-- An iteration skips an empty slot or moves one node, from a slot inside of the older table. -/
theorem helpStep_spec {h : HMap α} (hi : h.Inv) {nwork : Nat} (hwork : nwork < kRehashingWork)
    (hsize : 0 < h.older.size) :
    ∃ h' ns, helpStep h nwork = .ok (some (h', nwork + ns.length)) ∧ Rehashed h h' ns ∧
      (ns = [] ∧ h'.migratePos = h.migratePos + 1 ∨
        ns.length = 1 ∧ h'.migratePos = h.migratePos) ∧
      h'.older.slots.length = h.older.slots.length ∧
      h'.older.tab.isSome = h.older.tab.isSome := by
  obtain ⟨ho, hn, hm, hu⟩ := hi.migrating hsize
  have hpos : h.migratePos < h.older.slots.length := by
    rw [ho.length]
    exact Nat.lt_succ_of_le hu.le_mask
  have hget := List.getElem?_eq_getElem hpos
  unfold helpStep
  rw [if_pos ⟨hwork, hsize⟩, ho.alloc, deref_some, ok_bind, index_of_getElem? hget, ok_bind]
  cases hc : h.older.slots[h.migratePos] with
  | nil =>
    -- Empty slot: nothing moves, and one slot more is known to be empty.
    rw [hc] at hget
    have hi' : ({ h with migratePos := h.migratePos + 1 } : HMap α).Inv := by
      refine ⟨hi.newer, hi.older, fun i ns hlt hic => ?_⟩
      rcases Nat.lt_succ_iff_lt_or_eq.mp hlt with hlt | rfl
      · exact hi.passed i ns hlt hic
      · rw [hget] at hic
        exact (Option.some.inj hic).symm
    exact ⟨_, [], rfl, ⟨hi', List.Perm.refl _, List.Perm.refl _, rfl⟩, Or.inl ⟨rfl, rfl⟩, rfl,
      congrArg Option.isSome ho.alloc⟩
  | cons node rest =>
    rw [hc] at hget
    obtain ⟨older, hdet, howf, homask, hoperm, hoslots⟩ :=
      hDetach_spec ho (f := ⟨h.migratePos, 0⟩) hget (n := node) rfl
    obtain ⟨newer, hins, hnwf, hnmask, hnperm⟩ := hInsert_spec hn node
    have hi' : ({ h with newer := newer, older := older } : HMap α).Inv := by
      refine ⟨Or.inr hnwf, Or.inr ⟨howf, hnwf, by rw [hnmask, homask]; exact hm⟩,
        fun i ns hlt hic => ?_⟩
      have hlt' : i < h.migratePos := hlt
      have hic' : older.slots[i]? = some ns := hic
      rw [hoslots, List.getElem?_set_ne (by simp; omega)] at hic'
      exact hi.passed i ns hlt' hic'
    dsimp only
    rw [hdet, ok_bind]
    dsimp only
    rw [hins, ok_bind]
    refine ⟨_, [node], rfl, ⟨hi', hnperm, hoperm, hnmask⟩, Or.inr ⟨rfl, rfl⟩, ?_, ?_⟩
    · rw [hoslots, List.length_set]
    · rw [howf.alloc]
      rfl

/-- The loop ends before its budget: an iteration uses up work or a slot. -/
theorem helpLoop_spec (fuel nwork : Nat) {h : HMap α} (hi : h.Inv)
    (hfuel : (kRehashingWork - nwork) + (h.older.slots.length - h.migratePos) < fuel) :
    ∃ h' ns, helpLoop fuel h nwork = .ok h' ∧ Rehashed h h' ns ∧
      ns.length = min (kRehashingWork - nwork) h.older.size ∧
      h'.older.tab.isSome = h.older.tab.isSome := by
  induction fuel generalizing h nwork with
  | zero => exact absurd hfuel (Nat.not_lt_zero _)
  | succ fuel ih =>
    rw [helpLoop_succ]
    by_cases hgo : nwork < kRehashingWork ∧ h.older.size > 0
    · obtain ⟨h1, ns, hrun, hmoved, hcase, hlen, htab⟩ := helpStep_spec hi hgo.1 hgo.2
      obtain ⟨ho, -, -, hu⟩ := hi.migrating hgo.2
      have hle := hu.le_mask
      have hslots := ho.length
      have hsize := hmoved.size hi
      have hns : ns.length = 0 ∧ h1.migratePos = h.migratePos + 1 ∨
          ns.length = 1 ∧ h1.migratePos = h.migratePos := by
        rcases hcase with ⟨rfl, hpos⟩ | hone
        · exact Or.inl ⟨rfl, hpos⟩
        · exact Or.inr hone
      rw [hrun, ok_bind]
      obtain ⟨h2, ms, hrun2, hmoved2, hlen2, htab2⟩ :=
        ih (nwork + ns.length) hmoved.inv (by omega)
      refine ⟨h2, ns ++ ms, hrun2, hmoved.trans hmoved2, ?_, htab2.trans htab⟩
      rw [List.length_append]
      omega
    · have hstop : helpStep h nwork = .ok none := if_neg hgo
      rw [hstop, ok_bind]
      refine ⟨h, [], rfl, Rehashed.refl hi, ?_, rfl⟩
      rw [List.length_nil]
      omega

/-- The migration moves up to `kRehashingWork` nodes, and frees the older table exactly when it is
    empty. -/
theorem hmHelpRehashing_rehashed {h : HMap α} (hi : h.Inv) :
    ∃ h' ns, hmHelpRehashing h = .ok h' ∧ Rehashed h h' ns ∧
      ns.length = min kRehashingWork h.older.size ∧
      (h'.older.tab = none ↔ h'.older.size = 0) ∧ (h'.older.tab ≠ none → h.older.tab ≠ none) := by
  obtain ⟨h1, ns, hrun, hmoved, hlen, htab⟩ :=
    helpLoop_spec (kRehashingWork + h.older.slots.length + 1) 0 hi (by omega)
  unfold hmHelpRehashing
  rw [show (h.older.tab.getD []) = h.older.slots from rfl, hrun, ok_bind]
  by_cases hdone : h1.older.size = 0 ∧ h1.older.tab.isSome
  · have hempty : h1.older.nodes = [] := by
      rw [← List.length_eq_zero_iff, ← HTab.size_eq hmoved.inv.olderTab]
      exact hdone.1
    rw [if_pos hdone]
    refine ⟨_, ns, rfl, ⟨⟨hmoved.inv.newer, Or.inl rfl, by intro i ms _ hc; simp at hc⟩,
      hmoved.newer, ?_, hmoved.mask⟩, hlen, by simp, fun hne => absurd rfl hne⟩
    have holder := hmoved.older
    rw [hempty] at holder
    exact holder
  · rw [if_neg hdone]
    refine ⟨h1, ns, rfl, hmoved, hlen, ⟨fun hnone => ?_, fun hzero => ?_⟩, fun hne hnone => ?_⟩
    · rcases hmoved.inv.olderTab with he | hw
      · rw [he]
      · rw [hw.alloc] at hnone; cases hnone
    · by_contra hne
      exact hdone ⟨hzero, Option.isSome_iff_ne_none.mpr hne⟩
    · rw [hnone, Option.isSome_none, Option.isSome_eq_false_iff, Option.isNone_iff_eq_none] at htab
      exact hne htab

theorem hmHelpRehashing_spec {h : HMap α} (hi : h.Inv) :
    ∃ h', hmHelpRehashing h = .ok h' ∧ Migrated h h' kRehashingWork ∧
      (h'.older.tab = none ↔ h'.older.size = 0) ∧ (h'.older.tab ≠ none → h.older.tab ≠ none) := by
  obtain ⟨h', ns, hrun, hmoved, hlen, htab⟩ := hmHelpRehashing_rehashed hi
  exact ⟨h', hrun, hmoved.migrated hi hlen, htab⟩

/-! ## The operations -/

theorem decides_newer {eq : HNode α → Exec Bool} {P : HNode α → Prop} {hcode : UInt64}
    {h h' : HMap α} (hd : Decides eq P hcode h.nodes) (hp : h'.nodes.Perm h.nodes) :
    Decides eq P hcode h'.newer.nodes ∧ Decides eq P hcode h'.older.nodes :=
  ⟨hd.mono fun _ hn => hp.subset (List.mem_append_left _ hn),
    hd.mono fun _ hn => hp.subset (List.mem_append_right _ hn)⟩

/-- The answer of a lookup: a stored node that matches, or none does. -/
def Answer (ns : List (HNode α)) (P : HNode α → Prop) (hcode : UInt64) :
    Option (HNode α) → Prop
  | some n => n ∈ ns ∧ n.hcode = hcode ∧ P n
  | none => ∀ n ∈ ns, n.hcode = hcode → ¬ P n

theorem Answer.perm {ns ms : List (HNode α)} {P : HNode α → Prop} {hcode : UInt64}
    {r : Option (HNode α)} (h : Answer ns P hcode r) (hp : ns.Perm ms) : Answer ms P hcode r := by
  cases r with
  | some n => exact ⟨hp.subset h.1, h.2⟩
  | none => exact fun n hn => h n (hp.symm.subset hn)

theorem mem_nodes {t : HTab α} {f : From} {ns : List (HNode α)} {n : HNode α}
    (hc : t.slots[f.slot]? = some ns) (hn : ns[f.pos]? = some n) :
    n ∈ t.nodes :=
  mem_flatten_of_getElem? hc (List.mem_of_getElem? hn)

theorem answer_none {h : HMap α} {P : HNode α → Prop} {hcode : UInt64}
    (hn : Found h.newer P hcode none) (ho : Found h.older P hcode none) :
    Answer h.nodes P hcode none := by
  intro n hmem
  rcases List.mem_append.mp hmem with hm | hm
  · exact hn n hm
  · exact ho n hm

theorem hmLookup_spec {h : HMap α} (hi : h.Inv) {eq : HNode α → Exec Bool} {P : HNode α → Prop}
    {hcode : UInt64} (hd : Decides eq P hcode h.nodes) :
    ∃ h' r, hmLookup h hcode eq = .ok (h', r) ∧ Migrated h h' kRehashingWork ∧
      Answer h.nodes P hcode r := by
  obtain ⟨h1, hrun, hmig, _⟩ := hmHelpRehashing_spec hi
  obtain ⟨hdn, hdo⟩ := decides_newer hd hmig.perm
  obtain ⟨rn, hrn, hfn⟩ := hLookup_spec hmig.inv.newer hdn
  obtain ⟨ro, hro, hfo⟩ := hLookup_spec hmig.inv.olderTab hdo
  unfold hmLookup
  rw [hrun, ok_bind, hrn, ok_bind]
  cases rn with
  | some f =>
    obtain ⟨ns, n, hc, hn, hh, hP⟩ := hfn
    dsimp only
    rw [hAt_spec hmig.inv.newer hc hn]
    have hmem : n ∈ h1.nodes := List.mem_append_left _ (mem_nodes hc hn)
    exact ⟨h1, some n, rfl, hmig, hmig.perm.subset hmem, hh, hP⟩
  | none =>
    dsimp only
    rw [hro, ok_bind]
    cases ro with
    | some f =>
      obtain ⟨ns, n, hc, hn, hh, hP⟩ := hfo
      dsimp only
      rw [hAt_spec hmig.inv.olderTab hc hn]
      have hmem : n ∈ h1.nodes := List.mem_append_right _ (mem_nodes hc hn)
      exact ⟨h1, some n, rfl, hmig, hmig.perm.subset hmem, hh, hP⟩
    | none => exact ⟨h1, none, rfl, hmig, (answer_none hfn hfo).perm hmig.perm⟩

/-- The map `h2` between the two parts of an insertion into `h`: it holds the node, and if there were
    too many for the newer table, that table has become the older one. -/
structure HMap.Filled (h h2 : HMap α) (n : HNode α) : Prop where
  inv : h2.Inv
  perm : h2.nodes.Perm (n :: h.nodes)
  tables : (h2.older = h.older ∧ h.newer.mask ≤ h2.newer.mask ∧
      (h.older.tab = none → h2.newer.size < (h2.newer.mask + 1) * kMaxLoadFactor)) ∨
    (h.older.tab = none ∧ h.newer.mask ≤ h2.older.mask ∧
      h2.newer.mask + 1 = (h2.older.mask + 1) * 2)

/-- An insertion up to its call of `hm_help_rehashing`. -/
def hmFill (hmap : HMap α) (node : HNode α) : Exec (HMap α) := do
  let newer ← (if hmap.newer.tab.isNone then hInit 4 else .ok hmap.newer)
  let newer ← hInsert newer node
  let hmap := { hmap with newer := newer }
  if hmap.older.tab.isNone ∧ hmap.newer.size ≥ (hmap.newer.mask + 1) * kMaxLoadFactor then
    hmTriggerRehashing hmap
  else .ok hmap

theorem hmInsert_eq (h : HMap α) (n : HNode α) :
    hmInsert h n = hmFill h n >>= hmHelpRehashing := by
  simp only [hmInsert, hmFill, bind_assoc]

theorem hmFill_spec {h : HMap α} (hi : h.Inv) (n : HNode α) :
    ∃ h2, hmFill h n = .ok h2 ∧ h.Filled h2 n := by
  -- The newer table, allocated if it was not.
  obtain ⟨t, ht, htw, htn, htm, hmask⟩ : ∃ t : HTab α,
      (if h.newer.tab.isNone then hInit 4 else .ok h.newer) = .ok t ∧ t.Wf ∧
        t.nodes = h.newer.nodes ∧ (h.older = {} ∨ t = h.newer) ∧ h.newer.mask ≤ t.mask := by
    rcases hi.newer with he | hw
    · obtain ⟨t, hrun, htw, _, hnil⟩ := hInit_spec (α := α) 0
      refine ⟨t, by rw [he]; exact hrun, htw, by rw [hnil, he]; rfl, Or.inl ?_, by
        rw [he]; exact Nat.zero_le _⟩
      rcases hi.older with ho | ⟨_, hw, _⟩
      · exact ho
      · have halloc := hw.alloc
        rw [he] at halloc; cases halloc
    · exact ⟨h.newer, by rw [hw.alloc]; rfl, hw, rfl, Or.inr rfl, Nat.le_refl _⟩
  obtain ⟨t', hins, htw', htm', htp⟩ := hInsert_spec htw n
  have hi1 : ({ h with newer := t' } : HMap α).Inv := by
    refine ⟨Or.inr htw', ?_, hi.passed⟩
    rcases hi.older with ho | ⟨ho, _, hm⟩
    · exact Or.inl ho
    · rcases htm with he | rfl
      · exact Or.inl he
      · exact Or.inr ⟨ho, htw', by rw [htm']; exact hm⟩
  have hp1 : ({ h with newer := t' } : HMap α).nodes.Perm (n :: h.nodes) := by
    have := htp.append_right h.older.nodes
    rw [htn] at this
    exact this
  unfold hmFill
  rw [ht, ok_bind, hins, ok_bind]
  dsimp only
  by_cases htrig : h.older.tab.isNone ∧ t'.size ≥ (t'.mask + 1) * kMaxLoadFactor
  · -- Start a migration: the filled table becomes the older one.
    rw [if_pos htrig]
    obtain ⟨k, hk⟩ := htw'.pow
    obtain ⟨new, hnew, hnewWf, hnewMask, hnewNil⟩ := hInit_spec (α := α) (k + 1)
    have hpow : (t'.mask + 1) * 2 = 2 ^ (k + 1 + 2) := by
      rw [hk, show k + 1 + 2 = (k + 2) + 1 by omega, Nat.pow_succ 2 (k + 2)]
    have holder : h.older = {} := by
      rcases hi.olderTab with ho | hw
      · exact ho
      · rw [hw.alloc] at htrig; simp at htrig
    unfold hmTriggerRehashing
    rw [check_of htrig.1, ok_bind]
    dsimp only
    rw [hpow, hnew, ok_bind]
    have hi2 : ({ newer := new, older := t', migratePos := 0 } : HMap α).Inv :=
      ⟨Or.inr hnewWf, Or.inr ⟨htw', hnewWf, by rw [hnewMask, hpow]⟩,
        fun i ns hlt => absurd hlt (Nat.not_lt_zero i)⟩
    have hsame : ({ newer := new, older := t', migratePos := 0 } : HMap α).nodes =
        ({ h with newer := t' } : HMap α).nodes := by
      simp [HMap.nodes, hnewNil, holder]
    exact ⟨_, rfl, hi2, by rw [hsame]; exact hp1, Or.inr ⟨by rw [holder], by rw [htm']; exact hmask,
      by rw [hnewMask, hpow]⟩⟩
  · rw [if_neg htrig]
    refine ⟨_, rfl, hi1, hp1, Or.inl ⟨rfl, by rw [htm']; exact hmask, fun hnone => ?_⟩⟩
    exact Nat.lt_of_not_le fun hge => htrig ⟨by rw [hnone]; rfl, hge⟩

theorem hmInsert_spec {h : HMap α} (hi : h.Inv) (n : HNode α) :
    ∃ h', hmInsert h n = .ok h' ∧ h'.Inv ∧ h'.nodes.Perm (n :: h.nodes) := by
  obtain ⟨h2, hfill, hins⟩ := hmFill_spec hi n
  obtain ⟨h', hhelp, hmig, _⟩ := hmHelpRehashing_spec hins.inv
  refine ⟨h', ?_, hmig.inv, hmig.perm.trans hins.perm⟩
  rw [hmInsert_eq, hfill, ok_bind, hhelp]

/-- What a deletion leaves: the map without the node it answers. -/
def Removed (ns ns' : List (HNode α)) : Option (HNode α) → Prop
  | some n => ns.Perm (n :: ns')
  | none => ns'.Perm ns

theorem hmDelete_spec {h : HMap α} (hi : h.Inv) {eq : HNode α → Exec Bool} {P : HNode α → Prop}
    {hcode : UInt64} (hd : Decides eq P hcode h.nodes) :
    ∃ h' r, hmDelete h hcode eq = .ok (h', r) ∧ h'.Inv ∧ Answer h.nodes P hcode r ∧
      Removed h.nodes h'.nodes r := by
  obtain ⟨h1, hrun, hmig, _⟩ := hmHelpRehashing_spec hi
  obtain ⟨hdn, hdo⟩ := decides_newer hd hmig.perm
  obtain ⟨rn, hrn, hfn⟩ := hLookup_spec hmig.inv.newer hdn
  obtain ⟨ro, hro, hfo⟩ := hLookup_spec hmig.inv.olderTab hdo
  unfold hmDelete
  rw [hrun, ok_bind, hrn, ok_bind]
  cases rn with
  | some f =>
    obtain ⟨ns, n, hc, hn, hh, hP⟩ := hfn
    have hw : h1.newer.Wf := by
      rcases hmig.inv.newer with he | hw
      · rw [he] at hc; simp at hc
      · exact hw
    obtain ⟨t', hdet, htw, htm, htp, _⟩ := hDetach_spec hw hc hn
    dsimp only
    rw [hdet]
    have hmem : n ∈ h1.nodes := List.mem_append_left _ (mem_nodes hc hn)
    refine ⟨{ h1 with newer := t' }, some n, rfl, ⟨Or.inr htw, ?_, hmig.inv.passed⟩,
      ⟨hmig.perm.subset hmem, hh, hP⟩, ?_⟩
    · rcases hmig.inv.older with ho | ⟨ho, _, hm⟩
      · exact Or.inl ho
      · exact Or.inr ⟨ho, htw, by rw [htm]; exact hm⟩
    · exact hmig.perm.symm.trans (htp.append_right _)
  | none =>
    dsimp only
    rw [hro, ok_bind]
    cases ro with
    | some f =>
      obtain ⟨ns, n, hc, hn, hh, hP⟩ := hfo
      obtain ⟨hw, hnw, hm⟩ : h1.older.Wf ∧ h1.newer.Wf ∧
          h1.newer.mask + 1 = (h1.older.mask + 1) * 2 := by
        rcases hmig.inv.older with he | ho
        · rw [he] at hc; simp at hc
        · exact ho
      obtain ⟨t', hdet, htw, htm, htp, hslots⟩ := hDetach_spec hw hc hn
      dsimp only
      rw [hdet]
      have hmem : n ∈ h1.nodes := List.mem_append_right _ (mem_nodes hc hn)
      refine ⟨{ h1 with older := t' }, some n, rfl,
        ⟨hmig.inv.newer, Or.inr ⟨htw, hnw, by rw [htm]; exact hm⟩, fun i ns' hlt hic => ?_⟩,
        ⟨hmig.perm.subset hmem, hh, hP⟩, ?_⟩
      · -- The chain a node is taken from is not among the empty ones.
        have hic' : t'.slots[i]? = some ns' := hic
        have hlt' : i < h1.migratePos := hlt
        have hne : f.slot ≠ i := by
          intro he
          rw [hmig.inv.passed f.slot ns (by rw [he]; exact hlt') hc] at hn
          simp at hn
        rw [hslots, List.getElem?_set_ne hne] at hic'
        exact hmig.inv.passed i ns' hlt' hic'
      · have h1p := htp.append_left h1.newer.nodes
        exact (hmig.perm.symm.trans h1p).trans List.perm_middle
    | none => exact ⟨h1, none, rfl, hmig.inv, (answer_none hfn hfo).perm hmig.perm, hmig.perm⟩

/-! ## Iteration -/

section Foreach

variable {σ : Type} {f : HNode α → σ → Exec (Bool × σ)}

theorem chainForeach_append : ∀ (ns d : List (HNode α)) (s : σ),
    chainForeach f (ns ++ d) s =
      chainForeach f ns s >>= fun r => if r.1 then chainForeach f d r.2 else .ok (false, r.2)
  | [], d, s => by simp [chainForeach]
  | n :: ns, d, s => by
    simp only [List.cons_append, chainForeach]
    cases hf : f n s with
    | error e => rfl
    | ok r =>
      obtain ⟨go, s'⟩ := r
      cases go with
      | false => rfl
      | true => exact chainForeach_append ns d s'

theorem slotsForeach_eq (slots : List (List (HNode α))) :
    ∀ (n i : Nat) (s : σ), i + n = slots.length →
      slotsForeach f slots n i s = chainForeach f (slots.drop i).flatten s
  | 0, i, s, hlen => by
    rw [List.drop_eq_nil_of_le (by omega)]
    rfl
  | n + 1, i, s, hlen => by
    have hi : i < slots.length := by omega
    rw [List.drop_eq_getElem_cons hi, List.flatten_cons, chainForeach_append]
    unfold slotsForeach
    rw [index_of_lt hi, ok_bind]
    refine congrArg _ (funext fun r => ?_)
    obtain ⟨go, s'⟩ := r
    dsimp only
    rw [slotsForeach_eq slots n (i + 1) _ (by omega)]

theorem hForeach_eq {t : HTab α} (ht : t = {} ∨ t.Wf) (s : σ) :
    hForeach t f s = chainForeach f t.nodes s := by
  unfold hForeach
  rcases ht with rfl | hw
  · rfl
  · rw [if_neg hw.mask_ne_zero, hw.alloc, deref_some, ok_bind,
      slotsForeach_eq t.slots _ 0 s (by rw [hw.length, Nat.zero_add])]
    rfl

/-- `hm_foreach` is one walk over all nodes, migration in progress or not. -/
theorem hmForeach_eq {h : HMap α} (hi : h.Inv) (s : σ) :
    hmForeach h f s = chainForeach f h.nodes s >>= fun r => .ok r.2 := by
  unfold hmForeach HMap.nodes
  rw [hForeach_eq hi.newer, chainForeach_append]
  cases chainForeach f h.newer.nodes s with
  | error e => rfl
  | ok r =>
    obtain ⟨go, s'⟩ := r
    cases go with
    | false => rfl
    | true =>
      simp only [ok_bind, ↓reduceIte]
      rw [hForeach_eq hi.olderTab]

/-- A walk whose callback answers true on every node folds over all of them. -/
theorem chainForeach_visits {g : σ → HNode α → σ} : ∀ {ns : List (HNode α)},
    (∀ n ∈ ns, ∀ s, f n s = .ok (true, g s n)) → ∀ s, chainForeach f ns s = .ok (true, ns.foldl g s)
  | [], _, _ => rfl
  | n :: next, hv, s => by
    unfold chainForeach
    rw [hv n List.mem_cons_self s, ok_bind]
    exact chainForeach_visits (fun m hm => hv m (List.mem_cons_of_mem _ hm)) _

end Foreach

end Greenis
