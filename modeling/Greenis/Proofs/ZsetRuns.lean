/-
  A sorted set is a finite map from names to scores.

  `z.scoreOf t name` is the score the set `z` holds under a name. The operations act on it as on
  a finite map (`zsetInsert_scores`, `zsetDelete_scores`), except that a score which equals the
  stored one is not stored again: of the two zeros the first stays. `ZReached z m` is a set some
  run of calls reaches, with the map those calls describe.
-/
import Greenis.Lib.Allocation
import Greenis.Proofs.Zset

namespace Greenis
open CExec BinaryTree

/-- The score stored under a name. -/
def ZSet.scoreOf (z : ZSet) (t : BinaryTree Ptr) (name : Bytes) : Option Double :=
  (t.inorder.find? fun p => (z.at p).name == name).map fun p => (z.at p).score

theorem ZInv.scoreOf_mem {z : ZSet} {t : BinaryTree Ptr} (h : ZInv z t) {p : Ptr}
    (hp : p ∈ t.inorder) : z.scoreOf t (z.at p).name = some (z.at p).score := by
  unfold ZSet.scoreOf
  cases hfind : t.inorder.find? fun q => (z.at q).name == (z.at p).name with
  | none =>
    have := List.find?_eq_none.mp hfind p hp
    simp at this
  | some q =>
    have hname : (z.at q).name = (z.at p).name := by simpa using List.find?_some hfind
    rw [h.names q (List.mem_of_find?_eq_some hfind) p hp hname]
    rfl

theorem ZInv.scoreOf_eq_some {z : ZSet} {t : BinaryTree Ptr} (h : ZInv z t) {name : Bytes}
    {s : Double} : z.scoreOf t name = some s ↔
      ∃ p ∈ t.inorder, (z.at p).name = name ∧ (z.at p).score = s := by
  constructor
  · intro hs
    obtain ⟨p, hfind, rfl⟩ := Option.map_eq_some_iff.mp hs
    exact ⟨p, List.mem_of_find?_eq_some hfind, by simpa using List.find?_some hfind, rfl⟩
  · rintro ⟨p, hp, rfl, rfl⟩
    exact h.scoreOf_mem hp

theorem scoreOf_eq_none {z : ZSet} {t : BinaryTree Ptr} {name : Bytes} :
    z.scoreOf t name = none ↔ ∀ p ∈ t.inorder, (z.at p).name ≠ name := by
  simp [ZSet.scoreOf]

/-- Two sets agree on a name when they have the same nodes of that name. -/
theorem scoreOf_congr {z z' : ZSet} {t t' : BinaryTree Ptr} (h : ZInv z t) (h' : ZInv z' t')
    {name : Bytes} (hsame : ∀ p, (p ∈ t'.inorder ∧ (z'.at p).name = name) ↔
      (p ∈ t.inorder ∧ (z.at p).name = name))
    (hscore : ∀ p ∈ t.inorder, (z.at p).name = name → (z'.at p).score = (z.at p).score) :
    z'.scoreOf t' name = z.scoreOf t name := by
  refine Option.ext fun s => ?_
  rw [h'.scoreOf_eq_some, h.scoreOf_eq_some]
  constructor
  · rintro ⟨p, hp, hn, hs⟩
    obtain ⟨hp', hn'⟩ := (hsame p).mp ⟨hp, hn⟩
    exact ⟨p, hp', hn', hscore p hp' hn' ▸ hs⟩
  · rintro ⟨p, hp, hn, hs⟩
    obtain ⟨hp', hn'⟩ := (hsame p).mpr ⟨hp, hn⟩
    exact ⟨p, hp', hn', (hscore p hp hn).trans hs⟩

theorem zsetLookup_scores {z : ZSet} {t : BinaryTree Ptr} (h : ZInv z t) (name : Bytes) :
    ∃ hmap r, zsetLookup z name = .ok ({ z with hmap := hmap }, r) ∧
      ZInv { z with hmap := hmap } t ∧ Named z t name r ∧
      z.scoreOf t name = r.map fun p => (z.at p).score := by
  obtain ⟨hmap, r, hrun, hinv, hnamed⟩ := zsetLookup_spec h name
  refine ⟨hmap, r, hrun, hinv, hnamed, ?_⟩
  cases r with
  | some p => exact h.scoreOf_eq_some.mpr ⟨p, hnamed.1, hnamed.2, rfl⟩
  | none => exact scoreOf_eq_none.mpr hnamed

/-- `zset_insert` sets the score of one name, and returns true iff the name was absent. -/
theorem zsetInsert_scores {z : ZSet} {t : BinaryTree Ptr} (h : ZInv z t) (name : Bytes)
    {score : Double} (hs : score.isNaN = false) :
    ∃ z' t', zsetInsert z name score = .ok (z', (z.scoreOf t name).isNone) ∧ ZInv z' t' ∧
      z'.scoreOf t' name = some (keptScore (z.scoreOf t name) score) ∧
      ∀ other, other ≠ name → z'.scoreOf t' other = z.scoreOf t other := by
  obtain ⟨z', t', b, hrun, ⟨rfl, p, hp, hname, hup⟩ | ⟨rfl, hnone, p, hadd⟩⟩ :=
    zsetInsert_spec h name hs
  · have hold := h.scoreOf_eq_some.mpr ⟨p, hp, hname, rfl⟩
    refine ⟨z', t', by rw [hold]; exact hrun, hup.inv, ?_, fun other hother => ?_⟩
    · rw [hup.inv.scoreOf_eq_some]
      refine ⟨p, (hup.mem p).mpr hp, hup.name.trans hname, ?_⟩
      rw [hup.score, hold]
      rfl
    · have hne : ∀ q, (z.at q).name = other → q ≠ p := fun q hq he =>
        hother (by rw [← hq, he, hname])
      have hne' : ∀ q, (z'.at q).name = other → q ≠ p := fun q hq he =>
        hother (by rw [← hq, he, hup.name, hname])
      refine scoreOf_congr h hup.inv (fun q => ?_) fun q _ hq => by rw [hup.other q (hne q hq)]
      rw [hup.mem]
      refine and_congr_right fun _ => ⟨fun hq => ?_, fun hq => ?_⟩
      · rw [← hup.other q (hne' q hq)]
        exact hq
      · rw [hup.other q (hne q hq)]
        exact hq
  · have hold := scoreOf_eq_none.mpr hnone
    have hnew : (z'.at p).name = name := by rw [hadd.data]; rfl
    refine ⟨z', t', by rw [hold]; exact hrun, hadd.inv, ?_, fun other hother => ?_⟩
    · rw [hadd.inv.scoreOf_eq_some]
      exact ⟨p, (hadd.mem p).mpr (Or.inl rfl), hnew, by rw [hadd.data, hold]; rfl⟩
    · refine scoreOf_congr h hadd.inv (fun q => ?_) fun q hq _ => by rw [hadd.other q hq]
      rw [hadd.mem]
      constructor
      · rintro ⟨rfl | hq, hn⟩
        · exact absurd (hn.symm.trans hnew) hother
        · exact ⟨hq, hadd.other q hq ▸ hn⟩
      · rintro ⟨hq, hn⟩
        exact ⟨Or.inr hq, by rw [hadd.other q hq, hn]⟩

/-- `zset_delete` removes one name. -/
theorem zsetDelete_scores {z : ZSet} {t : BinaryTree Ptr} {p : Ptr} (h : ZInv z t)
    (hp : p ∈ t.inorder) :
    ∃ z' t', zsetDelete z p = .ok z' ∧ ZInv z' t' ∧ z'.scoreOf t' (z.at p).name = none ∧
      ∀ other, other ≠ (z.at p).name → z'.scoreOf t' other = z.scoreOf t other := by
  obtain ⟨z', t', hrun, hdrop⟩ := zsetDelete_spec h hp
  refine ⟨z', t', hrun, hdrop.inv, scoreOf_eq_none.mpr fun q hq hn => ?_, fun other hother => ?_⟩
  · obtain ⟨hqp, hqt⟩ := (hdrop.mem q).mp hq
    rw [hdrop.other q hqp] at hn
    exact hqp (h.names q hqt p hp hn)
  · have hne : ∀ q, (z.at q).name = other → q ≠ p := fun q hq he => hother (by rw [← hq, he])
    refine scoreOf_congr h hdrop.inv (fun q => ?_) fun q _ hq => by rw [hdrop.other q (hne q hq)]
    rw [hdrop.mem]
    constructor
    · rintro ⟨⟨hqp, hq⟩, hn⟩
      exact ⟨hq, hdrop.other q hqp ▸ hn⟩
    · rintro ⟨hq, hn⟩
      exact ⟨⟨hne q hn, hq⟩, by rw [hdrop.other q (hne q hn), hn]⟩

/-- The nodes of a sorted set, in its tree and in its hash table. -/
theorem ZInv.nodes_used {z : ZSet} {t : BinaryTree Ptr} (h : ZInv z t)
    {m : Scores} (hm : ∀ name, z.scoreOf t name = m.lookup name) :
    z.node.used.encard = m.keys.card ∧ hmSize z.hmap = m.keys.card := by
  have hcard : m.keys.card = t.inorder.length :=
    card_eq_length (fun p => (z.at p).name) h.nodup h.names fun name => by
      rw [Finmap.mem_keys, Finmap.mem_iff]
      constructor
      · rintro ⟨s, hs⟩
        obtain ⟨p, hp, hname, -⟩ := h.scoreOf_eq_some.mp ((hm name).trans hs)
        exact ⟨p, hp, hname⟩
      · rintro ⟨p, hp, rfl⟩
        exact ⟨_, (hm _).symm.trans (h.scoreOf_mem hp)⟩
  refine ⟨?_, ?_⟩
  · rw [hcard]
    exact Store.encard_used h.nodup fun p => Store.mem_used.trans h.mem_inorder.symm
  · rw [hmSize_eq h.hmap, h.nodes.length_eq, List.length_map, hcard]

/-! ## Runs -/

/-- The sets that runs of calls reach, each with the map the calls describe. -/
inductive ZReached : ZSet → Scores → Prop where
  | init : ZReached {} ∅
  | insert {z z' : ZSet} {m : Scores} {b : Bool} (name : Bytes) (score : Double) :
      ZReached z m → score.isNaN = false → zsetInsert z name score = .ok (z', b) →
      ZReached z' (m.insert name score)
  | lookup {z z' : ZSet} {m : Scores} {r : Option Ptr} (name : Bytes) :
      ZReached z m → zsetLookup z name = .ok (z', r) → ZReached z' m
  | delete {z z1 z' : ZSet} {m : Scores} {p : Ptr} (name : Bytes) :
      ZReached z m → zsetLookup z name = .ok (z1, some p) → zsetDelete z1 p = .ok z' →
      ZReached z' (m.erase name)

/-- Both absent, or equal as numbers. -/
def SameScore : Option Double → Option Double → Prop
  | some a, some b => a.eq b = true
  | none, none => True
  | _, _ => False

/-- The set holds the map `m`. -/
structure Holds (z : ZSet) (t : BinaryTree Ptr) (m : Scores) : Prop where
  inv : ZInv z t
  scores : ∀ name, SameScore (z.scoreOf t name) (m.lookup name)

theorem sameScore_isNone {a b : Option Double} (h : SameScore a b) : a.isNone = b.isNone := by
  cases a <;> cases b <;> first | rfl | cases h

theorem keptScore_eq (old : Option Double) {new : Double} (hs : new.isNaN = false) :
    (keptScore old new).eq new = true := by
  cases old with
  | none => exact Binary64.eq_refl hs
  | some s =>
    unfold keptScore
    by_cases h : s.eq new = true
    · simp [h]
    · simp [h, Binary64.eq_refl hs]

theorem Holds.empty : Holds {} .nil ∅ := ⟨ZInv.empty, fun _ => trivial⟩

theorem Holds.insert {z : ZSet} {t : BinaryTree Ptr} {m : Scores} (h : Holds z t m) (name : Bytes)
    {score : Double} (hs : score.isNaN = false) :
    ∃ z' t', zsetInsert z name score = .ok (z', (m.lookup name).isNone) ∧
      Holds z' t' (m.insert name score) ∧
      ∀ other, other ≠ name → z'.scoreOf t' other = z.scoreOf t other := by
  obtain ⟨z', t', hrun, hinv, hself, hother⟩ := zsetInsert_scores h.inv name hs
  refine ⟨z', t', by rw [hrun, sameScore_isNone (h.scores name)], ⟨hinv, fun n => ?_⟩, hother⟩
  by_cases hn : n = name
  · rw [hn, hself, Finmap.lookup_insert]
    exact keptScore_eq _ hs
  · rw [hother n hn, Finmap.lookup_insert_of_ne _ hn]
    exact h.scores n

theorem Holds.lookup {z : ZSet} {t : BinaryTree Ptr} {m : Scores} (h : Holds z t m)
    (name : Bytes) :
    ∃ hmap r, zsetLookup z name = .ok ({ z with hmap := hmap }, r) ∧
      Holds { z with hmap := hmap } t m ∧ Named z t name r ∧
      SameScore (r.map fun p => (z.at p).score) (m.lookup name) := by
  obtain ⟨hmap, r, hrun, hinv, hnamed, hscore⟩ := zsetLookup_scores h.inv name
  exact ⟨hmap, r, hrun, ⟨hinv, h.scores⟩, hnamed, hscore ▸ h.scores name⟩

theorem Holds.delete {z : ZSet} {t : BinaryTree Ptr} {m : Scores} {p : Ptr} (h : Holds z t m)
    (hp : p ∈ t.inorder) :
    ∃ z' t', zsetDelete z p = .ok z' ∧ Holds z' t' (m.erase (z.at p).name) ∧
      ∀ other, other ≠ (z.at p).name → z'.scoreOf t' other = z.scoreOf t other := by
  obtain ⟨z', t', hrun, hinv, hself, hother⟩ := zsetDelete_scores h.inv hp
  refine ⟨z', t', hrun, ⟨hinv, fun n => ?_⟩, hother⟩
  by_cases hn : n = (z.at p).name
  · rw [hn, hself, Finmap.lookup_erase]
    trivial
  · rw [hother n hn, Finmap.lookup_erase_ne hn]
    exact h.scores n

/-- A lookup that finds a node finds it in the tree, under that name. -/
theorem Holds.found {z z1 : ZSet} {t : BinaryTree Ptr} {m : Scores} {p : Ptr} {name : Bytes}
    (h : Holds z t m) (hrun : zsetLookup z name = .ok (z1, some p)) :
    Holds z1 t m ∧ p ∈ t.inorder ∧ (z1.at p).name = name ∧
      ∀ other, z1.scoreOf t other = z.scoreOf t other := by
  obtain ⟨hmap, r, hrun', h', hnamed, -⟩ := h.lookup name
  cases ok_unique hrun hrun'
  exact ⟨h', hnamed.1, hnamed.2, fun _ => rfl⟩

theorem ZReached.holds {z : ZSet} {m : Scores} (hr : ZReached z m) : ∃ t, Holds z t m := by
  induction hr with
  | init => exact ⟨_, Holds.empty⟩
  | insert name score _ hs hrun ih =>
    obtain ⟨t, h⟩ := ih
    obtain ⟨z', t', hrun', h', -⟩ := h.insert name hs
    cases ok_unique hrun hrun'
    exact ⟨t', h'⟩
  | lookup name _ hrun ih =>
    obtain ⟨t, h⟩ := ih
    obtain ⟨hmap, r, hrun', h', -⟩ := h.lookup name
    cases ok_unique hrun hrun'
    exact ⟨t, h'⟩
  | delete name _ hrun hrun1 ih =>
    obtain ⟨t, h⟩ := ih
    obtain ⟨h1, hp, hname, -⟩ := h.found hrun
    obtain ⟨z', t', hrun', h', -⟩ := h1.delete hp
    cases ok_unique hrun1 hrun'
    exact ⟨t', hname ▸ h'⟩

/-- **The two indexes of a sorted set never drift apart.** Whatever calls led to the set `z`, its
    tree `t` and its hash map hold the same nodes, in strictly increasing (score, name) order and
    with distinct names; and every further call acts on it as on the map the calls describe. -/
theorem zset_indexes_agree {z : ZSet} {m : Scores} (hr : ZReached z m) :
    ∃ t, (Rep z.tree none t ∧ z.root = t.top) ∧
      ((z.hmap.nodes.map HNode.owner).Nodup ∧
        ∀ p, p ∈ z.hmap.nodes.map HNode.owner ↔ p ∈ t.inorder) ∧
      (∀ p ∈ t.inorder, ∀ q ∈ t.inorder, (z.at p).name = (z.at q).name → p = q) ∧
      (t.inorder.Pairwise fun p q =>
        tupleKey (z.at p).score (z.at p).name < tupleKey (z.at q).score (z.at q).name) ∧
      (∀ name, SameScore (z.scoreOf t name) (m.lookup name)) ∧
      (∀ name, ∃ z' r, zsetLookup z name = .ok (z', r) ∧ Named z t name r ∧
        (r.isSome = true ↔ name ∈ m) ∧
        SameScore (r.map fun p => (z'.at p).score) (m.lookup name)) ∧
      (∀ name score, score.isNaN = false → ∃ z' t' b, zsetInsert z name score = .ok (z', b) ∧
        (b = true ↔ name ∉ m) ∧ Holds z' t' (m.insert name score) ∧
        ∀ other, other ≠ name → z'.scoreOf t' other = z.scoreOf t other) ∧
      (∀ name z1 p, zsetLookup z name = .ok (z1, some p) → ∃ z' t', zsetDelete z1 p = .ok z' ∧
        Holds z' t' (m.erase name) ∧
        ∀ other, other ≠ name → z'.scoreOf t' other = z.scoreOf t other) := by
  obtain ⟨t, h⟩ := hr.holds
  have howner : (z.hmap.nodes.map HNode.owner).Perm t.inorder := by
    have hmap := h.inv.nodes.map HNode.owner
    rw [List.map_map, show HNode.owner ∘ z.hnode = id from rfl, List.map_id] at hmap
    exact hmap
  refine ⟨t, ⟨h.inv.rep, h.inv.root⟩, ⟨howner.nodup_iff.mpr h.inv.nodup,
    fun p => howner.mem_iff⟩, h.inv.names, h.inv.sorted, h.scores, fun name => ?_,
    fun name score hs => ?_, fun name z1 p hrun => ?_⟩
  · obtain ⟨hmap, r, hrun, -, hnamed, hsame⟩ := h.lookup name
    refine ⟨_, r, hrun, hnamed, ?_, hsame⟩
    have hnone := sameScore_isNone hsame
    rw [Option.isNone_map] at hnone
    rw [← Finmap.lookup_isSome, ← Option.not_isNone, hnone, Option.not_isNone]
  · obtain ⟨z', t', hrun, h', hother⟩ := h.insert name hs
    refine ⟨z', t', _, hrun, ?_, h', hother⟩
    rw [Option.isNone_iff_eq_none, Finmap.lookup_eq_none]
  · obtain ⟨h1, hp, hname, hsame⟩ := h.found hrun
    obtain ⟨z', t', hrun', h', hother⟩ := h1.delete hp
    rw [hname] at h' hother
    exact ⟨z', t', hrun', h', fun other hne => (hother other hne).trans (hsame other)⟩

/-- `zset_insert` for a tuple, without its answer. -/
def insertTuple (z : ZSet) (t : Tuple) : Exec ZSet := zsetInsert z t.1 t.2 >>= fun r => .ok r.1

/-- Inserting one tuple after another. -/
theorem ZReached.inserts {z : ZSet} {m : Scores} (hr : ZReached z m) (ts : List Tuple)
    (hs : ∀ t ∈ ts, t.2.isNaN = false) :
    ∃ z', ts.foldlM insertTuple z = .ok z' ∧
      ZReached z' (ts.foldl (fun m t => m.insert t.1 t.2) m) := by
  induction ts generalizing z m with
  | nil => exact ⟨z, rfl, hr⟩
  | cons t ts ih =>
    obtain ⟨tree, h⟩ := hr.holds
    have hscore := hs t List.mem_cons_self
    obtain ⟨z1, -, hrun, -⟩ := h.insert t.1 hscore
    obtain ⟨z2, hrun2, hr2⟩ := ih (hr.insert t.1 t.2 hscore hrun)
      fun t ht => hs t (List.mem_cons_of_mem _ ht)
    refine ⟨z2, ?_, hr2⟩
    rw [List.foldlM_cons, insertTuple, hrun]
    exact hrun2

/-- Four names, then another score for the first of them, then the second is deleted: the nodes of
    the other three are listed by their scores. -/
theorem zset_indexes_agree_updated : ∃ (z z1 z2 : ZSet) (t : BinaryTree Ptr),
    [([97], ⟨0x3FF0000000000000⟩), ([98], ⟨0x4000000000000000⟩), ([99], ⟨0x4000000000000000⟩),
      ([100], ⟨0x3FF0000000000000⟩), ([97], ⟨0x4008000000000000⟩)].foldlM insertTuple {} = .ok z ∧
    zsetLookup z [98] = .ok (z1, some 1) ∧ zsetDelete z1 1 = .ok z2 ∧
    Rep z2.tree none t ∧ z2.root = t.top ∧ t.inorder = [3, 2, 0] ∧
    [3, 2, 0].map z2.at = [.new [100] ⟨0x3FF0000000000000⟩, .new [99] ⟨0x4000000000000000⟩,
      .new [97] ⟨0x4008000000000000⟩] ∧
    SameScore (z2.scoreOf t [97]) (some ⟨0x4008000000000000⟩) ∧
    (∃ z', zsetLookup z2 [98] = .ok (z', none)) ∧ ∃ z', zsetInsert z2 [99] ⟨0⟩ = .ok (z', false) := by
  set ts : List Tuple := [([97], ⟨0x3FF0000000000000⟩), ([98], ⟨0x4000000000000000⟩),
    ([99], ⟨0x4000000000000000⟩), ([100], ⟨0x3FF0000000000000⟩), ([97], ⟨0x4008000000000000⟩)]
    with hts
  have hsample : (ts.foldlM insertTuple {} >>= fun z => zsetLookup z [98] >>= fun r =>
      deref r.2 >>= fun p => zsetDelete r.1 p >>= fun z => .ok (p, z.hmap.nodes.map HNode.owner,
        [3, 2, 0].map z.at) : Exec (Ptr × List Ptr × List ZNode)) =
      .ok (1, [2, 0, 3], [.new [100] ⟨0x3FF0000000000000⟩, .new [99] ⟨0x4000000000000000⟩,
        .new [97] ⟨0x4008000000000000⟩]) := by
    decide +kernel
  obtain ⟨z, hrun, hr⟩ := ZReached.init.inserts ts (by decide)
  rw [hrun, ok_bind] at hsample
  obtain ⟨⟨z1, r⟩, hlook, hsample⟩ := bind_eq_ok.mp hsample
  obtain ⟨p, hp, hsample⟩ := bind_eq_ok.mp hsample
  obtain ⟨z2, hdel, hsample⟩ := bind_eq_ok.mp hsample
  simp only [Except.ok.injEq, Prod.mk.injEq] at hsample
  obtain ⟨rfl, howners, hat⟩ := hsample
  obtain rfl : r = some 1 := by
    cases r with
    | none => cases hp
    | some p => exact congrArg some (Except.ok.inj hp)
  obtain ⟨t, ⟨hrep, hroot⟩, ⟨-, hmem⟩, -, hsorted, hscores, hlookup, hinsert, -⟩ :=
    zset_indexes_agree (hr.delete [98] hlook hdel)
  rw [howners] at hmem
  have hin : t.inorder = [3, 2, 0] := by
    have hnodup : t.inorder.Nodup := hsorted.imp fun {p q} hlt heq => by
      rw [heq] at hlt
      exact lt_irrefl _ hlt
    have hperm : t.inorder.Perm [3, 2, 0] :=
      ((List.perm_ext_iff_of_nodup hnodup (by decide)).mpr fun p => (hmem p).symm).trans
        (by decide : [2, 0, 3].Perm [3, 2, 0])
    refine hperm.eq_of_pairwise (fun p q _ _ hpq hqp => absurd hqp hpq.asymm) hsorted ?_
    simp only [List.map_cons, List.map_nil, List.cons.injEq, and_true] at hat
    obtain ⟨h3, h2, h0⟩ := hat
    simp only [List.pairwise_cons, List.forall_mem_cons, List.not_mem_nil, false_imp_iff,
      implies_true, and_true, List.Pairwise.nil, h3, h2, h0, ZNode.new, tupleKey_lt]
    decide
  have hmem : [99] ∈ ts.foldl (fun (m : Scores) t => m.insert t.1 t.2) ∅ := by
    simp [hts, Finmap.mem_insert]
  refine ⟨z, z1, z2, t, hrun, hlook, hdel, hrep, hroot, hin, hat, ?_, ?_, ?_⟩
  · have h97 := hscores [97]
    rwa [Finmap.lookup_erase_ne (by decide), hts, List.foldl_cons, List.foldl_cons, List.foldl_cons,
      List.foldl_cons, List.foldl_cons, List.foldl_nil, Finmap.lookup_insert] at h97
  · obtain ⟨z', r, hrun', -, hsome, -⟩ := hlookup [98]
    rw [iff_false_right Finmap.notMem_erase_self, Bool.not_eq_true, Option.isSome_eq_false_iff,
      Option.isNone_iff_eq_none] at hsome
    exact ⟨z', hsome ▸ hrun'⟩
  · obtain ⟨z', t', b, hrun', hb, -⟩ := hinsert [99] ⟨0⟩ (by decide)
    rw [iff_false_right (not_not_intro (Finmap.mem_erase.mpr ⟨by decide, hmem⟩)),
      Bool.not_eq_true] at hb
    exact ⟨z', hb ▸ hrun'⟩

end Greenis
