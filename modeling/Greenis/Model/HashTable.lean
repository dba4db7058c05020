/-
  `lib/server/HashTable.cpp`: a chained hash table, and a map made of two of them that
  migrates nodes from the older to the newer a few at a time.

  A chain is the list of its nodes in link order. `HNode *` is an `HNode`: the structure
  that embeds the node (`container_of`) and the node's `hcode`. `HNode **from`, the incoming
  pointer `h_lookup` returns, is the place `From` of the node it points to. Sizes and masks are
  `Nat`: no address space holds 2^64 nodes.
-/
import Greenis.Lib.Exec
import Greenis.Model.Defs

namespace Greenis
open CExec

/-- A hash table node embedded in `owner`. -/
structure HNode (α : Type) where
  owner : α
  hcode : UInt64
  deriving DecidableEq, Repr

/-- `tab` is the array of slots, or NULL. -/
structure HTab (α : Type) where
  tab : Option (List (List (HNode α))) := none
  mask : Nat := 0
  size : Nat := 0
  deriving DecidableEq, Repr, Inhabited

structure HMap (α : Type) where
  newer : HTab α := {}
  older : HTab α := {}
  migratePos : Nat := 0
  deriving DecidableEq, Repr, Inhabited

/-- The place of a node: its slot and its index in the chain. -/
structure From where
  slot : Nat
  pos : Nat
  deriving DecidableEq, Repr

/-- `str_hash`, in 32-bit arithmetic. -/
def strHash (data : Bytes) : UInt64 :=
  (data.foldl (fun (h : UInt32) b => (h + b.toUInt32) * 0x01000193) 0x811C9DC5).toUInt64

variable {α : Type}

def hnodeSame [DecidableEq α] (key : α) (node : HNode α) : Exec Bool := .ok (node.owner == key)

/-- `n` must be a power of 2. -/
def hInit (n : Nat) : Exec (HTab α) := do
  check (0 < n && (n - 1) &&& n == 0)
  .ok { tab := some (List.replicate n []), mask := n - 1, size := 0 }

def hInsert (htab : HTab α) (node : HNode α) : Exec (HTab α) := do
  let slots ← deref htab.tab
  let pos := node.hcode.toNat &&& htab.mask
  let next ← index slots pos
  .ok { htab with tab := some (slots.set pos (node :: next)), size := htab.size + 1 }

/-- The walk of `h_lookup` along one chain. -/
def chainFind (hcode : UInt64) (eq : HNode α → Exec Bool) : List (HNode α) → Exec (Option Nat)
  | [] => .ok none
  | cur :: next => do
    let found ← (if cur.hcode = hcode then eq cur else .ok false)
    if found then .ok (some 0)
    else do
      let r ← chainFind hcode eq next
      .ok (r.map (· + 1))

def hLookup (htab : HTab α) (hcode : UInt64) (eq : HNode α → Exec Bool) :
    Exec (Option From) :=
  match htab.tab with
  | none => .ok none
  | some slots => do
    let pos := hcode.toNat &&& htab.mask
    let chain ← index slots pos
    let r ← chainFind hcode eq chain
    .ok (r.map (From.mk pos))

/-- `*from`. -/
def hAt (htab : HTab α) (f : From) : Exec (HNode α) := do
  let slots ← deref htab.tab
  let chain ← index slots f.slot
  index chain f.pos

def hDetach (htab : HTab α) (f : From) : Exec (HTab α × HNode α) := do
  let slots ← deref htab.tab
  let chain ← index slots f.slot
  let node ← index chain f.pos
  .ok ({ htab with tab := some (slots.set f.slot (chain.eraseIdx f.pos)), size := htab.size - 1 },
    node)

/-- The loop of `hm_help_rehashing`. -/
def helpLoop : Nat → HMap α → Nat → Exec (HMap α)
  | 0, _, _ => .error .fuel
  | fuel + 1, hmap, nwork =>
    if nwork < kRehashingWork ∧ hmap.older.size > 0 then do
      let slots ← deref hmap.older.tab
      let chain ← index slots hmap.migratePos
      match chain with
      | [] => helpLoop fuel { hmap with migratePos := hmap.migratePos + 1 } nwork
      | _ :: _ => do
        let (older, node) ← hDetach hmap.older ⟨hmap.migratePos, 0⟩
        let newer ← hInsert hmap.newer node
        helpLoop fuel { hmap with newer := newer, older := older } (nwork + 1)
    else .ok hmap

/-- The loop moves at most `kRehashingWork` nodes and skips each slot at most once, so its
    budget is their sum. -/
def hmHelpRehashing (hmap : HMap α) : Exec (HMap α) := do
  let hmap ← helpLoop (kRehashingWork + (hmap.older.tab.getD []).length + 1) hmap 0
  if hmap.older.size = 0 ∧ hmap.older.tab.isSome then .ok { hmap with older := {} }
  else .ok hmap

def hmTriggerRehashing (hmap : HMap α) : Exec (HMap α) := do
  check hmap.older.tab.isNone
  let newer ← hInit ((hmap.newer.mask + 1) * 2)
  .ok { newer := newer, older := hmap.newer, migratePos := 0 }

def hmLookup (hmap : HMap α) (hcode : UInt64) (eq : HNode α → Exec Bool) :
    Exec (HMap α × Option (HNode α)) := do
  let hmap ← hmHelpRehashing hmap
  match ← hLookup hmap.newer hcode eq with
  | some f => do
    let node ← hAt hmap.newer f
    .ok (hmap, some node)
  | none =>
    match ← hLookup hmap.older hcode eq with
    | some f => do
      let node ← hAt hmap.older f
      .ok (hmap, some node)
    | none => .ok (hmap, none)

def hmInsert (hmap : HMap α) (node : HNode α) : Exec (HMap α) := do
  let newer ← (if hmap.newer.tab.isNone then hInit 4 else .ok hmap.newer)
  let newer ← hInsert newer node
  let hmap := { hmap with newer := newer }
  let hmap ←
    (if hmap.older.tab.isNone ∧ hmap.newer.size ≥ (hmap.newer.mask + 1) * kMaxLoadFactor then
      hmTriggerRehashing hmap
    else .ok hmap)
  hmHelpRehashing hmap

def hmDelete (hmap : HMap α) (hcode : UInt64) (eq : HNode α → Exec Bool) :
    Exec (HMap α × Option (HNode α)) := do
  let hmap ← hmHelpRehashing hmap
  match ← hLookup hmap.newer hcode eq with
  | some f => do
    let (newer, node) ← hDetach hmap.newer f
    .ok ({ hmap with newer := newer }, some node)
  | none =>
    match ← hLookup hmap.older hcode eq with
    | some f => do
      let (older, node) ← hDetach hmap.older f
      .ok ({ hmap with older := older }, some node)
    | none => .ok (hmap, none)

def hmClear (_hmap : HMap α) : HMap α := {}

def hmSize (hmap : HMap α) : Nat := hmap.newer.size + hmap.older.size

/-- The callback threads its argument `σ`; `false` stops the walk. -/
def chainForeach {σ : Type} (f : HNode α → σ → Exec (Bool × σ)) :
    List (HNode α) → σ → Exec (Bool × σ)
  | [], s => .ok (true, s)
  | node :: next, s => do
    let (go, s) ← f node s
    if go then chainForeach f next s else .ok (false, s)

/-- The slots from `i` on, `n` of them. -/
def slotsForeach {σ : Type} (f : HNode α → σ → Exec (Bool × σ)) (slots : List (List (HNode α))) :
    Nat → Nat → σ → Exec (Bool × σ)
  | 0, _, s => .ok (true, s)
  | n + 1, i, s => do
    let chain ← index slots i
    let (go, s) ← chainForeach f chain s
    if go then slotsForeach f slots n (i + 1) s else .ok (false, s)

def hForeach {σ : Type} (htab : HTab α) (f : HNode α → σ → Exec (Bool × σ)) (s : σ) :
    Exec (Bool × σ) :=
  if htab.mask = 0 then .ok (true, s)
  else do
    let slots ← deref htab.tab
    slotsForeach f slots (htab.mask + 1) 0 s

def hmForeach {σ : Type} (hmap : HMap α) (f : HNode α → σ → Exec (Bool × σ)) (s : σ) :
    Exec σ := do
  let (go, s) ← hForeach hmap.newer f s
  if go then do
    let (_, s) ← hForeach hmap.older f s
    .ok s
  else .ok s

end Greenis
