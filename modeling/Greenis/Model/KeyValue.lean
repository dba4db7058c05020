/-
  `lib/server/key_value.cpp`: the commands on the keyspace.

  `KData` is the part of `g_data` they work on, with the memory of the entries. `heap_idx` of the
  entry at `p` is the cell `heap.idx p`. `entry_new` returns the address `brk` and never one it
  has returned before. A command reads the clock at most once: the reading is `now`.
-/
import Greenis.Model.Buffer
import Greenis.Model.Heap
import Greenis.Model.Utils
import Greenis.Model.Zset

namespace Greenis
open CExec

/-- A KV pair, without its `heap_idx`. -/
structure Entry where
  hcode : UInt64
  key : Bytes
  type : ValueType
  str : Bytes := []
  zset : ZSet := {}
  deriving Inhabited

/-- `pool` is the queue of the thread pool; its only jobs are `entry_del_func`. -/
structure KData where
  db : HMap Ptr := {}
  heap : Heap Ptr := {}
  entry : Store Entry := fun _ => none
  brk : Ptr := 0
  pool : List Ptr := []

/-- Equality comparison for the top-level hashtable. -/
def entryEq (g : KData) (key : Bytes) (node : HNode Ptr) : Exec Bool := do
  let ent ← g.entry.load node.owner
  .ok (ent.key == key)

/-- `entry_new`, with the fields its callers assign next. -/
def entryNew (g : KData) (type : ValueType) (key : Bytes) (str : Bytes) : KData × Ptr :=
  ({ g with
      entry := g.entry.write g.brk { hcode := strHash key, key := key, type := type, str := str }
      heap := { g.heap with idx := Function.update g.heap.idx g.brk none }
      brk := g.brk + 1 }, g.brk)

def entryDelSync (g : KData) (ent : Ptr) : Exec KData := do
  let e ← g.entry.load ent
  if e.type = .zset then do
    let _ ← zsetClear e.zset
    let entry ← g.entry.free ent
    .ok { g with entry := entry }
  else do
    let entry ← g.entry.free ent
    .ok { g with entry := entry }

/-- Set or remove the TTL. -/
def entrySetTtl (g : KData) (now : UInt64) (ent : Ptr) (ttlMs : Int64) : Exec KData := do
  let _ ← g.entry.load ent
  match g.heap.idx ent with
  | some pos =>
    if ttlMs < 0 then do
      -- setting a negative TTL means removing the TTL
      let heap ← heapDelete g.heap pos
      .ok { g with heap := { heap with idx := Function.update heap.idx ent none } }
    else do
      let heap ← heapUpsert g.heap (some pos) ⟨now + ttlMs.toUInt64, ent⟩
      .ok { g with heap := heap }
  | none =>
    if ttlMs < 0 then .ok g
    else do
      let heap ← heapUpsert g.heap none ⟨now + ttlMs.toUInt64, ent⟩
      .ok { g with heap := heap }

/-- `k_large_container_size` -/
def kLargeContainerSize : Nat := 1000

/-- Destroy an entry that is no longer in the hash table. -/
def entryDel (g : KData) (ent : Ptr) : Exec KData := do
  -- remove it from the heap; a negative TTL does not read the clock
  let g ← entrySetTtl g 0 ent (-1)
  let e ← g.entry.load ent
  let setSize := if e.type = .zset then hmSize e.zset.hmap else 0
  if setSize > kLargeContainerSize then .ok { g with pool := g.pool ++ [ent] }
  else entryDelSync g ent

/-- What a worker does with the job at the front of the queue. -/
def poolWork (g : KData) : Exec KData :=
  match g.pool with
  | [] => .ok g
  | ent :: pool => entryDelSync { g with pool := pool } ent

/-- The lookup every command starts with. -/
def dbLookup (g : KData) (key : Bytes) : Exec (KData × Option Ptr) := do
  let (db, node) ← hmLookup g.db (strHash key) (entryEq g key)
  .ok ({ g with db := db }, node.map HNode.owner)

/-- Link a new entry into the hash table. -/
def dbInsert (g : KData) (type : ValueType) (key str : Bytes) : Exec (KData × Ptr) := do
  let (g, ent) := entryNew g type key str
  let db ← hmInsert g.db ⟨ent, strHash key⟩
  .ok ({ g with db := db }, ent)

def doGet (g : KData) (cmd : List Bytes) (out : Buffer) : Exec (KData × Buffer) := do
  let key ← index cmd 1
  let (g, node) ← dbLookup g key
  match node with
  | none => .ok (g, outNil out)
  | some ent => do
    let e ← g.entry.load ent
    if e.type ≠ .str then .ok (g, outErr out .badTyp (ascii "not a string value"))
    else .ok (g, outStr out e.str)

def doSet (g : KData) (cmd : List Bytes) (out : Buffer) : Exec (KData × Buffer) := do
  let key ← index cmd 1
  let value ← index cmd 2
  let (g, node) ← dbLookup g key
  match node with
  | some ent => do
    let e ← g.entry.load ent
    if e.type ≠ .str then .ok (g, outErr out .badTyp (ascii "a non-string value exists"))
    else do
      let entry ← g.entry.modify ent fun e => { e with str := value }
      .ok ({ g with entry := entry }, outNil out)
  | none => do
    let (g, _) ← dbInsert g .str key value
    .ok (g, outNil out)

def doDel (g : KData) (cmd : List Bytes) (out : Buffer) : Exec (KData × Buffer) := do
  let key ← index cmd 1
  let (db, node) ← hmDelete g.db (strHash key) (entryEq g key)
  let g := { g with db := db }
  match node with
  | some node => do
    let g ← entryDel g node.owner
    .ok (g, outInt out 1)
  | none => .ok (g, outInt out 0)

def cbKeys (g : KData) (node : HNode Ptr) (out : Buffer) : Exec (Bool × Buffer) := do
  let e ← g.entry.load node.owner
  .ok (true, outStr out e.key)

def doKeys (g : KData) (_cmd : List Bytes) (out : Buffer) : Exec (KData × Buffer) := do
  let out := outArr out (UInt32.ofNat (hmSize g.db))
  let out ← hmForeach g.db (cbKeys g) out
  .ok (g, out)

section Commands

variable (strtod : Strtod)

/-- zadd zset score name -/
def doZadd (g : KData) (cmd : List Bytes) (out : Buffer) : Exec (KData × Buffer) := do
  let scoreArg ← index cmd 2
  match str2dbl strtod scoreArg with
  | none => .ok (g, outErr out .badArg (ascii "expect float"))
  | some score => do
    let key ← index cmd 1
    let name ← index cmd 3
    let (g, node) ← dbLookup g key
    -- look up or create the zset
    let (g, ent) ←
      (match node with
      | none => dbInsert g .zset key []
      | some ent => .ok (g, ent))
    let e ← g.entry.load ent
    if e.type ≠ .zset then .ok (g, outErr out .badTyp (ascii "expect zset"))
    else do
      let (zset, added) ← zsetInsert e.zset name score
      let entry ← g.entry.modify ent fun e => { e with zset := zset }
      .ok ({ g with entry := entry }, outInt out (if added then 1 else 0))

/-- `ZSet *`: `&k_empty_zset`, or the set of an entry. -/
inductive ZSetPtr where
  | empty
  | entry (ent : Ptr)
  deriving DecidableEq, Repr

def zsetLoad (g : KData) : ZSetPtr → Exec ZSet
  | .empty => .ok {}
  | .entry ent => do
    let e ← g.entry.load ent
    .ok e.zset

/-- Assign the set. `k_empty_zset` is constant: no function writes a set without a root. -/
def zsetStore (g : KData) (ptr : ZSetPtr) (zset : ZSet) : Exec KData :=
  match ptr with
  | .empty => .ok g
  | .entry ent => do
    let entry ← g.entry.modify ent fun e => { e with zset := zset }
    .ok { g with entry := entry }

/-- A non-existent key is treated as an empty zset. -/
def expectZset (g : KData) (s : Bytes) : Exec (KData × Option ZSetPtr) := do
  let (g, node) ← dbLookup g s
  match node with
  | none => .ok (g, some .empty)
  | some ent => do
    let e ← g.entry.load ent
    .ok (g, if e.type = .zset then some (.entry ent) else none)

/-- zrem zset name -/
def doZrem (g : KData) (cmd : List Bytes) (out : Buffer) : Exec (KData × Buffer) := do
  let key ← index cmd 1
  let name ← index cmd 2
  let (g, zset) ← expectZset g key
  match zset with
  | none => .ok (g, outErr out .badTyp (ascii "expect zset"))
  | some ptr => do
    let z ← zsetLoad g ptr
    let (z, znode) ← zsetLookup z name
    match znode with
    | some znode => do
      let z ← zsetDelete z znode
      let g ← zsetStore g ptr z
      .ok (g, outInt out 1)
    | none => do
      let g ← zsetStore g ptr z
      .ok (g, outInt out 0)

/-- zscore zset name -/
def doZscore (g : KData) (cmd : List Bytes) (out : Buffer) : Exec (KData × Buffer) := do
  let key ← index cmd 1
  let name ← index cmd 2
  let (g, zset) ← expectZset g key
  match zset with
  | none => .ok (g, outErr out .badTyp (ascii "expect zset"))
  | some ptr => do
    let z ← zsetLoad g ptr
    let (z, znode) ← zsetLookup z name
    let g ← zsetStore g ptr z
    match znode with
    | some znode => do
      let zn ← z.node.load znode
      .ok (g, outDbl out zn.score)
    | none => .ok (g, outNil out)

/-- The output loop of `do_zquery`. -/
def zqueryLoop (z : ZSet) (limit : Int) : Nat → Option Ptr → Int → Buffer → Exec (Int × Buffer)
  | _, none, n, out => .ok (n, out)
  | 0, some _, _, _ => .error .fuel
  | fuel + 1, some znode, n, out =>
    if n < limit then do
      let zn ← z.node.load znode
      let out := outStr out zn.name
      let out := outDbl out zn.score
      let next ← znodeOffset z (some znode) 1
      let n ← i64 (n + 2)
      zqueryLoop z limit fuel next n out
    else .ok (n, out)

/-- `do_zquery`, from the search on. The loop adds 2 to its counter until it reaches `limit`. -/
def zqueryWindow (z : ZSet) (score : Double) (name : Bytes) (offset limit : Int) (out : Buffer) :
    Exec Buffer := do
  -- seek to the key
  let znode ← zsetSeekge z score name
  let znode ← znodeOffset z znode offset
  -- output
  let (out, ctx) := outBeginArr out
  let (n, out) ← zqueryLoop z limit (limit.toNat + 1) znode 0 out
  outEndArr out ctx (UInt32.ofNat n.toNat)

/-- zquery zset score name offset limit -/
def doZquery (g : KData) (cmd : List Bytes) (out : Buffer) : Exec (KData × Buffer) := do
  let scoreArg ← index cmd 2
  match str2dbl strtod scoreArg with
  | none => .ok (g, outErr out .badArg (ascii "expect fp number"))
  | some score => do
    let name ← index cmd 3
    let offsetArg ← index cmd 4
    let limitArg ← index cmd 5
    match str2int offsetArg, str2int limitArg with
    | some offset, some limit => do
      let key ← index cmd 1
      let (g, zset) ← expectZset g key
      match zset with
      | none => .ok (g, outErr out .badTyp (ascii "expect zset"))
      | some ptr =>
        if limit ≤ 0 then .ok (g, outArr out 0)
        else do
          let z ← zsetLoad g ptr
          let out ← zqueryWindow z score name offset.toInt limit.toInt out
          .ok (g, out)
    | _, _ => .ok (g, outErr out .badArg (ascii "expect int"))

end Commands

/-- PEXPIRE key ttl_ms -/
def doExpire (g : KData) (now : UInt64) (cmd : List Bytes) (out : Buffer) :
    Exec (KData × Buffer) := do
  let ttlArg ← index cmd 2
  match str2int ttlArg with
  | none => .ok (g, outErr out .badArg (ascii "expect int64"))
  | some ttlMs => do
    let key ← index cmd 1
    let (g, node) ← dbLookup g key
    match node with
    | some ent => do
      let g ← entrySetTtl g now ent ttlMs
      .ok (g, outInt out 1)
    | none => .ok (g, outInt out 0)

/-- PTTL key -/
def doTtl (g : KData) (now : UInt64) (cmd : List Bytes) (out : Buffer) :
    Exec (KData × Buffer) := do
  let key ← index cmd 1
  let (g, node) ← dbLookup g key
  match node with
  | none => .ok (g, outInt out (-2))
  | some ent => do
    let _ ← g.entry.load ent
    match g.heap.idx ent with
    | none => .ok (g, outInt out (-1))
    | some pos => do
      let item ← index g.heap.a pos
      .ok (g, outInt out (if item.val > now then (item.val - now).toInt64 else 0))

/-- The TTL loop of `process_timers`. -/
def expireLoop (now : UInt64) : Nat → Nat → KData → Exec KData
  | 0, _, _ => .error .fuel
  | fuel + 1, nworks, g =>
    match g.heap.a with
    | [] => .ok g
    | first :: _ =>
      if first.val < now then do
        let ent := first.ref
        let e ← g.entry.load ent
        let (db, node) ← hmDelete g.db e.hcode (hnodeSame ent)
        check (node.map HNode.owner == some ent)
        let g ← entryDel { g with db := db } ent
        -- don't stall the server if too many keys are expiring at once
        if nworks ≥ kMaxWorks then .ok g else expireLoop now fuel (nworks + 1) g
      else .ok g

/-- `process_timers`, from the heap on. -/
def processTtl (g : KData) (now : UInt64) : Exec KData := expireLoop now (kMaxWorks + 2) 0 g

end Greenis
