/-
  What the server is for: a map from keys to values with an optional expiry time.

  `Command.of` reads a command vector, `next` says what the command leaves of the keyspace, and
  `Replies` which replies are right. Only the order of the keys in the reply to `keys` is open.
  `Expires` is a timer pass: the keys that are due go, earliest first, up to a number of keys.
-/
import Greenis.Model.Utils
import Greenis.Spec.Reply
import Greenis.Spec.Scores

namespace Greenis

inductive Value where
  | str (s : Bytes)
  | zset (m : Scores)

/-- A value, and the time in milliseconds from which on it is due. -/
structure Item where
  value : Value
  expiry : Option Nat := none

abbrev Keyspace := Finmap fun _ : Bytes => Item

/-- A parsed command. An argument that is not a number is `none`. -/
inductive Command where
  | get (key : Bytes)
  | set (key value : Bytes)
  | del (key : Bytes)
  | pexpire (key : Bytes) (ttlMs : Option Int64)
  | pttl (key : Bytes)
  | keys
  | zadd (key : Bytes) (score : Option Double) (name : Bytes)
  | zrem (key name : Bytes)
  | zscore (key name : Bytes)
  | zquery (key : Bytes) (score : Option Double) (name : Bytes) (offset limit : Option Int64)
  | unknown

def Command.of (strtod : Strtod) : List Bytes → Command
  | [c] => if c = ascii "keys" then .keys else .unknown
  | [c, key] =>
    if c = ascii "get" then .get key
    else if c = ascii "del" then .del key
    else if c = ascii "pttl" then .pttl key
    else .unknown
  | [c, key, x] =>
    if c = ascii "set" then .set key x
    else if c = ascii "pexpire" then .pexpire key (str2int x)
    else if c = ascii "zrem" then .zrem key x
    else if c = ascii "zscore" then .zscore key x
    else .unknown
  | [c, key, score, name] =>
    if c = ascii "zadd" then .zadd key (str2dbl strtod score) name else .unknown
  | [c, key, score, name, offset, limit] =>
    if c = ascii "zquery" then
      .zquery key (str2dbl strtod score) name (str2int offset) (str2int limit)
    else .unknown
  | _ => .unknown

namespace Keyspace

/-- The expiry that a TTL sets at time `now`; a negative TTL removes it. -/
def deadline (now : Nat) (ttlMs : Int64) : Option Nat :=
  if ttlMs < 0 then none else some (now + ttlMs.toInt.toNat)

/-- The set of a key, which is empty for a key that does not exist. -/
def zset (a : Keyspace) (key : Bytes) : Option Scores :=
  match a.lookup key with
  | none => some ∅
  | some ⟨.zset m, _⟩ => some m
  | some ⟨.str _, _⟩ => none

/-- Replace the value of a key that exists by a set. -/
def setZset (a : Keyspace) (key : Bytes) (m : Scores) : Keyspace :=
  match a.lookup key with
  | none => a
  | some item => a.insert key { item with value := .zset m }

/-- The keyspace after a command at time `now`. -/
def next (a : Keyspace) (now : Nat) : Command → Keyspace
  | .set key value =>
    match a.lookup key with
    | none => a.insert key { value := .str value }
    | some ⟨.str _, expiry⟩ => a.insert key ⟨.str value, expiry⟩
    | some ⟨.zset _, _⟩ => a
  | .del key => a.erase key
  | .pexpire key (some ttlMs) =>
    match a.lookup key with
    | none => a
    | some item => a.insert key { item with expiry := deadline now ttlMs }
  | .zadd key (some score) name =>
    match a.lookup key with
    | none => a.insert key { value := .zset (Finmap.insert name score ∅) }
    | some ⟨.zset m, expiry⟩ =>
      a.insert key ⟨.zset (m.insert name (keptScore (m.lookup name) score)), expiry⟩
    | some ⟨.str _, _⟩ => a
  | .zrem key name =>
    match a.zset key with
    | some m => a.setZset key (m.erase name)
    | none => a
  | _ => a

/-- The reply to a command that replies with one value. -/
def reply (a : Keyspace) (now : Nat) : Command → Scalar
  | .get key =>
    match a.lookup key with
    | none => .nil
    | some ⟨.str s, _⟩ => .str s
    | some ⟨.zset _, _⟩ => .err .badTyp (ascii "not a string value")
  | .set key _ =>
    match a.lookup key with
    | some ⟨.zset _, _⟩ => .err .badTyp (ascii "a non-string value exists")
    | _ => .nil
  | .del key => .int (if key ∈ a then 1 else 0)
  | .pexpire _ none => .err .badArg (ascii "expect int64")
  | .pexpire key (some _) => .int (if key ∈ a then 1 else 0)
  | .pttl key =>
    match a.lookup key with
    | none => .int (-2)
    | some ⟨_, none⟩ => .int (-1)
    | some ⟨_, some expiry⟩ => .int (expiry - now : Nat)
  | .zadd _ none _ => .err .badArg (ascii "expect float")
  | .zadd key (some _) name =>
    match a.zset key with
    | none => .err .badTyp (ascii "expect zset")
    | some m => .int (if name ∈ m then 0 else 1)
  | .zrem key name =>
    match a.zset key with
    | none => .err .badTyp (ascii "expect zset")
    | some m => .int (if name ∈ m then 1 else 0)
  | .zscore key name =>
    match a.zset key with
    | none => .err .badTyp (ascii "expect zset")
    | some m => (m.lookup name).elim .nil .dbl
  | .zquery _ none _ _ _ => .err .badArg (ascii "expect fp number")
  | .zquery _ _ _ none _ | .zquery _ _ _ _ none => .err .badArg (ascii "expect int")
  | .zquery _ _ _ _ _ => .err .badTyp (ascii "expect zset")
  | .keys | .unknown => .err .unknown (ascii "unknown command.")

/-- The values a tuple is replied as. -/
def ofTuple (t : Tuple) : List Scalar := [.str t.1, .dbl t.2]

/-- A query is specified on sets of less than 2^32 tuples. -/
def Specified (a : Keyspace) : Command → Prop
  | .zquery key _ _ _ _ => ∀ m ts, a.zset key = some m → Listing m ts → ts.length < 2 ^ 32
  | _ => True

/-- The right replies to a command at time `now`. -/
def Replies (a : Keyspace) (now : Nat) (c : Command) (r : Reply) : Prop :=
  match c with
  | .keys => ∃ ks : List Bytes, ks.Nodup ∧ (∀ k, k ∈ ks ↔ k ∈ a) ∧ r = .arr (ks.map .str)
  | .zquery key (some score) name (some offset) (some limit) =>
    match a.zset key with
    | none => r = .one (a.reply now c)
    | some m => ∀ ts, Listing m ts → ts.length < 2 ^ 32 →
        r = .arr ((window ts score name offset.toInt limit.toInt).flatMap ofTuple)
  | c => r = .one (a.reply now c)

/-- No key is due before time `t`. -/
def NoneBefore (a : Keyspace) (t : Nat) : Prop :=
  ∀ key item e, a.lookup key = some item → item.expiry = some e → t ≤ e

/-- What a timer pass at time `now` may leave when it may remove `n` keys. -/
inductive Expires (now : Nat) : Nat → Keyspace → Keyspace → Prop
  | idle {n : Nat} {a : Keyspace} : a.NoneBefore now → Expires now n a a
  | full {a : Keyspace} : Expires now 0 a a
  | due {n : Nat} {a a' : Keyspace} {key : Bytes} {item : Item} {e : Nat} :
      a.lookup key = some item → item.expiry = some e → e < now → a.NoneBefore e →
      Expires now n (a.erase key) a' → Expires now (n + 1) a a'

end Keyspace

/-! ## The machine -/

/-- What happens to the keyspace: a request with the bytes of its reply, a timer pass, or a worker
    of the thread pool that takes a job. -/
inductive KEvent where
  | request (now : UInt64) (cmd : List Bytes) (reply : Bytes)
  | timers (now : UInt64)
  | work

/-- The clock is below 2^63. -/
def KEvent.Timely : KEvent → Prop
  | .request now _ _ => now.toNat < 2 ^ 63
  | .timers now => now.toNat < 2 ^ 63
  | .work => True

/-- A keyspace, and the last clock reading. -/
structure Machine where
  clock : Nat := 0
  keys : Keyspace := ∅

inductive Machine.Step (strtod : Strtod) : Machine → KEvent → Machine → Prop
  | request {m : Machine} {now : UInt64} {cmd : List Bytes} {r : Reply} :
      m.clock ≤ now.toNat → m.keys.Replies now.toNat (Command.of strtod cmd) r →
      Step strtod m (.request now cmd r.encode)
        ⟨now.toNat, m.keys.next now.toNat (Command.of strtod cmd)⟩
  | timers {m : Machine} {now : UInt64} {keys : Keyspace} :
      m.clock ≤ now.toNat → Keyspace.Expires now.toNat (kMaxWorks + 1) m.keys keys →
      Step strtod m (.timers now) ⟨now.toNat, keys⟩
  | work {m : Machine} : Step strtod m .work m

end Greenis
