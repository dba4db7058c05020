/-
  An error reply means that nothing has happened, and reads do not write.

  The commands that change the keyspace reply nil or an integer, which no limit on the size of a
  reply can turn into an error (`next_of_err`). The clock may be any: the keyspace is the one the
  64-bit sums of the code leave (`Keyspace.after`).
-/
import Greenis.Proofs.Conn
import Greenis.Proofs.KeyspaceRuns

namespace Greenis
open CExec LTS LittleEndian

/-- The names of the commands that only read. -/
def readNames : List Bytes :=
  [ascii "get", ascii "keys", ascii "pttl", ascii "zscore", ascii "zquery"]

/-- The frame of the reply carries an error. -/
def CarriesErr (body : Bytes) : Prop := (capped body).head? = some tagErr

theorem not_carriesErr_nil : ¬ CarriesErr (Reply.one .nil).encode := by
  unfold CarriesErr
  decide

theorem not_carriesErr_int (x : Int) : ¬ CarriesErr (Reply.one (.int x)).encode := by
  have hshort : ¬ (Reply.one (.int x)).encode.length > kMaxMsg := by
    simp [Reply.encode, Scalar.encode, kMaxMsg]
  unfold CarriesErr capped
  rw [if_neg hshort, Reply.encode, Scalar.encode, List.head?_cons]
  decide

section Keyspaces

variable {a : Keyspace} {now : UInt64} {r : Reply}

/-- A command that is answered with an error leaves the keyspace as it is. -/
theorem after_of_err {c : Command} (hr : a.Replies now.toNat c r) (herr : CarriesErr r.encode) :
    a.after now c = a := by
  cases c with
  | get | pttl | keys | zscore | zquery | unknown => rfl
  | set key value =>
    dsimp only [Keyspace.after, Keyspace.next]
    cases ha : a.lookup key with
    | none =>
      obtain rfl : r = .one .nil := by simpa [Keyspace.Replies, Keyspace.reply, ha] using hr
      exact absurd herr not_carriesErr_nil
    | some item =>
      obtain ⟨v, expiry⟩ := item
      cases v with
      | str s =>
        obtain rfl : r = .one .nil := by simpa [Keyspace.Replies, Keyspace.reply, ha] using hr
        exact absurd herr not_carriesErr_nil
      | zset m => rfl
  | del key =>
    obtain rfl : r = .one (.int (if key ∈ a then 1 else 0)) := hr
    exact absurd herr (not_carriesErr_int _)
  | pexpire key ttl =>
    cases ttl with
    | none => rfl
    | some ttlMs =>
      obtain rfl : r = .one (.int (if key ∈ a then 1 else 0)) := hr
      exact absurd herr (not_carriesErr_int _)
  | zadd key score name =>
    cases score with
    | none => rfl
    | some score =>
      cases hz : a.zset key with
      | none =>
        -- Only a string is no set.
        unfold Keyspace.zset at hz
        dsimp only [Keyspace.after, Keyspace.next]
        cases ha : a.lookup key with
        | none =>
          rw [ha] at hz
          cases hz
        | some item =>
          obtain ⟨v, expiry⟩ := item
          cases v with
          | str s => rfl
          | zset m =>
            rw [ha] at hz
            cases hz
      | some m =>
        obtain rfl : r = .one (.int (if name ∈ m then 0 else 1)) := by
          simpa [Keyspace.Replies, Keyspace.reply, hz] using hr
        exact absurd herr (not_carriesErr_int _)
  | zrem key name =>
    cases hz : a.zset key with
    | none =>
      dsimp only [Keyspace.after, Keyspace.next]
      rw [hz]
    | some m =>
      obtain rfl : r = .one (.int (if name ∈ m then 1 else 0)) := by
        simpa [Keyspace.Replies, Keyspace.reply, hz] using hr
      exact absurd herr (not_carriesErr_int _)

/-- A command with the name of a read leaves the keyspace as it is. -/
theorem after_of_read {strtod : Strtod} {cmd : List Bytes} {name : Bytes}
    (hname : cmd.head? = some name) (hread : name ∈ readNames) :
    a.after now (Command.of strtod cmd) = a := by
  have hset : name ≠ ascii "set" := fun h => absurd (h ▸ hread) (by decide)
  have hdel : name ≠ ascii "del" := fun h => absurd (h ▸ hread) (by decide)
  have hexpire : name ≠ ascii "pexpire" := fun h => absurd (h ▸ hread) (by decide)
  have hzadd : name ≠ ascii "zadd" := fun h => absurd (h ▸ hread) (by decide)
  have hzrem : name ≠ ascii "zrem" := fun h => absurd (h ▸ hread) (by decide)
  unfold Command.of
  -- The commands that write have other names, whatever their number of arguments.
  split
  case h_1 =>
    split_ifs <;> rfl
  case h_2 =>
    cases hname
    rw [if_neg hdel]
    split_ifs <;> rfl
  case h_3 =>
    cases hname
    rw [if_neg hset, if_neg hexpire, if_neg hzrem]
    split_ifs <;> rfl
  case h_4 =>
    cases hname
    rw [if_neg hzadd]
    rfl
  case h_5 =>
    split_ifs <;> rfl
  case h_6 => rfl

end Keyspaces

variable {strtod : Strtod}

/-- **An error reply means that nothing has happened**, and reads do not write: a request that is
    served sends one frame, and if it carries an error, or if the command is a read, the memory
    stands for the same keyspace as before. -/
theorem error_changes_nothing {ls : List KEvent} {s : KState} (hrun : Run (KStep strtod) {} ls s) :
    (∃ a, Refines s.data a) ∧ ∀ a, Refines s.data a → ∀ now conn g conn',
      tryOneRequest (doRequest strtod) s.data now conn = .ok (true, g, conn') →
      ∃ cmd rest body, StartsWith conn.incoming cmd rest ∧
        conn'.outgoing = conn.outgoing ++ frame body ∧
        (body.head? = some tagErr → Refines g a) ∧
        ∀ name ∈ readNames, cmd.head? = some name → Refines g a := by
  refine ⟨exists_refines (run_keeps KInv.empty hrun).1, fun a ha now conn g conn' htry => ?_⟩
  rcases head_cases conn.incoming with h | h | ⟨cmd, rest, h⟩
  · rw [tryOneRequest_unfinished h] at htry
    cases htry
  · rw [tryOneRequest_invalid h] at htry
    cases htry
  · rw [tryOneRequest_startsWith h] at htry
    obtain ⟨⟨g', out'⟩, happ, htry⟩ := bind_eq_ok.mp htry
    have hans := (doRequest_spec strtod ha now cmd _).answered _ (within_eq_ok.mp happ)
    obtain ⟨r, rfl, hr⟩ := hans.reply
    dsimp only at htry
    rw [responseEnd_spec, ok_bind] at htry
    cases htry
    refine ⟨cmd, rest, _, h, rfl, fun herr => ?_, fun name hread hname => ?_⟩
    · have hafter := hans.after
      rwa [after_of_err hr herr] at hafter
    · have hafter := hans.after
      rwa [after_of_read hname hread] at hafter

/-- `zscore` on a string is answered with an error, and changes nothing. -/
theorem error_changes_nothing_zscore : ∃ (a : Keyspace) (g g' : KData) (conn conn' : Conn),
    tryOneRequest (doRequest fun _ => (⟨0⟩, 0)) g 0 conn = .ok (true, g', conn') ∧
      Refines g a ∧ Refines g' a ∧ [107] ∈ a := by
  set strtod : Strtod := fun _ => (⟨0⟩, 0)
  set cmds := [[ascii "set", [107], [118]]] with hcmds
  obtain ⟨ls, s, hrun, -, -, h⟩ := exists_run strtod cmds (by
    intro cmd hcmd a
    obtain rfl := List.mem_singleton.mp hcmd
    trivial)
  set cmd := [ascii "zscore", [107], []] with hcmd
  set conn : Conn := { fd := 0, incoming := frame (encodeCmd cmd) }
  have hstarts : StartsWith conn.incoming cmd [] :=
    ⟨encodeCmd cmd, (List.append_nil _).symm, by decide, ⟨rfl, by decide, by decide⟩⟩
  have hserves := doRequest_spec strtod h 0 cmd (conn.outgoing ++ bytesOf 4 0)
  obtain ⟨⟨g, out⟩, hres⟩ := hserves.returns trivial
  obtain ⟨r, rfl, hr⟩ := (hserves.answered _ hres).reply
  have htry : tryOneRequest (doRequest strtod) s.data 0 conn = .ok (true, g,
      { conn with incoming := [], outgoing := conn.outgoing ++ frame (capped r.encode) }) := by
    rw [tryOneRequest_startsWith hstarts, within_eq_ok.mpr hres, ok_bind]
    dsimp only
    rw [responseEnd_spec, ok_bind]
  obtain ⟨-, -, body, -, hout, herr, -⟩ := (error_changes_nothing hrun).2 _ h 0 conn _ _ htry
  have hbody : body = capped r.encode :=
    ((List.append_inj (List.append_cancel_left hout) (by simp)).2).symm
  obtain rfl : r = .one (.err .badTyp (ascii "expect zset")) := hr
  exact ⟨_, _, _, conn, _, htry, h, herr (by rw [hbody]; rfl), by decide⟩

end Greenis
