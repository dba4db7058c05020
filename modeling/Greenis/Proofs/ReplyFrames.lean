/-
  Every reply is accepted whole by the client.

  The body of a reply is an encoding, and so is the error that replaces one that is too long. The
  frame of a body tells its length, and `print_response` takes the body for one value of that
  length, so that `read_res` finds nothing wrong.
-/
import Greenis.Proofs.Conn
import Greenis.Proofs.KeyspaceRuns
import Greenis.Proofs.PrintResponse

namespace Greenis
open CExec LTS LittleEndian

/-- The bytes the kernel hands out: some of those asked for, and at least one. -/
def Reads (read : Nat → Nat → Int) : Prop := ∀ i n, 0 < n → 0 < read i n ∧ read i n ≤ n

theorem readFull_spec {read : Nat → Nat → Int} (hread : Reads read) (rest : Bytes) :
    ∀ (fuel i : Nat) (buf : Bytes), buf.length ≤ fuel →
      readFull read fuel i buf.length (buf ++ rest) = .ok (0, buf, rest) := by
  intro fuel
  induction fuel with
  | zero =>
    intro i buf h
    obtain rfl : buf = [] := List.eq_nil_of_length_eq_zero (by omega)
    rfl
  | succ fuel ih =>
    intro i buf h
    cases buf with
    | nil => rfl
    | cons b buf =>
      obtain ⟨hpos, hle⟩ := hread i (buf.length + 1) (Nat.succ_pos _)
      have hnat : (read i (buf.length + 1)).toNat ≤ (b :: buf).length := by
        rw [List.length_cons]
        omega
      have hdrop : ((b :: buf).drop (read i (buf.length + 1)).toNat).length =
          buf.length + 1 - (read i (buf.length + 1)).toNat := by
        rw [List.length_drop, List.length_cons]
      have hrest := ih (i + 1) ((b :: buf).drop (read i (buf.length + 1)).toNat)
        (by rw [hdrop]; rw [List.length_cons] at h; omega)
      rw [hdrop] at hrest
      rw [List.length_cons, readFull]
      dsimp only
      rw [if_neg (by omega), check_of (by simpa using hle), ok_bind,
        List.drop_append_of_le_length hnat, hrest, ok_bind]
      dsimp only
      rw [List.take_append_of_le_length hnat, List.take_append_drop]

/-- `read_res` on the frame of a value. -/
theorem readRes_value {read read' : Nat → Nat → Int} (hread : Reads read) (hread' : Reads read')
    {body : Bytes} (hval : IsValue body) (hlen : body.length ≤ kMaxMsg) (more : Bytes) :
    readRes read read' (frame body ++ more) = .ok (Int32.ofNat body.length) := by
  have hmax : kMaxMsg = 4096 := rfl
  have hfield : UInt32.ofNat (valueOf (bytesOf 4 body.length)) = UInt32.ofNat body.length := by
    rw [field_lt (by omega)]
  have hhead := readFull_spec hread (body ++ more) 4 0 (bytesOf 4 body.length) (by simp)
  have hbody := readFull_spec hread' more body.length 0 body (Nat.le_refl _)
  have hprint := printResponse_value hval (by omega) []
  rw [List.append_nil] at hprint
  rw [length_bytesOf] at hhead
  have hback : (Int32.ofNat body.length).toUInt32 = UInt32.ofNat body.length := by
    rw [← UInt32.toInt32_ofNat', UInt32.toUInt32_toInt32]
  unfold readRes
  rw [frame, List.append_assoc, hhead, ok_bind]
  dsimp only
  rw [if_neg (by decide), hfield, u32_toNat (by omega), if_neg (by omega), hbody, ok_bind]
  dsimp only
  rw [if_neg (by decide), hprint, ok_bind, hback, if_neg (fun h => h.2 rfl)]

theorem capped_length_le (body : Bytes) : (capped body).length ≤ kMaxMsg := by
  unfold capped
  split
  · decide
  · omega

/-- What is sent for a reply is a value. -/
theorem capped_isValue (r : Reply) : IsValue (capped r.encode) := by
  unfold capped
  split
  · exact Scalar.isValue (by decide)
  · have hmax : kMaxMsg = 4096 := rfl
    exact Reply.isValue (by omega)

variable {strtod : Strtod}

/-- **Every reply is accepted whole by the client.** A request returns, unless it is a query of a
    set of 2^32 tuples or more. It appends one frame to what is in the buffer; its body is the reply,
    or the error that replaces one that is too long, and it is one value of the reply grammar, which
    `print_response` and `read_res` accept. -/
theorem reply_accepted {ls : List KEvent} {s : KState} (hrun : Run (KStep strtod) {} ls s)
    (now : UInt64) (cmd : List Bytes) (out : Buffer) :
    (∃ a, Refines s.data a ∧ (a.Specified (Command.of strtod cmd) →
      ∃ g out', doRequest strtod s.data now cmd (responseBegin out).1 = .ok (g, out'))) ∧
    ∀ g out', doRequest strtod s.data now cmd (responseBegin out).1 = .ok (g, out') →
      ∃ body, out' = (responseBegin out).1 ++ body ∧
        responseEnd out' (responseBegin out).2 = .ok (out ++ frame (capped body)) ∧
        1 ≤ (capped body).length ∧ (capped body).length ≤ kMaxMsg ∧ IsValue (capped body) ∧
        printResponse (capped body) = .ok (Int32.ofNat (capped body).length) ∧
        ∀ read read' more, Reads read → Reads read' →
          readRes read read' (frame (capped body) ++ more) =
            .ok (Int32.ofNat (capped body).length) := by
  obtain ⟨a, ha⟩ := exists_refines (run_keeps KInv.empty hrun).1
  have hserves := doRequest_spec strtod ha now cmd (responseBegin out).1
  refine ⟨⟨a, ha, fun hspec => ?_⟩, fun g out' hres => ?_⟩
  · obtain ⟨⟨g, out'⟩, hres⟩ := hserves.returns hspec
    exact ⟨g, out', hres⟩
  obtain ⟨r, hout, -⟩ := (hserves.answered _ hres).reply
  have hbegin : responseBegin out = (out ++ bytesOf 4 0, out.length) := rfl
  have hval := capped_isValue r
  have hle := capped_length_le r.encode
  have hmax : kMaxMsg = 4096 := rfl
  have hprint := printResponse_value hval (by omega) []
  rw [List.append_nil] at hprint
  refine ⟨r.encode, hout, ?_, hval.length_pos, hle, hval, hprint, ?_⟩
  · dsimp only at hout
    rw [hout, hbegin, responseEnd_spec]
  · intro read read' more hread hread'
    exact readRes_value hread hread' hval hle more

/-- The reply to `get` of a string that has been set, after another reply. -/
theorem reply_accepted_get : ∃ (g g' : KData) (out' : Buffer),
    doRequest (fun _ => (⟨0⟩, 0)) g 0 [ascii "get", [107]] (responseBegin [1, 0, 0, 0, 0]).1 =
      .ok (g', out') ∧
    responseEnd out' 5 =
      .ok ([1, 0, 0, 0, 0] ++ frame (capped (Scalar.str [118]).encode)) := by
  set strtod : Strtod := fun _ => (⟨0⟩, 0)
  obtain ⟨ls, s, hrun, -, -, h⟩ := exists_run strtod [[ascii "set", [107], [118]]] (by
    intro cmd hcmd a
    obtain rfl := List.mem_singleton.mp hcmd
    trivial)
  obtain ⟨⟨a, ha, hreturns⟩, haccepted⟩ :=
    reply_accepted hrun 0 [ascii "get", [107]] [1, 0, 0, 0, 0]
  obtain ⟨g, out', hres⟩ := hreturns trivial
  obtain ⟨r, hout, hr⟩ := ((doRequest_spec strtod h 0 [ascii "get", [107]]
    (responseBegin [1, 0, 0, 0, 0]).1).answered _ hres).reply
  obtain rfl : r = .one (.str [118]) := hr
  obtain ⟨body, hout', hend, -⟩ := haccepted g out' hres
  obtain rfl := List.append_cancel_left (hout'.symm.trans hout)
  exact ⟨s.data, g, out', hres, hend⟩

end Greenis
