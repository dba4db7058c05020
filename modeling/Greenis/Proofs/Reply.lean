/-
  The output functions append the encoding of a reply.
-/
import Greenis.Model.Response
import Greenis.Spec.Reply

namespace Greenis
open CExec LittleEndian

theorem bytesOf_u32 (n : Nat) : bytesOf 4 (UInt32.ofNat n).toNat = bytesOf 4 n := by
  rw [UInt32.toNat_ofNat']
  exact bytesOf_mod 4 n

theorem outNil_eq (out : Buffer) : outNil out = out ++ Scalar.nil.encode := rfl

theorem outStr_eq (out : Buffer) (s : Bytes) : outStr out s = out ++ (Scalar.str s).encode := by
  unfold outStr bufAppendU32 bufAppend bufAppendU8
  rw [bytesOf_u32, Scalar.encode]
  simp

theorem outInt_eq (out : Buffer) {val : Int64} {x : Int} (h : Int64.ofInt x = val) :
    outInt out val = out ++ (Scalar.int x).encode := by
  unfold outInt bufAppendI64 bufAppend bufAppendU8
  rw [Scalar.encode, h]
  simp

theorem outDbl_eq (out : Buffer) (val : Double) :
    outDbl out val = out ++ (Scalar.dbl val).encode := by
  unfold outDbl bufAppendDbl bufAppend bufAppendU8
  rw [Scalar.encode]
  simp

theorem outErr_eq (out : Buffer) (code : ErrorCode) (msg : Bytes) :
    outErr out code msg = out ++ (Scalar.err code msg).encode := by
  unfold outErr bufAppendU32 bufAppend bufAppendU8
  rw [bytesOf_u32, Scalar.encode]
  simp

theorem outArr_eq (out : Buffer) (n : Nat) :
    outArr out (UInt32.ofNat n) = out ++ tagArr :: bytesOf 4 n := by
  unfold outArr bufAppendU32 bufAppend bufAppendU8
  rw [bytesOf_u32]
  simp

theorem encodeAll_append (vs ws : List Scalar) :
    encodeAll (vs ++ ws) = encodeAll vs ++ encodeAll ws := List.flatMap_append

/-- Writing over the bytes between `pre` and `post`. -/
theorem bufWriteAt_mid (pre old post data : Bytes) (h : old.length = data.length) :
    bufWriteAt (pre ++ old ++ post) pre.length data = .ok (pre ++ data ++ post) := by
  unfold bufWriteAt
  rw [if_pos (by simp only [List.length_append]; omega)]
  have hdrop : (pre ++ old ++ post).drop (pre.length + data.length) = post := by
    rw [← h, ← List.length_append, List.drop_left]
  rw [hdrop, List.append_assoc pre old, List.take_left]

/-- An array whose count is filled in after its values. -/
theorem outEndArr_eq (out : Buffer) (vs : List Scalar) :
    outEndArr ((outBeginArr out).1 ++ encodeAll vs) (outBeginArr out).2 (UInt32.ofNat vs.length) =
      .ok (out ++ (Reply.arr vs).encode) := by
  have hbegin : outBeginArr out = (out ++ tagArr :: bytesOf 4 0, out.length + 1) := by
    unfold outBeginArr
    simp [bufAppendU32, bufAppend, bufAppendU8]
  have htag : index (out ++ tagArr :: bytesOf 4 0 ++ encodeAll vs) out.length = .ok tagArr :=
    index_of_getElem? (by simp)
  have hmid := bufWriteAt_mid (out ++ [tagArr]) (bytesOf 4 0) (encodeAll vs) (bytesOf 4 vs.length)
    (by simp)
  rw [hbegin]
  unfold outEndArr
  rw [Nat.add_sub_cancel, htag, ok_bind, check_of (show (tagArr == tagArr) = true from rfl),
    ok_bind, bytesOf_u32]
  simpa [Reply.encode] using hmid

end Greenis
