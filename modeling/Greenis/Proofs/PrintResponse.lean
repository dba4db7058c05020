/-
  `print_response` and the grammar of replies.

  One lemma per kind of bytes says what `print_response` does (`Shape`), and the fuel of the model
  does not matter (`printNested_fuel`). It returns the length of every value (`printResponse_value`).
  Without a header that wraps it takes nothing else for a value (`sound_of_reaches`); a header that
  wraps it takes for a value that it is not (`Wraps.not_sound`).
-/
import Greenis.Model.Query
import Greenis.Proofs.RequestCodec
import Greenis.Spec.ReplyGrammar
import Mathlib.Data.List.Induction

namespace Greenis
open CExec LittleEndian

/-! ## 32-bit sums -/

theorem field_lt {len : Nat} (h : len < 2 ^ 32) : valueOf (bytesOf 4 len) = len :=
  valueOf_bytesOf_of_lt (w := 4) h

theorem u32_toNat {n : Nat} (h : n < 2 ^ 32) : (UInt32.ofNat n).toNat = n := by
  rw [UInt32.toNat_ofNat']
  exact Nat.mod_eq_of_lt h

theorem strSum_toNat (len : Nat) : (1 + 4 + UInt32.ofNat len).toNat = (5 + len) % 2 ^ 32 := by
  rw [UInt32.toNat_add, UInt32.toNat_ofNat']
  simp

theorem errSum_toNat (len : Nat) : (1 + 8 + UInt32.ofNat len).toNat = (9 + len) % 2 ^ 32 := by
  rw [UInt32.toNat_add, UInt32.toNat_ofNat']
  simp

theorem u32_toInt32 {x : UInt32} {n : Nat} (h : x.toNat = n) : x.toInt32 = Int32.ofNat n := by
  rw [← h, ← UInt32.toInt32_ofNat', UInt32.ofNat_toNat]

theorem toInt_ofNat {n : Nat} (h : n < 2 ^ 31) : (Int32.ofNat n).toInt = n :=
  Int32.toInt_ofNat_of_lt h

/-- A text of its length is there to be printed. -/
theorem printStr_fits {len : Nat} {s : Bytes} (hfits : len ≤ s.length) (hlen : len < 2 ^ 31) :
    printStr (UInt32.ofNat len) s = .ok () := by
  have hnat : (UInt32.ofNat len).toNat = len := u32_toNat (by omega)
  have hint : (0 : Int32) ≤ (UInt32.ofNat len).toInt32 := by
    rw [u32_toInt32 hnat, Int32.le_iff_toInt_le, toInt_ofNat hlen]
    exact Int.natCast_nonneg len
  exact if_pos (Or.inl ⟨hint, by rwa [hnat]⟩)

theorem u32At_field (pre : Bytes) {len : Nat} (hlen : len < 2 ^ 32) (post : Bytes) :
    u32At (pre ++ bytesOf 4 len ++ post) pre.length = .ok (UInt32.ofNat len) := by
  have hslice := slice_mid pre (bytesOf 4 len) post
  rw [length_bytesOf] at hslice
  unfold u32At
  rw [hslice, ok_bind, field_lt hlen]

/-! ## One value -/

theorem printNested_nil (fuel : Nat) (rest : Bytes) :
    printNested (fuel + 1) (tagNil :: rest) = .ok 1 := by
  unfold printNested
  rw [if_neg (by simp), index_of_getElem? (a := tagNil) rfl, ok_bind, if_pos rfl]

theorem printNested_err (fuel : Nat) {code : Bytes} {len : Nat} (hcode : code.length = 4)
    (hlen : len < 2 ^ 32) (rest : Bytes) :
    printNested (fuel + 1) (tagErr :: (code ++ bytesOf 4 len ++ rest)) =
      if 9 + rest.length < (9 + len) % 2 ^ 32 then .ok (-1)
      else printStr (UInt32.ofNat len) rest >>= fun _ => .ok (Int32.ofNat ((9 + len) % 2 ^ 32)) := by
  have hsize : (tagErr :: (code ++ bytesOf 4 len ++ rest)).length = 9 + rest.length := by
    simp [hcode]
    omega
  have hslice := slice_mid [tagErr] code (bytesOf 4 len ++ rest)
  have hfield := u32At_field ([tagErr] ++ code) hlen rest
  have hdrop : (tagErr :: (code ++ bytesOf 4 len ++ rest)).drop (1 + 8) = rest := by
    have h : ([tagErr] ++ code ++ bytesOf 4 len ++ rest).drop 9 = rest :=
      List.drop_left' (by simp [hcode])
    simp only [List.cons_append, List.nil_append, List.append_assoc] at h ⊢
    exact h
  simp only [List.cons_append, List.nil_append, List.append_assoc, List.length_cons,
    List.length_nil, hcode] at hslice hfield
  simp only [List.append_assoc] at hsize hdrop ⊢
  unfold printNested
  rw [if_neg (by omega), index_of_getElem? (a := tagErr) rfl, ok_bind, if_neg (by decide),
    if_pos rfl, if_neg (by omega), hslice, ok_bind, hfield, ok_bind]
  rw [errSum_toNat, hsize, hdrop, u32_toInt32 (errSum_toNat len)]

theorem printNested_str (fuel : Nat) {len : Nat} (hlen : len < 2 ^ 32) (rest : Bytes) :
    printNested (fuel + 1) (tagStr :: (bytesOf 4 len ++ rest)) =
      if 5 + rest.length < (5 + len) % 2 ^ 32 then .ok (-1)
      else printStr (UInt32.ofNat len) rest >>= fun _ => .ok (Int32.ofNat ((5 + len) % 2 ^ 32)) := by
  have hsize : (tagStr :: (bytesOf 4 len ++ rest)).length = 5 + rest.length := by
    simp
    omega
  have hfield : u32At (tagStr :: (bytesOf 4 len ++ rest)) 1 = .ok (UInt32.ofNat len) :=
    u32At_field [tagStr] hlen rest
  have hdrop : (tagStr :: (bytesOf 4 len ++ rest)).drop (1 + 4) = rest := by
    have h : ([tagStr] ++ bytesOf 4 len ++ rest).drop 5 = rest := List.drop_left' (by simp)
    rwa [List.append_assoc] at h
  unfold printNested
  rw [if_neg (by omega), index_of_getElem? (a := tagStr) rfl, ok_bind, if_neg (by decide),
    if_neg (by decide), if_pos rfl, if_neg (by omega), hfield, ok_bind]
  rw [strSum_toNat, hsize, hdrop, u32_toInt32 (strSum_toNat len)]

/-- A number of eight bytes. -/
theorem printNested_word (fuel : Nat) {tag : UInt8} (htag : tag = tagInt ∨ tag = tagDbl)
    {val : Bytes} (hval : val.length = 8) (rest : Bytes) :
    printNested (fuel + 1) (tag :: (val ++ rest)) = .ok 9 := by
  have hsize : (tag :: (val ++ rest)).length = 9 + rest.length := by
    simp [hval]
    omega
  have hslice : slice (tag :: (val ++ rest)) 1 8 = .ok val := by
    have h := slice_mid [tag] val rest
    rwa [hval] at h
  unfold printNested
  rw [if_neg (by omega), index_of_getElem? (a := tag) rfl, ok_bind]
  rcases htag with rfl | rfl
  · rw [if_neg (by decide), if_neg (by decide), if_neg (by decide), if_pos rfl,
      if_neg (by omega), hslice, ok_bind]
    rfl
  · rw [if_neg (by decide), if_neg (by decide), if_neg (by decide), if_neg (by decide),
      if_pos rfl, if_neg (by omega), hslice, ok_bind]
    rfl

theorem printNested_arr (fuel : Nat) {n : Nat} (hn : n < 2 ^ 32) (rest : Bytes) :
    printNested (fuel + 1) (tagArr :: (bytesOf 4 n ++ rest)) =
      printElems (printNested fuel) (tagArr :: (bytesOf 4 n ++ rest)) n 5 := by
  have hsize : (tagArr :: (bytesOf 4 n ++ rest)).length = 5 + rest.length := by
    simp
    omega
  have hfield : u32At (tagArr :: (bytesOf 4 n ++ rest)) 1 = .ok (UInt32.ofNat n) :=
    u32At_field [tagArr] hn rest
  conv_lhs => unfold printNested
  rw [if_neg (by omega), index_of_getElem? (a := tagArr) rfl, ok_bind, if_neg (by decide),
    if_neg (by decide), if_neg (by decide), if_neg (by decide), if_neg (by decide), if_pos rfl,
    if_neg (by omega), hfield, ok_bind, u32_toNat hn]

/-- All kinds of bytes. -/
inductive Shape : Bytes → Prop
  | nil (rest : Bytes) : Shape (tagNil :: rest)
  | err {code : Bytes} {len : Nat} (rest : Bytes) : code.length = 4 → len < 2 ^ 32 →
      Shape (tagErr :: (code ++ bytesOf 4 len ++ rest))
  | str {len : Nat} (rest : Bytes) : len < 2 ^ 32 → Shape (tagStr :: (bytesOf 4 len ++ rest))
  | word {tag : UInt8} {val : Bytes} (rest : Bytes) : tag = tagInt ∨ tag = tagDbl →
      val.length = 8 → Shape (tag :: (val ++ rest))
  | arr {n : Nat} (rest : Bytes) : n < 2 ^ 32 → Shape (tagArr :: (bytesOf 4 n ++ rest))
  | bad {data : Bytes} : (∀ fuel, printNested (fuel + 1) data = .ok (-1)) → Shape data

/-- A 32-bit field at the beginning. -/
theorem split_field {rest : Bytes} (h : 4 ≤ rest.length) :
    ∃ n post, n < 2 ^ 32 ∧ rest = bytesOf 4 n ++ post := by
  obtain ⟨b, post, rfl, hb⟩ := split_at h
  have hbytes := bytesOf_valueOf b
  have hlt := valueOf_lt b
  rw [hb] at hbytes hlt
  exact ⟨valueOf b, post, hlt, by rw [hbytes]⟩

theorem shape (data : Bytes) : Shape data := by
  cases data with
  | nil => exact .bad fun _ => rfl
  | cons tag rest =>
    by_cases hnil : tag = tagNil
    · rw [hnil]
      exact .nil rest
    by_cases herr : tag = tagErr
    · rw [herr]
      by_cases hlen : 8 ≤ rest.length
      · obtain ⟨code, rest', rfl, hcode⟩ := split_at (show 4 ≤ rest.length by omega)
        obtain ⟨n, post, hn, rfl⟩ :=
          split_field (show 4 ≤ rest'.length by rw [List.length_append] at hlen; omega)
        rw [← List.append_assoc]
        exact .err post hcode hn
      · refine .bad fun fuel => ?_
        unfold printNested
        rw [if_neg (by simp), index_of_getElem? (a := tagErr) rfl, ok_bind, if_neg (by decide),
          if_pos rfl, if_pos (by rw [List.length_cons]; omega)]
    by_cases hstr : tag = tagStr
    · rw [hstr]
      by_cases hlen : 4 ≤ rest.length
      · obtain ⟨n, post, hn, rfl⟩ := split_field hlen
        exact .str post hn
      · refine .bad fun fuel => ?_
        unfold printNested
        rw [if_neg (by simp), index_of_getElem? (a := tagStr) rfl, ok_bind, if_neg (by decide),
          if_neg (by decide), if_pos rfl, if_pos (by rw [List.length_cons]; omega)]
    by_cases hword : tag = tagInt ∨ tag = tagDbl
    · by_cases hlen : 8 ≤ rest.length
      · obtain ⟨val, post, rfl, hval⟩ := split_at hlen
        exact .word post hword hval
      · have hshort : (tag :: rest).length < 1 + 8 := by rw [List.length_cons]; omega
        refine .bad fun fuel => ?_
        unfold printNested
        rw [if_neg (by simp), index_of_getElem? (a := tag) rfl, ok_bind, if_neg hnil, if_neg herr,
          if_neg hstr]
        by_cases hint : tag = tagInt
        · rw [if_pos hint, if_pos hshort]
        · rw [if_neg hint, if_pos (hword.resolve_left hint), if_pos hshort]
    by_cases harr : tag = tagArr
    · rw [harr]
      by_cases hlen : 4 ≤ rest.length
      · obtain ⟨n, post, hn, rfl⟩ := split_field hlen
        exact .arr post hn
      · refine .bad fun fuel => ?_
        unfold printNested
        rw [if_neg (by simp), index_of_getElem? (a := tagArr) rfl, ok_bind, if_neg (by decide),
          if_neg (by decide), if_neg (by decide), if_neg (by decide), if_neg (by decide),
          if_pos rfl, if_pos (by rw [List.length_cons]; omega)]
    · refine .bad fun fuel => ?_
      unfold printNested
      rw [if_neg (by simp), index_of_getElem? (a := tag) rfl, ok_bind, if_neg hnil, if_neg herr,
        if_neg hstr, if_neg (fun h => hword (Or.inl h)), if_neg (fun h => hword (Or.inr h)),
        if_neg harr]

/-! ## Enough fuel -/

/-- One element of an array. -/
theorem printElems_succ (print : Bytes → Exec Int32) {data : Bytes} (n : Nat) {arrBytes : Nat}
    (h : arrBytes ≤ data.length) :
    printElems print data (n + 1) arrBytes = print (data.drop arrBytes) >>= fun rv =>
      if rv < 0 then .ok rv else printElems print data n (arrBytes + rv.toInt.toNat) := by
  have htake : (data.drop arrBytes).take (data.length - arrBytes) = data.drop arrBytes :=
    List.take_of_length_le (Nat.le_of_eq List.length_drop)
  rw [printElems, slice_of_le (by omega), htake, ok_bind]

theorem printElems_congr {print print' : Bytes → Exec Int32} {data : Bytes}
    (h : ∀ sub : Bytes, sub.length < data.length → print sub = print' sub) :
    ∀ n arrBytes, 1 ≤ arrBytes →
      printElems print data n arrBytes = printElems print' data n arrBytes := by
  intro n
  induction n with
  | zero => intro arrBytes _; rfl
  | succ n ih =>
    intro arrBytes hpos
    by_cases hle : arrBytes ≤ data.length
    · by_cases hnil : data.length = 0
      · omega
      have hshort : (data.drop arrBytes).length < data.length := by
        rw [List.length_drop]
        omega
      rw [printElems_succ _ _ hle, printElems_succ _ _ hle, h _ hshort]
      apply congrArg
      funext rv
      rw [ih _ (by omega)]
    · have hout : slice data arrBytes (data.length - arrBytes) = .error .bounds :=
        if_neg (by omega)
      rw [printElems, printElems, hout, error_bind, error_bind]

theorem printNested_fuel : ∀ (fuel fuel' : Nat) (data : Bytes), data.length < fuel →
    data.length < fuel' → printNested fuel data = printNested fuel' data := by
  intro fuel
  induction fuel with
  | zero => intro fuel' data h; exact absurd h (Nat.not_lt_zero _)
  | succ fuel ih =>
    intro fuel' data hfuel hfuel'
    obtain ⟨fuel', rfl⟩ := Nat.exists_eq_succ_of_ne_zero (Nat.ne_zero_of_lt hfuel')
    cases shape data with
    | nil rest => rw [printNested_nil, printNested_nil]
    | err rest hcode hlen => rw [printNested_err _ hcode hlen, printNested_err _ hcode hlen]
    | str rest hlen => rw [printNested_str _ hlen, printNested_str _ hlen]
    | word rest htag hval => rw [printNested_word _ htag hval, printNested_word _ htag hval]
    | bad hbad => rw [hbad, hbad]
    | @arr n rest hn =>
      rw [printNested_arr _ hn, printNested_arr _ hn]
      have hagree : ∀ sub : Bytes, sub.length < (tagArr :: (bytesOf 4 n ++ rest)).length →
          printNested fuel sub = printNested fuel' sub := fun sub hsub =>
        ih fuel' sub (by omega) (by omega)
      apply printElems_congr hagree
      omega

/-- An array, without the fuel. -/
theorem printResponse_arr {n : Nat} (hn : n < 2 ^ 32) (rest : Bytes) :
    printResponse (tagArr :: (bytesOf 4 n ++ rest)) =
      printElems printResponse (tagArr :: (bytesOf 4 n ++ rest)) n 5 := by
  unfold printResponse
  rw [printNested_arr _ hn]
  apply printElems_congr
  · intro sub hsub
    exact printNested_fuel _ _ _ hsub (Nat.lt_succ_self _)
  · omega

/-! ## Values are accepted -/

/-- The elements of an array, each taken for a value. -/
theorem printElems_values {data rest : Bytes} : ∀ (vs : List Bytes) (pos : Nat),
    pos ≤ data.length → data.drop pos = vs.flatten ++ rest →
    (∀ v ∈ vs, ∀ post, printResponse (v ++ post) = .ok (Int32.ofNat v.length)) →
    pos + vs.flatten.length < 2 ^ 31 →
    printElems printResponse data vs.length pos = .ok (Int32.ofNat (pos + vs.flatten.length)) := by
  intro vs
  induction vs with
  | nil => intro pos _ _ _ _; rfl
  | cons v vs ih =>
    intro pos hpos hdrop hvs hlen
    rw [List.flatten_cons, List.append_assoc] at hdrop
    rw [List.flatten_cons, List.length_append] at hlen
    have hv : (Int32.ofNat v.length).toInt = v.length := toInt_ofNat (by omega)
    have hnonneg : ¬ Int32.ofNat v.length < 0 := by
      rw [Int32.lt_iff_toInt_lt, hv]
      exact Int.not_lt.mpr (Int.natCast_nonneg _)
    have hnext : data.drop (pos + v.length) = vs.flatten ++ rest := by
      rw [← List.drop_drop, hdrop, List.drop_left]
    have hle : pos + v.length ≤ data.length := by
      have := congrArg List.length hdrop
      rw [List.length_drop, List.length_append] at this
      omega
    rw [List.length_cons, printElems_succ _ _ hpos, hdrop, hvs v List.mem_cons_self, ok_bind,
      if_neg hnonneg, hv, Int.toNat_natCast,
      ih _ hle hnext (fun w hw => hvs w (List.mem_cons_of_mem _ hw)) (by omega),
      List.flatten_cons, List.length_append, Nat.add_assoc]

/-- A value is taken for what it is, whatever follows. -/
theorem printResponse_value {v : Bytes} (h : IsValue v) (hlen : v.length < 2 ^ 31) :
    ∀ rest, printResponse (v ++ rest) = .ok (Int32.ofNat v.length) := by
  induction h with
  | nil => intro rest; exact printNested_nil _ rest
  | @err code msg hcode hmsg =>
    intro rest
    simp only [List.length_cons, List.length_append, length_bytesOf, hcode] at hlen ⊢
    have hmod : (9 + msg.length) % 2 ^ 32 = 9 + msg.length := Nat.mod_eq_of_lt (by omega)
    rw [List.cons_append, List.append_assoc (code ++ _), printResponse, printNested_err _ hcode hmsg,
      hmod,
      if_neg (by rw [List.length_append]; omega), printStr_fits (by simp) (by omega), ok_bind]
    congr 2
    omega
  | @str s hs =>
    intro rest
    simp only [List.length_cons, List.length_append, length_bytesOf] at hlen ⊢
    have hmod : (5 + s.length) % 2 ^ 32 = 5 + s.length := Nat.mod_eq_of_lt (by omega)
    rw [List.cons_append, List.append_assoc, printResponse, printNested_str _ hs, hmod,
      if_neg (by rw [List.length_append]; omega), printStr_fits (by simp) (by omega), ok_bind]
    congr 2
    omega
  | int hval =>
    intro rest
    rw [List.cons_append, printResponse, printNested_word _ (Or.inl rfl) hval,
      List.length_cons, hval]
    rfl
  | dbl hval =>
    intro rest
    rw [List.cons_append, printResponse, printNested_word _ (Or.inr rfl) hval,
      List.length_cons, hval]
    rfl
  | @arr vs hvs _ ih =>
    intro rest
    have hdrop : (tagArr :: (bytesOf 4 vs.length ++ (vs.flatten ++ rest))).drop 5 =
        vs.flatten ++ rest := by
      have h : ([tagArr] ++ bytesOf 4 vs.length ++ (vs.flatten ++ rest)).drop 5 =
          vs.flatten ++ rest := List.drop_left' (by simp)
      rwa [List.append_assoc] at h
    have hsize : (tagArr :: (bytesOf 4 vs.length ++ vs.flatten)).length = 5 + vs.flatten.length := by
      simp
      omega
    have heach : ∀ v ∈ vs, ∀ post, printResponse (v ++ post) = .ok (Int32.ofNat v.length) := by
      intro v hv
      have hle := (List.sublist_flatten_of_mem hv).length_le
      exact ih v hv (by omega)
    rw [List.cons_append, List.append_assoc, printResponse_arr hvs,
      printElems_values vs 5 (by simp) hdrop heach (by omega), hsize]

/-! ## What is accepted -/

/-- `print_response` is right about `data`: it reads nothing else, and if it returns a number of
    bytes, they are a value. -/
def Sound (data : Bytes) : Prop :=
  ∃ rv, printResponse data = .ok rv ∧
    (0 ≤ rv.toInt → 1 ≤ rv.toInt ∧ rv.toInt ≤ data.length ∧ IsValue (data.take rv.toInt.toNat))

theorem sound_iff {data : Bytes} (h : data.length ≤ kMaxMsg) :
    Sound data ↔ (∃ rv, printResponse data = .ok rv ∧ rv < 0) ∨
      ∃ v rest, data = v ++ rest ∧ IsValue v := by
  constructor
  · rintro ⟨rv, hrun, hrv⟩
    by_cases hneg : rv < 0
    · exact Or.inl ⟨rv, hrun, hneg⟩
    · have hnonneg : 0 ≤ rv.toInt := by
        rw [Int32.lt_iff_toInt_lt] at hneg
        exact Int.not_lt.mp hneg
      exact Or.inr ⟨_, _, (List.take_append_drop _ data).symm, (hrv hnonneg).2.2⟩
  · rintro (⟨rv, hrun, hneg⟩ | ⟨v, rest, rfl, hv⟩)
    · refine ⟨rv, hrun, fun hnonneg => ?_⟩
      rw [Int32.lt_iff_toInt_lt] at hneg
      exact absurd hneg (Int.not_lt.mpr hnonneg)
    · have hmax : kMaxMsg = 4096 := rfl
      rw [List.length_append] at h
      have hlt : v.length < 2 ^ 31 := by omega
      have hpos := hv.length_pos
      refine ⟨_, printResponse_value hv hlt rest, fun _ => ?_⟩
      rw [toInt_ofNat hlt, Int.toNat_natCast, List.take_left, List.length_append]
      exact ⟨by omega, by omega, hv⟩

/-- The loop over the elements, where every call is right. -/
theorem printElems_sound {n : Nat} {rest : Bytes}
    (hlen : (tagArr :: (bytesOf 4 n ++ rest)).length ≤ kMaxMsg)
    (hsound : ∀ (vs : List Bytes) (sub : Bytes), vs.length < n → (∀ v ∈ vs, IsValue v) →
      rest = vs.flatten ++ sub → Sound sub) :
    ∀ (m : Nat) (vs : List Bytes) (sub : Bytes), vs.length + m = n → (∀ v ∈ vs, IsValue v) →
      rest = vs.flatten ++ sub →
      (∃ rv, printElems printResponse (tagArr :: (bytesOf 4 n ++ rest)) m
        (5 + vs.flatten.length) = .ok rv ∧ rv < 0) ∨
      ∃ (ws : List Bytes) (sub' : Bytes), ws.length = n ∧ (∀ w ∈ ws, IsValue w) ∧
        rest = ws.flatten ++ sub' := by
  have hmax : kMaxMsg = 4096 := rfl
  intro m
  induction m with
  | zero => intro vs sub hvs hval hrest; exact Or.inr ⟨vs, sub, hvs, hval, hrest⟩
  | succ m ih =>
    intro vs sub hvs hval hrest
    have hdrop : (tagArr :: (bytesOf 4 n ++ rest)).drop (5 + vs.flatten.length) = sub := by
      have h : ([tagArr] ++ bytesOf 4 n ++ vs.flatten ++ sub).drop (5 + vs.flatten.length) = sub :=
        List.drop_left' (by simp; omega)
      rw [hrest]
      simpa using h
    have hsize : (tagArr :: (bytesOf 4 n ++ rest)).length =
        5 + vs.flatten.length + sub.length := by
      rw [hrest]
      simp
      omega
    rw [printElems_succ _ _ (by omega), hdrop]
    rcases (sound_iff (by omega)).mp (hsound vs sub (by omega) hval hrest) with
      ⟨rv, hrun, hneg⟩ | ⟨v, sub', rfl, hv⟩
    · exact Or.inl ⟨rv, by rw [hrun, ok_bind, if_pos hneg], hneg⟩
    · rw [List.length_append] at hsize
      have hint : (Int32.ofNat v.length).toInt = v.length := toInt_ofNat (by omega)
      have hnonneg : ¬ Int32.ofNat v.length < 0 := by
        rw [Int32.lt_iff_toInt_lt, hint]
        exact Int.not_lt.mpr (Int.natCast_nonneg _)
      have hflat : (vs ++ [v]).flatten = vs.flatten ++ v := by simp
      have hstep := ih (vs ++ [v]) sub' (by rw [List.length_append, List.length_singleton]; omega)
        (fun w hw => by
          rcases List.mem_append.mp hw with hw | hw
          · exact hval w hw
          · rwa [List.mem_singleton.mp hw])
        (by rw [hrest, hflat, List.append_assoc])
      rw [printResponse_value hv (by omega), ok_bind, if_neg hnonneg, hint, Int.toNat_natCast]
      rwa [hflat, List.length_append, ← Nat.add_assoc] at hstep

/-- Where no header that wraps is reached, `print_response` is right. -/
theorem sound_of_reaches : ∀ (k : Nat) (data : Bytes), data.length ≤ k → data.length ≤ kMaxMsg →
    (∀ sub, Reaches data sub → ¬ Wraps sub) → Sound data := by
  intro k
  induction k with
  | zero =>
    intro data hk hlen _
    obtain rfl := List.eq_nil_of_length_eq_zero (Nat.le_zero.mp hk)
    exact (sound_iff hlen).mpr (Or.inl ⟨-1, rfl, by decide⟩)
  | succ k ih =>
    intro data hk hlen hwrap
    have hmax : kMaxMsg = 4096 := rfl
    have hbad : printResponse data = .ok (-1) → Sound data := fun hrun =>
      (sound_iff hlen).mpr (Or.inl ⟨-1, hrun, by decide⟩)
    have hvalue : ∀ v rest, data = v ++ rest → IsValue v → Sound data := fun v rest heq hv =>
      (sound_iff hlen).mpr (Or.inr ⟨v, rest, heq, hv⟩)
    have hhere := hwrap data (.here data)
    cases shape data with
    | nil rest => exact hvalue [tagNil] rest rfl .nil
    | bad h => exact hbad (h _)
    | @err code len rest hcode hlt =>
      have hsum : 9 + len < 2 ^ 32 := Nat.not_le.mp fun h => hhere (.err hcode h hlt)
      by_cases hfits : 9 + rest.length < 9 + len
      · apply hbad
        rw [printResponse, printNested_err _ hcode hlt, Nat.mod_eq_of_lt hsum, if_pos hfits]
      · obtain ⟨msg, post, rfl, rfl⟩ := split_at (show len ≤ rest.length by omega)
        exact hvalue (tagErr :: (code ++ bytesOf 4 msg.length ++ msg)) post (by simp)
          (.err hcode hlt)
    | @str len rest hlt =>
      have hsum : 5 + len < 2 ^ 32 := Nat.not_le.mp fun h => hhere (.str h hlt)
      by_cases hfits : 5 + rest.length < 5 + len
      · apply hbad
        rw [printResponse, printNested_str _ hlt, Nat.mod_eq_of_lt hsum, if_pos hfits]
      · obtain ⟨s, post, rfl, rfl⟩ := split_at (show len ≤ rest.length by omega)
        exact hvalue (tagStr :: (bytesOf 4 s.length ++ s)) post (by simp) (.str hlt)
    | @word tag val rest htag hval =>
      rcases htag with rfl | rfl
      · exact hvalue (tagInt :: val) rest rfl (.int hval)
      · exact hvalue (tagDbl :: val) rest rfl (.dbl hval)
    | @arr n rest hn =>
      have hsub : ∀ (vs : List Bytes) (sub : Bytes), vs.length < n → (∀ v ∈ vs, IsValue v) →
          rest = vs.flatten ++ sub → Sound sub := by
        rintro vs sub hvs hval rfl
        simp only [List.length_cons, List.length_append, length_bytesOf] at hk hlen
        apply ih sub (by omega) (by omega)
        intro deep hdeep
        exact hwrap deep (.elem hn hvs hval hdeep)
      rcases printElems_sound hlen hsub n [] rest (Nat.zero_add n) (by simp) rfl with
        ⟨rv, hrun, hneg⟩ | ⟨vs, post, rfl, hval, rfl⟩
      · exact (sound_iff hlen).mpr (Or.inl ⟨rv, (printResponse_arr hn rest).trans hrun, hneg⟩)
      · exact hvalue (tagArr :: (bytesOf 4 vs.length ++ vs.flatten)) post (by simp) (.arr hn hval)

/-! ## Headers that wrap -/

theorem IsValue.length_str {v : Bytes} (h : IsValue v) (hhead : v.head? = some tagStr) :
    5 ≤ v.length := by
  cases h with
  | str hs => simp
  | nil | err | int | dbl | arr => cases hhead

theorem IsValue.length_err {v : Bytes} (h : IsValue v) (hhead : v.head? = some tagErr) :
    9 ≤ v.length := by
  cases h with
  | err hcode hmsg =>
    simp only [List.length_cons, List.length_append, length_bytesOf, hcode]
    omega
  | nil | str | int | dbl | arr => cases hhead

/-- A few bytes from the beginning of a longer header are no value. -/
theorem not_sound_of_short {data : Bytes} {k m : Nat} (hm : m < 2 ^ 31)
    (hrun : ∀ rv, printResponse data = .ok rv → rv = Int32.ofNat m)
    (hlong : ∀ v, IsValue v → v.head? = data.head? → k ≤ v.length) (hmk : m < k) :
    ¬ Sound data := by
  rintro ⟨rv, hres, hrv⟩
  obtain rfl := hrun rv hres
  rw [toInt_ofNat hm, Int.toNat_natCast] at hrv
  obtain ⟨hpos, hle, hval⟩ := hrv (Int.natCast_nonneg m)
  have hhead : (data.take m).head? = data.head? := by
    rw [List.head?_take, if_neg (by omega)]
  have hlen := hlong _ hval hhead
  rw [List.length_take] at hlen
  omega

/-- A header that wraps is taken for a value that it is not, or sends `printf` past the end. -/
theorem Wraps.not_sound {data : Bytes} (h : Wraps data) : ¬ Sound data := by
  cases h with
  | @err code rest len hcode hwrap hlt =>
    have hmod : (9 + len) % 2 ^ 32 = 9 + len - 2 ^ 32 := by omega
    apply not_sound_of_short (k := 9) (m := 9 + len - 2 ^ 32) (by omega)
    · intro rv hres
      rw [printResponse, printNested_err _ hcode hlt, hmod, if_neg (by omega)] at hres
      obtain ⟨-, -, hres⟩ := bind_eq_ok.mp hres
      exact (Except.ok.inj hres).symm
    · exact fun v hv hhead => hv.length_err hhead
    · omega
  | @str rest len hwrap hlt =>
    have hmod : (5 + len) % 2 ^ 32 = 5 + len - 2 ^ 32 := by omega
    apply not_sound_of_short (k := 5) (m := 5 + len - 2 ^ 32) (by omega)
    · intro rv hres
      rw [printResponse, printNested_str _ hlt, hmod, if_neg (by omega)] at hres
      obtain ⟨-, -, hres⟩ := bind_eq_ok.mp hres
      exact (Except.ok.inj hres).symm
    · exact fun v hv hhead => hv.length_str hhead
    · omega

/-! ## The calls of `print_response` -/

/-- In the array `data`, `print_response` looks for element `i` at `pos`. -/
inductive ElemAt (data : Bytes) : Nat → Nat → Prop
  | first : ElemAt data 0 (1 + 4)
  | next {i pos : Nat} {rv : Int32} : ElemAt data i pos →
      printResponse (data.drop pos) = .ok rv → 0 ≤ rv.toInt →
      ElemAt data (i + 1) (pos + rv.toInt.toNat)

/-- The call on `data` leads to a call on `sub`, its own or one for an element of an array. -/
inductive PrintCalls : Bytes → Bytes → Prop
  | here (data : Bytes) : PrintCalls data data
  | elem {n i pos : Nat} {rest sub : Bytes} : n < 2 ^ 32 → i < n →
      ElemAt (tagArr :: (bytesOf 4 n ++ rest)) i pos →
      PrintCalls ((tagArr :: (bytesOf 4 n ++ rest)).drop pos) sub →
      PrintCalls (tagArr :: (bytesOf 4 n ++ rest)) sub

theorem drop_values {n : Nat} {vs : List Bytes} {sub : Bytes} :
    (tagArr :: (bytesOf 4 n ++ (vs.flatten ++ sub))).drop (5 + vs.flatten.length) = sub := by
  have h : ([tagArr] ++ bytesOf 4 n ++ vs.flatten ++ sub).drop (5 + vs.flatten.length) = sub :=
    List.drop_left' (by simp; omega)
  rwa [List.append_assoc, List.append_assoc] at h

/-- After some values, `print_response` looks for the next element. -/
theorem elemAt_values {n : Nat} {sub : Bytes} (vs : List Bytes) (hval : ∀ v ∈ vs, IsValue v)
    (hlen : vs.flatten.length < 2 ^ 31) :
    ElemAt (tagArr :: (bytesOf 4 n ++ (vs.flatten ++ sub))) vs.length (5 + vs.flatten.length) := by
  induction vs using List.reverseRecOn generalizing sub with
  | nil => exact .first
  | append_singleton vs v ih =>
    have hflat : (vs ++ [v]).flatten = vs.flatten ++ v := by simp
    rw [hflat, List.length_append] at hlen
    have hv : (Int32.ofNat v.length).toInt = v.length := toInt_ofNat (by omega)
    have hprev := @ih (v ++ sub) (fun w hw => hval w (List.mem_append_left _ hw)) (by omega)
    have hrun : printResponse ((tagArr :: (bytesOf 4 n ++ (vs.flatten ++ (v ++ sub)))).drop
        (5 + vs.flatten.length)) = .ok (Int32.ofNat v.length) := by
      rw [drop_values]
      apply printResponse_value _ (by omega)
      exact hval v (List.mem_append_right _ (List.mem_singleton_self v))
    have hnext := hprev.next hrun (by rw [hv]; exact Int.natCast_nonneg _)
    rw [hv, Int.toNat_natCast] at hnext
    rw [hflat, List.append_assoc, List.length_append, List.length_append, List.length_singleton,
      ← Nat.add_assoc]
    exact hnext

/-- What a reader of the grammar reaches, `print_response` is called on. -/
theorem Reaches.printCalls {data sub : Bytes} (h : Reaches data sub)
    (hlen : data.length ≤ kMaxMsg) : PrintCalls data sub := by
  have hmax : kMaxMsg = 4096 := rfl
  induction h with
  | here data => exact .here data
  | @elem n vs rest sub hn hvs hval _ ih =>
    simp only [List.length_cons, List.length_append, length_bytesOf] at hlen
    have hat : ElemAt (tagArr :: (bytesOf 4 n ++ (vs.flatten ++ rest))) vs.length
        (5 + vs.flatten.length) := elemAt_values vs hval (by omega)
    apply PrintCalls.elem hn hvs hat
    rw [drop_values]
    exact ih (by omega)

/-- Where no header that wraps is reached, the elements found are values. -/
theorem ElemAt.values {n i pos : Nat} {rest : Bytes}
    (h : ElemAt (tagArr :: (bytesOf 4 n ++ rest)) i pos) (hn : n < 2 ^ 32) (hi : i ≤ n)
    (hlen : (tagArr :: (bytesOf 4 n ++ rest)).length ≤ kMaxMsg)
    (hwrap : ∀ sub, Reaches (tagArr :: (bytesOf 4 n ++ rest)) sub → ¬ Wraps sub) :
    ∃ (vs : List Bytes) (sub : Bytes), vs.length = i ∧ (∀ v ∈ vs, IsValue v) ∧
      rest = vs.flatten ++ sub ∧ pos = 5 + vs.flatten.length := by
  have hmax : kMaxMsg = 4096 := rfl
  induction h with
  | first => exact ⟨[], rest, rfl, by simp, rfl, rfl⟩
  | @next i pos rv _ hrun hrv ih =>
    obtain ⟨vs, sub, hvs, hval, rfl, rfl⟩ := ih (by omega)
    simp only [List.length_cons, List.length_append, length_bytesOf] at hlen
    rw [drop_values] at hrun
    have hsound : Sound sub := by
      apply sound_of_reaches sub.length sub (Nat.le_refl _) (by omega)
      intro deep hdeep
      exact hwrap deep (.elem hn (by omega) hval hdeep)
    obtain ⟨rv', hrun', hres⟩ := hsound
    cases hrun.symm.trans hrun'
    obtain ⟨-, hle, hv⟩ := hres hrv
    refine ⟨vs ++ [sub.take rv.toInt.toNat], sub.drop rv.toInt.toNat, ?_, ?_, ?_, ?_⟩
    · rw [List.length_append, List.length_singleton, hvs]
    · intro w hw
      rcases List.mem_append.mp hw with hw | hw
      · exact hval w hw
      · rwa [List.mem_singleton.mp hw]
    · simp
    · have htake : (sub.take rv.toInt.toNat).length = rv.toInt.toNat := by
        rw [List.length_take]
        omega
      have hflat : (vs ++ [sub.take rv.toInt.toNat]).flatten =
          vs.flatten ++ sub.take rv.toInt.toNat := by simp
      rw [hflat, List.length_append, htake, Nat.add_assoc]

/-- Where no header that wraps is reached, all calls are reached. -/
theorem PrintCalls.reaches {data sub : Bytes} (h : PrintCalls data sub)
    (hlen : data.length ≤ kMaxMsg) (hwrap : ∀ sub, Reaches data sub → ¬ Wraps sub) :
    Reaches data sub := by
  induction h with
  | here data => exact .here data
  | @elem n i pos rest sub hn hi hat _ ih =>
    obtain ⟨vs, tail, rfl, hval, rfl, rfl⟩ := hat.values hn (by omega) hlen hwrap
    rw [drop_values] at ih
    simp only [List.length_cons, List.length_append, length_bytesOf] at hlen
    exact .elem hn hi hval
      (ih (by omega) fun deep hdeep => hwrap deep (.elem hn hi hval hdeep))

/-! ## Well-formed replies -/

/-- No value is the beginning of another one. -/
theorem IsValue.prefix_free {v w a b : Bytes} (hv : IsValue v) (hw : IsValue w)
    (h : v ++ a = w ++ b) (hlen : (v ++ a).length < 2 ^ 31) : v = w ∧ a = b := by
  have hlen' : (w ++ b).length < 2 ^ 31 := h ▸ hlen
  rw [List.length_append] at hlen hlen'
  have hrun := printResponse_value hv (by omega) a
  rw [h] at hrun
  have hsame := congrArg Int32.toInt (ok_unique hrun (printResponse_value hw (by omega) b))
  rw [toInt_ofNat (by omega), toInt_ofNat (by omega)] at hsame
  exact List.append_inj h (Int.ofNat_inj.mp hsame)

theorem values_prefix {vs ws : List Bytes} {a b : Bytes} (hvs : ∀ v ∈ vs, IsValue v)
    (hws : ∀ w ∈ ws, IsValue w) (hle : ws.length ≤ vs.length)
    (h : vs.flatten ++ a = ws.flatten ++ b) (hlen : (vs.flatten ++ a).length < 2 ^ 31) :
    ∃ us, vs = ws ++ us ∧ b = us.flatten ++ a := by
  induction ws generalizing vs with
  | nil => exact ⟨vs, rfl, h.symm⟩
  | cons w ws ih =>
    cases vs with
    | nil => exact absurd hle (Nat.not_succ_le_zero _)
    | cons v vs =>
      rw [List.flatten_cons, List.append_assoc] at hlen
      rw [List.flatten_cons, List.flatten_cons, List.append_assoc, List.append_assoc] at h
      obtain ⟨rfl, hrest⟩ :=
        (hvs v List.mem_cons_self).prefix_free (hws w List.mem_cons_self) h hlen
      rw [List.length_append] at hlen
      obtain ⟨us, rfl, rfl⟩ := ih (fun u hu => hvs u (List.mem_cons_of_mem _ hu))
        (fun u hu => hws u (List.mem_cons_of_mem _ hu)) (Nat.le_of_succ_le_succ hle) hrest
        (by omega)
      exact ⟨us, rfl, rfl⟩

theorem Reaches.eq_of_tag {tag : UInt8} {bs sub : Bytes} (htag : tag ≠ tagArr)
    (h : Reaches (tag :: bs) sub) : sub = tag :: bs := by
  generalize hdata : tag :: bs = data at h
  cases h with
  | here => rfl
  | elem => exact absurd (List.cons.inj hdata).1 htag

/-- In a value, a reader of the grammar comes to values only. -/
theorem Reaches.value {v rest sub : Bytes} (hv : IsValue v) (h : Reaches (v ++ rest) sub)
    (hlen : (v ++ rest).length < 2 ^ 31) : ∃ w rest', IsValue w ∧ sub = w ++ rest' := by
  induction hv generalizing rest sub with
  | @arr vs hvs hval ih =>
    generalize hdata : tagArr :: (bytesOf 4 vs.length ++ vs.flatten) ++ rest = data at h
    cases h with
    | here => exact ⟨_, _, .arr hvs hval, hdata.symm⟩
    | @elem n ws rest' _ hn hws hval' hsub =>
      rw [List.cons_append, List.append_assoc] at hdata hlen
      obtain ⟨hcount, hsame⟩ := List.append_inj (List.cons.inj hdata).2 (by simp)
      obtain rfl : vs.length = n := by
        rw [← field_lt hvs, hcount, field_lt hn]
      rw [List.length_cons, List.length_append] at hlen
      have hlen' : (vs.flatten ++ rest).length < 2 ^ 31 := by omega
      obtain ⟨us, rfl, rfl⟩ := values_prefix hval hval' (Nat.le_of_lt hws) hsame hlen'
      cases us with
      | nil => simp at hws
      | cons u us =>
        have hsub : Reaches (u ++ (us.flatten ++ rest)) sub := by simpa using hsub
        refine ih u (by simp) hsub ?_
        simp only [List.flatten_append, List.flatten_cons, List.length_append] at hlen' ⊢
        omega
  | nil => exact ⟨_, _, .nil, h.eq_of_tag (by decide)⟩
  | err hcode hmsg => exact ⟨_, _, .err hcode hmsg, h.eq_of_tag (by decide)⟩
  | str hs => exact ⟨_, _, .str hs, h.eq_of_tag (by decide)⟩
  | int hval => exact ⟨_, _, .int hval, h.eq_of_tag (by decide)⟩
  | dbl hval => exact ⟨_, _, .dbl hval, h.eq_of_tag (by decide)⟩

/-- In a value no header wraps. -/
theorem Reaches.not_wraps {v sub : Bytes} (hv : IsValue v) (hlen : v.length ≤ kMaxMsg)
    (h : Reaches v sub) : ¬ Wraps sub := by
  have hmax : kMaxMsg = 4096 := rfl
  have hle := h.length_le
  rw [← List.append_nil v] at h
  obtain ⟨w, rest, hw, rfl⟩ := h.value hv (by rw [List.append_nil]; omega)
  exact fun hwrap => hwrap.not_sound
    ((sound_iff (Nat.le_trans hle hlen)).mpr (Or.inr ⟨w, rest, rfl, hw⟩))

/-- **The client rejects malformed replies, but for a length that wraps.** All calls of
    `print_response` on the data of a reply are right exactly when no header is reached whose
    length, added to the size of the header, does not fit in 32 bits. -/
theorem print_response_exact {data : Bytes} (hlen : data.length ≤ kMaxMsg) :
    (∀ sub, PrintCalls data sub → Sound sub) ↔ ∀ sub, Reaches data sub → ¬ Wraps sub := by
  constructor
  · intro hsound sub hreach hwrap
    exact hwrap.not_sound (hsound sub (hreach.printCalls hlen))
  · intro hwrap sub hcall
    have hreach := hcall.reaches hlen hwrap
    apply sound_of_reaches sub.length sub (Nat.le_refl _)
    · exact Nat.le_trans hreach.length_le hlen
    · intro deep hdeep
      exact hwrap deep (hreach.trans hdeep)

/-- A string of 2^32 - 5 bytes by its header: `print_response` returns 0. -/
theorem print_response_wraps :
    ¬ ∀ data : Bytes, data.length ≤ kMaxMsg → Sound data := by
  intro h
  have hrun : printResponse [tagStr, 0xfb, 0xff, 0xff, 0xff, 0] = .ok 0 := by decide
  obtain ⟨rv, hres, hrv⟩ := h [tagStr, 0xfb, 0xff, 0xff, 0xff, 0] (by decide)
  cases hrun.symm.trans hres
  exact absurd (hrv (by decide)).1 (by decide)

/-- An array of a string and an error. -/
def mixedReply : Reply := .arr [.str (ascii "hello"), .err .badTyp (ascii "expect zset")]

/-- `print_response` is right about the array and about both of its elements. -/
theorem print_response_exact_array :
    PrintCalls mixedReply.encode (Scalar.err .badTyp (ascii "expect zset")).encode ∧
      ∀ sub, PrintCalls mixedReply.encode sub → Sound sub := by
  have hvalue : ∀ v ∈ [(Scalar.str (ascii "hello")).encode], IsValue v := fun v hv =>
    List.mem_singleton.mp hv ▸ Scalar.isValue (by decide)
  have hreach : Reaches mixedReply.encode (Scalar.err .badTyp (ascii "expect zset")).encode :=
    .elem (show 2 < 2 ^ 32 by decide) (by decide) hvalue (.here _)
  exact ⟨hreach.printCalls (by decide), (print_response_exact (by decide)).mpr fun _ hsub =>
    hsub.not_wraps (Reply.isValue (by decide)) (by decide)⟩

end Greenis
