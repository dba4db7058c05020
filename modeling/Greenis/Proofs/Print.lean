/-
  What a client prints is the reply.

  `showRes` is `read_res` with what it prints (`readRes_shown`). Of a reply that fits it prints the
  text, value by value, and else the error that replaces it; a string is printed up to a NUL
  (`client_prints_reply`).
-/
import Greenis.Model.Print
import Greenis.Proofs.Clients
import Greenis.Spec.Text

namespace Greenis
open CExec LTS LittleEndian

variable {formatG : Double → Bytes}

/-! ## Nothing else is changed -/

theorem showElems_elems {print : Bytes → Exec Int32} {shown : Bytes → Exec (Int32 × Bytes)}
    (h : ∀ data, print data = shown data >>= fun r => .ok r.1) (data : Bytes) (n arrBytes : Nat) :
    printElems print data n arrBytes = showElems shown data n arrBytes >>= fun r => .ok r.1 := by
  induction n generalizing arrBytes with
  | zero => rfl
  | succ n ih =>
    rw [printElems, showElems, bind_assoc]
    apply congrArg
    funext rest
    rw [h, bind_assoc, bind_assoc]
    apply congrArg
    funext r
    rw [ok_bind]
    dsimp only
    split
    · rfl
    · rw [ih, bind_assoc]
      rfl

theorem printNested_shown (formatG : Double → Bytes) (fuel : Nat) (data : Bytes) :
    printNested fuel data = showNested formatG fuel data >>= fun r => .ok r.1 := by
  induction fuel generalizing data with
  | zero => rfl
  | succ fuel ih =>
    unfold printNested showNested
    simp only [apply_ite (· >>= fun r : Int32 × Bytes => (Except.ok r.1 : Exec Int32)), bind_assoc,
      ok_bind, formatStr, u32At, showElems_elems ih]

theorem readRes_shown (formatG : Double → Bytes) (read read' : Nat → Nat → Int) (stream : Bytes) :
    readRes read read' stream = showRes formatG read read' stream >>= fun r => .ok r.1 := by
  unfold readRes showRes printResponse showResponse
  simp only [apply_ite (· >>= fun r : Int32 × Bytes => (Except.ok r.1 : Exec Int32)), bind_assoc,
    ok_bind, printNested_shown formatG]

/-! ## One value -/

/-- A text of its length. -/
theorem formatStr_fits {s : Bytes} (hlen : s.length < 2 ^ 31) (rest : Bytes) :
    formatStr (UInt32.ofNat s.length) (s ++ rest) = .ok (s.takeWhile (· != 0)) := by
  have hnat : (UInt32.ofNat s.length).toNat = s.length := u32_toNat (by omega)
  have hint : (0 : Int32) ≤ (UInt32.ofNat s.length).toInt32 := by
    rw [u32_toInt32 hnat, Int32.le_iff_toInt_le, toInt_ofNat hlen]
    exact Int.natCast_nonneg _
  unfold formatStr
  rw [printStr_fits (by simp) hlen, ok_bind, if_pos hint, hnat, List.take_left]

theorem showNested_err (fuel : Nat) (code : ErrorCode) {msg : Bytes}
    (hlen : 9 + msg.length < 2 ^ 31) (rest : Bytes) :
    showNested formatG (fuel + 1) ((Scalar.err code msg).encode ++ rest) =
      .ok (Int32.ofNat (9 + msg.length), (Scalar.err code msg).text formatG) := by
  have hmod : (9 + msg.length) % 2 ^ 32 = 9 + msg.length := Nat.mod_eq_of_lt (by omega)
  have hdata : (Scalar.err code msg).encode ++ rest =
      tagErr :: (bytesOf 4 code.code.toNat ++ bytesOf 4 msg.length ++ (msg ++ rest)) := by
    unfold Scalar.encode
    rw [List.cons_append, List.append_assoc]
  have hsize : (tagErr :: (bytesOf 4 code.code.toNat ++ bytesOf 4 msg.length ++
      (msg ++ rest))).length = 9 + msg.length + rest.length := by
    simp
    omega
  have hsmall : code.code.toNat < 2 ^ 32 := by cases code <;> decide
  have hshort : msg.length < 2 ^ 32 := by omega
  have hcode := u32At_field [tagErr] hsmall (bytesOf 4 msg.length ++ (msg ++ rest))
  have hfield := u32At_field ([tagErr] ++ bytesOf 4 code.code.toNat) hshort (msg ++ rest)
  have hdrop : (tagErr :: (bytesOf 4 code.code.toNat ++ bytesOf 4 msg.length ++
      (msg ++ rest))).drop (1 + 8) = msg ++ rest := by
    have h : ([tagErr] ++ bytesOf 4 code.code.toNat ++ bytesOf 4 msg.length ++
        (msg ++ rest)).drop 9 = msg ++ rest := List.drop_left' (by simp)
    simp only [List.cons_append, List.nil_append, List.append_assoc] at h ⊢
    exact h
  have hback : (UInt32.ofNat code.code.toNat).toInt32.toInt = code.code.toNat := by
    cases code <;> rfl
  simp only [List.cons_append, List.nil_append, List.append_assoc, List.length_cons,
    List.length_nil, length_bytesOf] at hcode hfield
  simp only [List.append_assoc] at hsize hdrop hdata
  rw [hdata]
  unfold showNested
  rw [if_neg (by omega), index_of_getElem? (a := tagErr) rfl, ok_bind, if_neg (by decide),
    if_pos rfl, if_neg (by omega), hcode, ok_bind, hfield, ok_bind, errSum_toNat, hmod, hsize,
    if_neg (by omega), hdrop, formatStr_fits (by omega), ok_bind, hback,
    u32_toInt32 (errSum_toNat _), hmod]
  rfl

theorem showNested_str (fuel : Nat) {s : Bytes} (hlen : 5 + s.length < 2 ^ 31) (rest : Bytes) :
    showNested formatG (fuel + 1) ((Scalar.str s).encode ++ rest) =
      .ok (Int32.ofNat (5 + s.length), (Scalar.str s).text formatG) := by
  have hmod : (5 + s.length) % 2 ^ 32 = 5 + s.length := Nat.mod_eq_of_lt (by omega)
  have hdata : (Scalar.str s).encode ++ rest = tagStr :: (bytesOf 4 s.length ++ (s ++ rest)) := by
    unfold Scalar.encode
    rw [List.cons_append, List.append_assoc]
  have hsize : (tagStr :: (bytesOf 4 s.length ++ (s ++ rest))).length =
      5 + s.length + rest.length := by
    simp
    omega
  have hfield : u32At (tagStr :: (bytesOf 4 s.length ++ (s ++ rest))) 1 =
      .ok (UInt32.ofNat s.length) := u32At_field [tagStr] (by omega) (s ++ rest)
  have hdrop : (tagStr :: (bytesOf 4 s.length ++ (s ++ rest))).drop (1 + 4) = s ++ rest := by
    have h : ([tagStr] ++ bytesOf 4 s.length ++ (s ++ rest)).drop 5 = s ++ rest :=
      List.drop_left' (by simp)
    rwa [List.append_assoc] at h
  rw [hdata]
  unfold showNested
  rw [if_neg (by omega), index_of_getElem? (a := tagStr) rfl, ok_bind, if_neg (by decide),
    if_neg (by decide), if_pos rfl, if_neg (by omega), hfield, ok_bind, strSum_toNat, hmod, hsize,
    if_neg (by omega), hdrop, formatStr_fits (by omega), ok_bind, u32_toInt32 (strSum_toNat _), hmod]
  rfl

/-- A number of eight bytes. -/
theorem slice_word (tag : UInt8) {val : Bytes} (hval : val.length = 8) (rest : Bytes) :
    slice (tag :: (val ++ rest)) 1 8 = .ok val ∧
      (tag :: (val ++ rest)).length = 9 + rest.length := by
  have h := slice_mid [tag] val rest
  rw [hval] at h
  refine ⟨h, ?_⟩
  rw [List.length_cons, List.length_append, hval]
  omega

/-- A number that fits comes back from its bytes. -/
theorem int_back {val : Int} (h : (Scalar.int val).Fits) :
    (UInt64.ofNat (valueOf (bytesOf 8 (Int64.ofInt val).toUInt64.toNat))).toInt64.toInt = val := by
  have hlt := (Int64.ofInt val).toUInt64.toNat_lt
  rw [valueOf_bytesOf_of_lt (by omega), UInt64.ofNat_toNat, Int64.toInt64_toUInt64]
  exact Int64.toInt_ofInt_of_le h.1 h.2

theorem showNested_int (fuel : Nat) {val : Int} (h : (Scalar.int val).Fits) (rest : Bytes) :
    showNested formatG (fuel + 1) ((Scalar.int val).encode ++ rest) =
      .ok (9, (Scalar.int val).text formatG) := by
  have hdata : (Scalar.int val).encode ++ rest =
      tagInt :: (bytesOf 8 (Int64.ofInt val).toUInt64.toNat ++ rest) := rfl
  obtain ⟨hslice, hsize⟩ := slice_word tagInt
    (length_bytesOf 8 (Int64.ofInt val).toUInt64.toNat) rest
  rw [hdata]
  unfold showNested
  rw [if_neg (by omega), index_of_getElem? (a := tagInt) rfl, ok_bind, if_neg (by decide),
    if_neg (by decide), if_neg (by decide), if_pos rfl, if_neg (by omega), hslice, ok_bind,
    int_back h]
  rfl

theorem showNested_dbl (fuel : Nat) (val : Double) (rest : Bytes) :
    showNested formatG (fuel + 1) ((Scalar.dbl val).encode ++ rest) =
      .ok (9, (Scalar.dbl val).text formatG) := by
  have hdata : (Scalar.dbl val).encode ++ rest =
      tagDbl :: (bytesOf 8 val.bits.toNat ++ rest) := rfl
  obtain ⟨hslice, hsize⟩ := slice_word tagDbl (length_bytesOf 8 val.bits.toNat) rest
  have hlt := val.bits.toNat_lt
  have hback : UInt64.ofNat (valueOf (bytesOf 8 val.bits.toNat)) = val.bits := by
    rw [valueOf_bytesOf_of_lt (by omega), UInt64.ofNat_toNat]
  rw [hdata]
  unfold showNested
  rw [if_neg (by omega), index_of_getElem? (a := tagDbl) rfl, ok_bind, if_neg (by decide),
    if_neg (by decide), if_neg (by decide), if_neg (by decide), if_pos rfl, if_neg (by omega),
    hslice, ok_bind, hback]
  rfl

theorem showNested_nil (fuel : Nat) (rest : Bytes) :
    showNested formatG (fuel + 1) (Scalar.nil.encode ++ rest) =
      .ok (1, Scalar.nil.text formatG) := by
  show showNested formatG (fuel + 1) (tagNil :: rest) = _
  unfold showNested
  rw [if_neg (by simp), index_of_getElem? (a := tagNil) rfl, ok_bind, if_pos rfl]
  rfl

/-- A value is printed as what it is, whatever follows. -/
theorem showNested_scalar (formatG : Double → Bytes) (fuel : Nat) {v : Scalar}
    (hlen : v.encode.length < 2 ^ 31) (hfits : v.Fits) (rest : Bytes) :
    showNested formatG (fuel + 1) (v.encode ++ rest) =
      .ok (Int32.ofNat v.encode.length, v.text formatG) := by
  cases v with
  | nil => exact showNested_nil fuel rest
  | err code msg =>
    have hsize : (Scalar.err code msg).encode.length = 9 + msg.length := by
      simp [Scalar.encode]
      omega
    rw [hsize] at hlen ⊢
    exact showNested_err fuel code hlen rest
  | str s =>
    have hsize : (Scalar.str s).encode.length = 5 + s.length := by
      simp [Scalar.encode]
      omega
    rw [hsize] at hlen ⊢
    exact showNested_str fuel hlen rest
  | int val => exact showNested_int fuel hfits rest
  | dbl val => exact showNested_dbl fuel val rest

/-! ## Replies -/

/-- The values of an array. -/
theorem showElems_values (formatG : Double → Bytes) (fuel : Nat) {data rest : Bytes} :
    ∀ (vs : List Scalar) (pos : Nat), pos ≤ data.length →
    data.drop pos = encodeAll vs ++ rest → (∀ v ∈ vs, v.Fits) →
    pos + (encodeAll vs).length < 2 ^ 31 →
    showElems (showNested formatG (fuel + 1)) data vs.length pos =
      .ok (Int32.ofNat (pos + (encodeAll vs).length),
        vs.flatMap (Scalar.text formatG) ++ (ascii "(arr) end" ++ newline)) := by
  intro vs
  induction vs with
  | nil => intro pos _ _ _ _; rfl
  | cons v vs ih =>
    intro pos hpos hdrop hfits hlen
    have hall : encodeAll (v :: vs) = v.encode ++ encodeAll vs := List.flatMap_cons
    rw [hall, List.append_assoc] at hdrop
    rw [hall, List.length_append] at hlen
    have hv : (Int32.ofNat v.encode.length).toInt = v.encode.length := toInt_ofNat (by omega)
    have hnonneg : ¬ Int32.ofNat v.encode.length < 0 := by
      rw [Int32.lt_iff_toInt_lt, hv]
      exact Int.not_lt.mpr (Int.natCast_nonneg _)
    have hnext : data.drop (pos + v.encode.length) = encodeAll vs ++ rest := by
      rw [← List.drop_drop, hdrop, List.drop_left]
    have hle : pos + v.encode.length ≤ data.length := by
      have := congrArg List.length hdrop
      rw [List.length_drop, List.length_append] at this
      omega
    have htake : (data.drop pos).take (data.length - pos) = data.drop pos :=
      List.take_of_length_le (Nat.le_of_eq List.length_drop)
    rw [List.length_cons, showElems, slice_of_le (by omega), htake, ok_bind, hdrop,
      showNested_scalar formatG fuel (by omega) (hfits v List.mem_cons_self), ok_bind]
    dsimp only
    rw [if_neg hnonneg, hv, Int.toNat_natCast,
      ih _ hle hnext (fun w hw => hfits w (List.mem_cons_of_mem _ hw)) (by omega), ok_bind, hall,
      List.length_append, List.flatMap_cons, Nat.add_assoc, List.append_assoc]

/-- `print_response` prints a reply. -/
theorem showResponse_reply {r : Reply} (hlen : r.encode.length ≤ kMaxMsg) (hfits : r.Fits) :
    showResponse formatG r.encode = .ok (Int32.ofNat r.encode.length, r.text formatG) := by
  have hmax : kMaxMsg = 4096 := rfl
  unfold showResponse
  cases r with
  | one v =>
    have h := showNested_scalar formatG v.encode.length (by
      change v.encode.length ≤ kMaxMsg at hlen
      omega) hfits []
    rwa [List.append_nil] at h
  | arr vs =>
    have hsize : (Reply.arr vs).encode.length = 5 + (encodeAll vs).length := by
      simp [Reply.encode]
      omega
    have hcount := length_encodeAll vs
    have hfield : u32At (tagArr :: (bytesOf 4 vs.length ++ encodeAll vs)) 1 =
        .ok (UInt32.ofNat vs.length) := u32At_field [tagArr] (by omega) (encodeAll vs)
    have hdrop : (tagArr :: (bytesOf 4 vs.length ++ encodeAll vs)).drop 5 = encodeAll vs ++ [] := by
      have h : ([tagArr] ++ bytesOf 4 vs.length ++ encodeAll vs).drop 5 = encodeAll vs :=
        List.drop_left' (by simp)
      rwa [List.append_nil]
    have hfuel : (Reply.arr vs).encode.length = 4 + (encodeAll vs).length + 1 := by omega
    have helems := showElems_values formatG (4 + (encodeAll vs).length) vs 5
      (by simp) hdrop hfits (by omega)
    have hwhole : (Reply.arr vs).encode = tagArr :: (bytesOf 4 vs.length ++ encodeAll vs) := rfl
    rw [hfuel]
    conv_lhs => unfold showNested
    rw [if_neg (by omega), hwhole, index_of_getElem? (a := tagArr) rfl, ok_bind,
      if_neg (by decide), if_neg (by decide), if_neg (by decide), if_neg (by decide),
      if_neg (by decide), if_pos rfl, ← hwhole, if_neg (by omega), hwhole, hfield, ok_bind,
      u32_toNat (by omega), helems, ok_bind]
    have hsum : 5 + (encodeAll vs).length = 4 + (encodeAll vs).length + 1 := by omega
    dsimp only
    rw [hsum]
    unfold Reply.text
    simp only [List.append_assoc]

theorem showResponse_capped (formatG : Double → Bytes) {r : Reply} (hfits : r.Fits) :
    showResponse formatG (capped r.encode) =
      .ok (Int32.ofNat (capped r.encode).length, r.shown formatG) := by
  unfold capped Reply.shown
  split
  · exact showResponse_reply (r := .one (.err .tooBig (ascii "response is too big."))) (by decide)
      trivial
  · exact showResponse_reply (Nat.le_of_not_lt ‹_›) hfits

/-- `read_res` on the frame of a reply. -/
theorem showRes_reply {read read' : Nat → Nat → Int} (hread : Reads read) (hread' : Reads read')
    {r : Reply} (hfits : r.Fits) (more : Bytes) :
    showRes formatG read read' (frame (capped r.encode) ++ more) =
      .ok (Int32.ofNat (capped r.encode).length, r.shown formatG) := by
  have hmax : kMaxMsg = 4096 := rfl
  have hlen := capped_length_le r.encode
  have hshow := showResponse_capped formatG hfits
  generalize capped r.encode = body at hlen hshow ⊢
  have hfield : UInt32.ofNat (valueOf (bytesOf 4 body.length)) = UInt32.ofNat body.length := by
    rw [field_lt (by omega)]
  have hhead := readFull_spec hread (body ++ more) 4 0 (bytesOf 4 body.length) (by simp)
  have hbody := readFull_spec hread' more body.length 0 body (Nat.le_refl _)
  rw [length_bytesOf] at hhead
  have hback : (Int32.ofNat body.length).toUInt32 = UInt32.ofNat body.length := by
    rw [← UInt32.toInt32_ofNat', UInt32.toUInt32_toInt32]
  unfold showRes
  rw [frame, List.append_assoc, hhead, ok_bind]
  dsimp only
  rw [if_neg (by decide), hfield, u32_toNat (by omega), if_neg (by omega), hbody, ok_bind]
  dsimp only
  rw [if_neg (by decide), hshow, ok_bind]
  dsimp only
  rw [hback, if_neg (fun h => h.2 rfl)]

/-! ## The replies of the machine -/

variable {strtod : Strtod}

/-- With deadlines less than 2^63 ms away, every number fits. -/
theorem reply_fits {a : Keyspace} {now : Nat} (c : Command)
    (h : ∀ key item e, a.lookup key = some item → item.expiry = some e → e < now + 2 ^ 63) :
    (a.reply now c).Fits := by
  have hsmall : ∀ n : Int, -2 ≤ n → n ≤ 1 → (Scalar.int n).Fits := fun n hlo hhi => by
    constructor <;> omega
  have hbit : ∀ (p : Prop) [Decidable p], (Scalar.int (if p then 1 else 0)).Fits := fun p _ => by
    split
    · exact hsmall 1 (by omega) (by omega)
    · exact hsmall 0 (by omega) (by omega)
  have hbit' : ∀ (p : Prop) [Decidable p], (Scalar.int (if p then 0 else 1)).Fits := fun p _ => by
    split
    · exact hsmall 0 (by omega) (by omega)
    · exact hsmall 1 (by omega) (by omega)
  cases c with
  | keys | unknown => trivial
  | del key => exact hbit _
  | get key =>
    unfold Keyspace.reply
    dsimp only
    split <;> trivial
  | set key value =>
    unfold Keyspace.reply
    dsimp only
    split <;> trivial
  | pexpire key ttl =>
    cases ttl with
    | none => trivial
    | some ttlMs => exact hbit _
  | pttl key =>
    unfold Keyspace.reply
    dsimp only
    cases hitem : a.lookup key with
    | none => exact hsmall (-2) (by omega) (by omega)
    | some item =>
      obtain ⟨v, expiry⟩ := item
      cases expiry with
      | none => exact hsmall (-1) (by omega) (by omega)
      | some e =>
        have hlt := h key _ e hitem rfl
        constructor
        · exact (by decide : (-2 ^ 63 : Int) ≤ 0).trans (Int.natCast_nonneg _)
        · omega
  | zadd key score name =>
    cases score with
    | none => trivial
    | some score =>
      unfold Keyspace.reply
      dsimp only
      split
      · trivial
      · exact hbit' _
  | zrem key name =>
    unfold Keyspace.reply
    dsimp only
    split
    · trivial
    · exact hbit _
  | zscore key name =>
    unfold Keyspace.reply
    dsimp only
    split
    · trivial
    · next m _ => cases m.lookup name <;> trivial
  | zquery key score name offset limit =>
    cases score with
    | none => trivial
    | some score =>
      cases offset with
      | none => trivial
      | some offset => cases limit <;> trivial

theorem replies_fits {a : Keyspace} {now : Nat} {c : Command} {r : Reply} (hr : a.Replies now c r)
    (h : ∀ key item e, a.lookup key = some item → item.expiry = some e → e < now + 2 ^ 63)
    (hspec : a.Specified c) (hlisting : ∀ key m, a.zset key = some m → ∃ ts, Listing m ts) :
    r.Fits := by
  have hone := reply_fits c h
  unfold Keyspace.Replies at hr
  split at hr
  · obtain ⟨ks, -, -, rfl⟩ := hr
    intro v hv
    obtain ⟨k, -, rfl⟩ := List.mem_map.mp hv
    trivial
  · split at hr
    · rw [hr]
      exact hone
    · next m hm =>
      obtain ⟨ts, hts⟩ := hlisting _ m hm
      rw [hr ts hts (hspec m ts hm hts)]
      intro v hv
      obtain ⟨t, -, hv⟩ := List.mem_flatMap.mp hv
      rcases List.mem_cons.mp hv with rfl | hv
      · trivial
      · rw [List.mem_singleton.mp hv]
        trivial
  · rw [hr]
    exact hone

/-- **A client prints what the server keeps.** Of what is written back for a call, in a run of the
    server with any number of clients, `read_res` prints the text of a reply that the machine
    allows at the place of the call in the history; or if it does not fit into a message, the error
    that says so. A reply to a query is meant where the query is specified. -/
theorem client_prints_reply {es : List LoopEvent} {t : TracedState}
    (hrun : Run (TracedStep strtod) {} es t) (hclock : t.server.clock.toNat < 2 ^ 63)
    {pre post : List History.Entry} {p : Ptr} {call : Call}
    (h : t.history.entries = pre ++ .call p call :: post) :
    ∃ m r, Run (Machine.Step strtod) {} (pre.map History.Entry.event) m ∧
      m.keys.Replies call.now.toNat (Command.of strtod call.cmd) r ∧ call.body = r.encode ∧
      (m.keys.Specified (Command.of strtod call.cmd) → ∀ formatG read read' more, Reads read →
        Reads read' → showRes formatG read read' (frame (capped call.body) ++ more) =
          .ok (Int32.ofNat (capped call.body).length, r.shown formatG)) := by
  obtain ⟨k, m, r, hm, hsim, hle, hreplies, hbody⟩ := (run_recorded hrun).answered hclock h
  refine ⟨m, r, hm, hreplies, hbody, fun hspec formatG read read' more hread hread' => ?_⟩
  have hfits := replies_fits hreplies (fun key item e hitem he =>
    (hsim.near key item e hitem he).trans_le (Nat.add_le_add_right hle _)) hspec
    fun key m hm => hsim.refines.listing hm
  rw [hbody]
  exact showRes_reply hread hread' hfits more

/-- The clients print the keys of the two of them, and a value that one has set and the other has
    got. -/
theorem client_prints_reply_shared : ∃ m r m' r',
    Run (Machine.Step fun _ => (⟨0⟩, 0)) {} ((sharedEntries.take 7).map History.Entry.event) m ∧
      m.keys.Replies 0 .keys r ∧
      showRes (fun _ => []) (fun _ n => n) (fun _ n => n)
          (frame (capped (Reply.arr [.str (ascii "k"), .str (ascii "j")]).encode)) =
        .ok (17, r.shown fun _ => []) ∧
      r.shown (fun _ => []) = ascii "(arr) len=2" ++ newline ++ ascii "(str) k" ++ newline ++
        ascii "(str) j" ++ newline ++ ascii "(arr) end" ++ newline ∧
      Run (Machine.Step fun _ => (⟨0⟩, 0)) {} ((sharedEntries.take 10).map History.Entry.event) m' ∧
      m'.keys.Replies 2 (.get (ascii "j")) r' ∧
      showRes (fun _ => []) (fun _ n => n) (fun _ n => n)
          (frame (capped (Reply.one (.str (ascii "w"))).encode)) =
        .ok (6, r'.shown fun _ => []) ∧
      r'.shown (fun _ => []) = ascii "(str) w" ++ newline := by
  obtain ⟨es, t, hrun, hclock, hentries, -⟩ := exists_shared_run
  have hreads : Reads fun _ n => n := fun _ n hn => ⟨Int.natCast_pos.mpr hn, le_refl _⟩
  have hprints := fun pre {p call post} (h : sharedEntries = pre ++ .call p call :: post) =>
    client_prints_reply hrun (hclock ▸ by decide) (hentries.trans h)
  obtain ⟨m, r, hm, hreplies, -, hshown⟩ := hprints (sharedEntries.take 7) rfl
  obtain ⟨m', r', hm', hreplies', -, hshown'⟩ := hprints (sharedEntries.take 10) rfl
  have hshow := hshown trivial (fun _ => []) (fun _ n => n) (fun _ n => n) [] hreads hreads
  have hshow' := hshown' trivial (fun _ => []) (fun _ n => n) (fun _ n => n) [] hreads hreads
  rw [List.append_nil] at hshow hshow'
  have htext : ∀ r : Reply, r.Fits → showRes (fun _ => []) (fun _ n => n) (fun _ n => n)
      (frame (capped r.encode)) = .ok (Int32.ofNat (capped r.encode).length, r.shown fun _ => []) :=
    fun r hfits => List.append_nil (frame (capped r.encode)) ▸ showRes_reply hreads hreads hfits []
  have hsame := (Prod.mk.inj (ok_unique hshow (htext (.arr [.str (ascii "k"), .str (ascii "j")])
    (by simp [Reply.Fits, Scalar.Fits])))).2
  have hsame' := (Prod.mk.inj (ok_unique hshow' (htext (.one (.str (ascii "w"))) trivial))).2
  exact ⟨m, r, m', r', hm, hreplies, hshow, hsame ▸ by decide, hm', hreplies', hshow',
    hsame' ▸ by decide⟩

end Greenis
