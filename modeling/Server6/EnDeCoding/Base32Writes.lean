import Server6.EnDeCoding.Base32Decode

/-!
# What the base-32 decoders write

The size of the result array is computed before the loop, and how often the loop writes is decided by
a bit count that runs along. `decodeLogged` is the decoder with a log of its assignments to the
array, of which `map_decodeLogged` says that it is no other decoder.

* `Logged` is the invariant: the assignments so far went to the first cells, one after the other.
* `fromBase32_writes` is what holds of the whole call, where no character is refused: the array is
  written from end to end, and every byte consists of bits of the characters, whatever the upper bits
  of the buffer have become.
-/

namespace Server6

namespace EnDeCoding

namespace Codec

variable {K : Codec} {U : CharClasses}

/-! ## The code, with a log -/

/-- An assignment `result[index] = value`, and what the buffer is shifted right by for it. -/
structure Store where
  index : Int
  amount : Int32
  value : UInt8
  deriving DecidableEq, Repr

/-- One character, as in `decodeChar`. -/
def decodeCharLogged (K : Codec) (U : CharClasses) (t : Decoding × List Store) (c : UInt16) :
    Except CodecExn (Decoding × List Store) :=
  let (d, stores) := t
  let charValue := K.charToInt U c
  if charValue < 0 then
    .error (.format (.ofString "Illegal character: `" ++ [c] ++ .ofString "`"))
  else
    let buffer := d.buffer <<< shift ||| charValue &&& mask
    let bitsLeft := d.bitsLeft + shift
    if 8 ≤ bitsLeft then do
      let value := (buffer >>> (bitsLeft - 8)).toUInt32.toUInt8
      let result ← writeAt .indexOutOfRange d.result d.next.toInt value
      return (⟨result, buffer, d.next + 1, bitsLeft - 8⟩,
        stores ++ [⟨d.next.toInt, bitsLeft - 8, value⟩])
    else return (⟨d.result, buffer, d.next, bitsLeft⟩, stores)

/-- `FromBase32`, as in `decode`. -/
def decodeLogged (K : Codec) (U : CharClasses) (encoded : NString) :
    Except CodecExn (Bytes × List Store) :=
  match encoded with
  | none => .error (.argumentNull "encoded" none)
  | some encoded =>
    let encoded := U.toUpper (stripped U encoded)
    if encoded.length = 0 then .ok ([], [])
    else do
      let result ← newByteArray (outLength encoded)
      let (d, stores) ← encoded.foldlM (K.decodeCharLogged U) (⟨result, 0, 0, 0⟩, [])
      return (d.result, stores)

theorem map_decodeCharLogged (d : Decoding) (stores : List Store) (c : UInt16) :
    (K.decodeCharLogged U (d, stores) c).map Prod.fst = K.decodeChar U d c := by
  unfold decodeCharLogged decodeChar
  simp only
  split_ifs
  · rfl
  · cases writeAt CodecExn.indexOutOfRange d.result d.next.toInt _ <;> rfl
  · rfl

theorem map_foldlM_decodeCharLogged (cs : Utf16) (d : Decoding) (stores : List Store) :
    (cs.foldlM (K.decodeCharLogged U) (d, stores)).map Prod.fst = cs.foldlM (K.decodeChar U) d := by
  induction cs generalizing d stores with
  | nil => rfl
  | cons c cs ih =>
    rw [List.foldlM_cons, List.foldlM_cons, ← map_decodeCharLogged d stores c]
    cases K.decodeCharLogged U (d, stores) c with
    | error x => rfl
    | ok t => exact ih t.1 t.2

/-- The log changes nothing. -/
theorem map_decodeLogged (encoded : NString) :
    (K.decodeLogged U encoded).map Prod.fst = K.decode U encoded := by
  cases encoded with
  | none => rfl
  | some encoded =>
    unfold decodeLogged decode
    simp only
    split_ifs
    · rfl
    · cases newByteArray (outLength (U.toUpper (stripped U encoded))) with
      | error x => rfl
      | ok result =>
        rw [ok_bind, ok_bind,
          ← map_foldlM_decodeCharLogged (U.toUpper (stripped U encoded)) ⟨result, 0, 0, 0⟩ []]
        cases (U.toUpper (stripped U encoded)).foldlM (K.decodeCharLogged U)
          (⟨result, 0, 0, 0⟩, []) <;> rfl

/-! ## The loop -/

/-- **The invariant**: the assignments so far are one to each of the first cells, in order. -/
structure Logged (size : ℕ) (t : Decoding × List Store) (vs : List ℕ) : Prop where
  decoded : Decoded size t.1 vs
  index : t.2.map Store.index = (List.range (5 * vs.length / 8)).map Int.ofNat
  amount : ∀ w ∈ t.2, 0 ≤ w.amount ∧ w.amount ≤ 4
  value : t.2.map Store.value = t.1.result.take (5 * vs.length / 8)

theorem logged_start (size : ℕ) : Logged size (⟨List.replicate size 0, 0, 0, 0⟩, []) [] :=
  ⟨decoded_start size, rfl, fun _ h => absurd h List.not_mem_nil, rfl⟩

section

variable {size : ℕ} {t : Decoding × List Store} {vs : List ℕ} {c : UInt16}

/-- A character that is accepted, where the array has room for the bits. -/
theorem Logged.step (h : Logged size t vs) (hsize : size < 2 ^ 31) (hc : ¬ K.charToInt U c < 0)
    (hroom : 5 * (vs.length + 1) / 8 ≤ size) :
    ∃ t', K.decodeCharLogged U t c = .ok t' ∧ Logged size t' (vs ++ [K.value U c]) := by
  obtain ⟨d, stores⟩ := t
  obtain ⟨(hdecoded : Decoded size d vs), (hindex : stores.map Store.index = _),
    (hamount : ∀ w ∈ stores, _), (hvalue : stores.map Store.value = d.result.take _)⟩ := h
  obtain ⟨d', hd', hdecoded'⟩ := decodeChar_ok hdecoded hsize hc hroom
  have herase := map_decodeCharLogged (K := K) (U := U) d stores c
  obtain ⟨w, b, hlen, hnext, hleft, hw, hb, hbits⟩ := hdecoded
  obtain ⟨hbytes, hrest⟩ := count_of_bits (hw.trans_eq hlen.symm) hb hbits
  have htest := le_bitsLeft_iff hleft hb
  have hcount : (vs ++ [K.value U c]).length = vs.length + 1 := by simp
  rw [hd'] at herase
  unfold decodeCharLogged at herase ⊢
  simp only at herase ⊢
  rw [if_neg hc] at herase ⊢
  by_cases hfull : 8 ≤ b + 5
  · have hindex' : d.next.toInt = w := by rw [hnext, Int32.toInt_ofNat_of_lt (by omega)]
    have hone : 5 * (vs.length + 1) / 8 = w + 1 := by omega
    rw [if_pos (htest.2 hfull), writeAt_next hnext (by omega) (by omega)] at herase ⊢
    obtain rfl := Except.ok.inj herase
    refine ⟨_, rfl, hdecoded', ?_, ?_, ?_⟩
    · rw [List.map_append, hindex, hcount, hone, List.range_succ, List.map_append, hbytes, hindex',
        hbytes]
      rfl
    · intro store hstore
      rw [List.mem_append, List.mem_singleton] at hstore
      rcases hstore with hstore | rfl
      · exact hamount store hstore
      · show 0 ≤ d.bitsLeft + shift - 8 ∧ d.bitsLeft + shift - 8 ≤ 4
        rw [bitsLeft_sub hleft hfull]
        exact ⟨Int32.zero_le_ofNat_of_lt (by omega),
          (Int32.ofNat_le_iff_le (b := 4) (by omega) (by decide)).2 (by omega)⟩
    · rw [List.map_append, hvalue, hcount, hone, ← hbytes, take_set_succ (by omega)]
      rfl
  · rw [if_neg (mt htest.1 hfull)] at herase ⊢
    obtain rfl := Except.ok.inj herase
    have hsame : 5 * (vs.length + 1) / 8 = 5 * vs.length / 8 := by omega
    refine ⟨_, rfl, hdecoded', ?_, hamount, ?_⟩
    · rw [hcount, hsame]
      exact hindex
    · rw [hcount, hsame]
      exact hvalue

/-- The whole loop. -/
theorem Logged.foldlM (hsize : size < 2 ^ 31) {cs : Utf16} (hcs : ∀ c ∈ cs, ¬ K.charToInt U c < 0)
    (h : Logged size t vs) (hroom : 5 * (vs.length + cs.length) / 8 ≤ size) :
    ∃ t', cs.foldlM (K.decodeCharLogged U) t = .ok t' ∧
      Logged size t' (vs ++ cs.map (K.value U)) := by
  induction cs generalizing t vs with
  | nil => exact ⟨t, rfl, by rwa [List.map_nil, List.append_nil]⟩
  | cons c cs ih =>
    rw [List.length_cons] at hroom
    obtain ⟨t', ht', h'⟩ := h.step hsize (hcs c (by simp)) (by omega)
    have hlen : (vs ++ [K.value U c]).length = vs.length + 1 := by simp
    obtain ⟨t'', ht'', h''⟩ := ih (fun c' hc' => hcs c' (by simp [hc'])) h' (by omega)
    refine ⟨t'', ?_, by rwa [List.append_assoc] at h''⟩
    rw [List.foldlM_cons, ht']
    exact ht''

end

/-! ## The whole call -/

/-- The five bits of each character. -/
def values (K : Codec) (U : CharClasses) (s : Utf16) : List ℕ :=
  (U.toUpper (stripped U s)).map (K.value U)

/-- The assignments fill the array: one to each cell, from the first to the last, none of them shifts
by more than four, and a cell has its eight of the bits of the characters. -/
structure Fills (values : List ℕ) (result : Bytes) (stores : List Store) : Prop where
  index : stores.map Store.index = (List.range (5 * values.length / 8)).map Int.ofNat
  amount : ∀ w ∈ stores, 0 ≤ w.amount ∧ w.amount ≤ 4
  value : stores.map Store.value = result
  cell : ∀ j < 5 * values.length / 8, ∃ b, result[j]? = some b ∧
    bitsOf 8 b.toNat = ((bits 5 values).drop (8 * j)).take 8

variable {s : Utf16}

theorem length_values : (K.values U s).length = (stripped U s).length := by
  rw [values, List.length_map, length_toUpper]

/-- At the end of the loop. -/
theorem Logged.fills {n : ℕ} {t : Decoding × List Store} {vs : List ℕ}
    (h : Logged (5 * n / 8) t vs) (hn : vs.length = n) : Fills vs t.1.result t.2 := by
  obtain ⟨⟨w, b, hlen, -, -, hw, hb, hbits⟩, hindex, hamount, hvalue⟩ := h
  have hbytes := (count_of_bits (hw.trans_eq hlen.symm) hb hbits).1
  rw [List.take_of_length_le (by omega)] at hbits hvalue
  refine ⟨hindex, hamount, hvalue, fun j hj => ⟨t.1.result[j], List.getElem?_eq_getElem _, ?_⟩⟩
  have hj' : j < (t.1.result.map UInt8.toNat).length := by
    rw [List.length_map]
    omega
  rw [hbits, take_drop_bits hj', List.getElem_map]

/-- Nothing overflows where the array is allocated. -/
theorem decodeLogged_of_fit (hfit : 5 * (stripped U s).length < 2 ^ 31) :
    K.decodeLogged U (some s) = (do
      let t ← (U.toUpper (stripped U s)).foldlM (K.decodeCharLogged U)
        (⟨List.replicate (5 * (stripped U s).length / 8) 0, 0, 0, 0⟩, [])
      return (t.1.result, t.2)) := by
  have hsize : (outLength (U.toUpper (stripped U s))).toInt =
      (5 * (stripped U s).length / 8 : ℕ) := by
    rw [toInt_outLength, length_toUpper, room_of_fit hfit]
  unfold decodeLogged
  simp only
  split_ifs with hnil
  · rw [← length_toUpper U, List.length_eq_zero_iff.1 hnil]
    rfl
  · rw [newByteArray_of_nonneg hsize]
    rfl

/-- A character is refused, or the array is filled. -/
theorem decode_fills (hfit : 5 * (stripped U s).length < 2 ^ 31) :
    ThrowsFormat (K.decode U (some s)) ∨
      ∃ result stores, K.decodeLogged U (some s) = .ok (result, stores) ∧
        K.decode U (some s) = .ok result ∧ Fills (K.values U s) result stores := by
  have hroom := room_of_fit hfit
  by_cases hcs : ∀ c ∈ U.toUpper (stripped U s), ¬ K.charToInt U c < 0
  · right
    obtain ⟨t, ht, h⟩ := (logged_start (5 * (stripped U s).length / 8)).foldlM (by omega) hcs
      (by rw [length_toUpper, List.length_nil, Nat.zero_add])
    have hlogged : K.decodeLogged U (some s) = .ok (t.1.result, t.2) := by
      rw [decodeLogged_of_fit hfit, ht]
      rfl
    refine ⟨t.1.result, t.2, hlogged, ?_, h.fills length_values⟩
    rw [← map_decodeLogged, hlogged]
    rfl
  · left
    obtain ⟨c, hc, hneg⟩ : ∃ c ∈ U.toUpper (stripped U s), K.charToInt U c < 0 := by
      by_contra hno
      exact hcs fun c hc hneg => hno ⟨c, hc, hneg⟩
    obtain ⟨i, hi, rfl⟩ := List.mem_iff_getElem.1 hc
    have hlt : i < (stripped U s).length := by rwa [length_toUpper] at hi
    rw [decode_of_room (by omega), throwsFormat_bind_pure,
      foldlM_format_iff (by omega) (decoded_start _)]
    exact ⟨i, _, List.getElem?_eq_getElem hi, hneg, by rw [List.length_nil]; omega⟩

end Codec

/-- **What the decoders write**: they refuse a character, or they fill the array, each cell once. -/
theorem fromBase32_writes (U : CharClasses) (s : Utf16)
    (hfit : 5 * (Codec.stripped U s).length < 2 ^ 31) :
    (ThrowsFormat (Base32.fromBase32 U (some s)) ∨
      ∃ result stores, Base32.codec.decodeLogged U (some s) = .ok (result, stores) ∧
        Base32.fromBase32 U (some s) = .ok result ∧
        Codec.Fills (Base32.codec.values U s) result stores) ∧
    (ThrowsFormat (Base32Hex.fromBase32Hex U (some s)) ∨
      ∃ result stores, Base32Hex.codec.decodeLogged U (some s) = .ok (result, stores) ∧
        Base32Hex.fromBase32Hex U (some s) = .ok result ∧
        Codec.Fills (Base32Hex.codec.values U s) result stores) :=
  ⟨Codec.decode_fills hfit, Codec.decode_fills hfit⟩

/-- Seven characters fill four bytes, and three bits are left. In both tables they have values, but not
the same. -/
theorem fromBase32_writes_foob :
    (∃ stores,
      Base32.codec.decodeLogged .latin1 (some (.ofString "cpnmuog=")) =
          .ok ([19, 218, 202, 56], stores) ∧
        Codec.Fills (Base32.codec.values .latin1 (.ofString "cpnmuog=")) [19, 218, 202, 56] stores) ∧
    ∃ stores,
      Base32Hex.codec.decodeLogged .latin1 (some (.ofString "cpnmuog=")) =
          .ok (Utf16.utf8 (.ofString "foob"), stores) ∧
        Codec.Fills (Base32Hex.codec.values .latin1 (.ofString "cpnmuog="))
          (Utf16.utf8 (.ofString "foob")) stores := by
  obtain ⟨h32, hHex⟩ := fromBase32_writes .latin1 (.ofString "cpnmuog=") (by decide)
  have hok : Base32.fromBase32 .latin1 (some (.ofString "cpnmuog=")) = .ok [19, 218, 202, 56] := by
    decide
  have hokHex : Base32Hex.fromBase32Hex .latin1 (some (.ofString "cpnmuog=")) =
      .ok (Utf16.utf8 (.ofString "foob")) := by decide
  rw [hok] at h32
  rw [hokHex] at hHex
  constructor
  · obtain ⟨_, h⟩ | ⟨result, stores, hlogged, hresult, hfills⟩ := h32
    · cases h
    · obtain rfl := Except.ok.inj hresult
      exact ⟨stores, hlogged, hfills⟩
  · obtain ⟨_, h⟩ | ⟨result, stores, hlogged, hresult, hfills⟩ := hHex
    · cases h
    · obtain rfl := Except.ok.inj hresult
      exact ⟨stores, hlogged, hfills⟩

end EnDeCoding

end Server6
