import Server6.EnDeCoding.Base32Decode

/-!
# Decoding what was encoded

`fromBase32_toBase32`: for every slice the encoders accept, padded or not, the decoders give its bytes
back, and none of the sizes either side computes overflows.

The bits of the digits are the bits of the slice and fewer than five zeros, which the decoder never
completes to a byte. With 2^28 bytes `length * 8` would overflow.
-/

namespace Server6

namespace EnDeCoding

namespace Codec

variable {K : Codec} {U : CharClasses}

/-! ## The digits as a string -/

theorem Lawful.ne_padding (hK : K.Lawful) {d : UInt16} (hd : d ∈ K.alphabet) : d ≠ 61 := by
  have hascii := hK.ascii d hd
  grind

theorem Lawful.not_whiteSpace (hK : K.Lawful) {d : UInt16} (hd : d ∈ K.alphabet) :
    U.isWhiteSpace d = false := by
  have hascii := hK.ascii d hd
  rw [U.isWhiteSpace_ascii d (hK.lt_128 hd), decide_eq_false_iff_not]
  grind

theorem Lawful.le_length (hK : K.Lawful) : 32 ≤ K.digits.length := by
  have hlen := hK.length_alphabet
  unfold alphabet at hlen
  rw [List.length_take] at hlen
  omega

/-- The digits of small values. -/
theorem Lawful.mem_of_mem_map (hK : K.Lawful) {vs : List ℕ} (hvs : ∀ v ∈ vs, v < 32) {d : UInt16}
    (hd : d ∈ vs.map K.digit) : d ∈ K.alphabet := by
  obtain ⟨v, hv, rfl⟩ := List.mem_map.1 hd
  exact hK.digit_mem (hvs v hv)

/-- Stripping leaves the digits. -/
theorem stripped_digits (hK : K.Lawful) {s : Utf16} (hs : ∀ d ∈ s, d ∈ K.alphabet) (k : ℕ) :
    stripped U (s ++ List.replicate k 61) = s := by
  unfold stripped
  rw [U.trim_eq_self]
  · apply trimEnd_append_replicate
    intro hlast
    exact hK.ne_padding (hs 61 (List.mem_of_getLast? hlast)) rfl
  · intro c hc
    rcases List.mem_append.1 hc with hc | hc
    · exact hK.not_whiteSpace (hs c hc)
    · rw [List.eq_of_mem_replicate hc, U.isWhiteSpace_ascii 61 (by decide)]
      decide

theorem toUpper_digits (hK : K.Lawful) {s : Utf16} (hs : ∀ d ∈ s, d ∈ K.alphabet) :
    U.toUpper s = s := by
  rw [U.toUpper_of_ascii fun d hd => hK.lt_128 (hs d hd)]
  exact (List.map_congr_left fun d hd => upper_digit hK (hs d hd)).trans (List.map_id s)

/-- **Decoding digits**: when their bits are those of whole bytes and of fewer than five zeros, the
bytes come back. -/
theorem decode_digits (hK : K.Lawful) {vs : List ℕ} {bytes : Bytes} {pad : ℕ}
    (hvs : ∀ v ∈ vs, v < 32) (hpad : pad < 5) (hfit : 5 * vs.length < 2 ^ 31)
    (hbits : bits 5 vs = bits 8 (bytes.map UInt8.toNat) ++ List.replicate pad false) (k : ℕ) :
    K.decode U (some (vs.map K.digit ++ List.replicate k 61)) = .ok bytes := by
  have hmem : ∀ d ∈ vs.map K.digit, d ∈ K.alphabet := fun d hd => hK.mem_of_mem_map hvs hd
  have hstripped := stripped_digits (U := U) hK hmem k
  have hupper := toUpper_digits (U := U) hK hmem
  have hvalue : (vs.map K.digit).map (K.value U) = vs := by
    rw [List.map_map]
    exact (List.map_congr_left fun v hv => value_digit hK (hvs v hv)).trans (List.map_id vs)
  have hlegal : ∀ d ∈ vs.map K.digit, ¬ K.charToInt U d < 0 := by
    intro d hd
    obtain ⟨v, hv, rfl⟩ := List.mem_map.1 hd
    have hlt := hvs v hv
    rw [charToInt_digit hK hlt]
    exact Int32.not_lt.2 (Int32.zero_le_ofNat_of_lt (by omega))
  obtain ⟨bytes', rest, hdecode, hrest, hbits'⟩ := decode_spec (K := K) (U := U)
    (s := vs.map K.digit ++ List.replicate k 61)
    (by rwa [hstripped, List.length_map]) (by rwa [hstripped, hupper])
  rw [hstripped, hupper, hvalue] at hbits'
  have hlen := (eq_of_bits (by rw [List.length_replicate]; omega) hbits).1
  have hlen' := (eq_of_bits hrest hbits').1
  have hsmall : ∀ (bs : Bytes), ∀ b ∈ bs.map UInt8.toNat, b < 2 ^ 8 := by
    intro bs b hb
    obtain ⟨x, -, rfl⟩ := List.mem_map.1 hb
    exact x.toNat_lt
  obtain ⟨heq, -⟩ := bits_inj (hlen'.trans hlen.symm) (hsmall bytes') (hsmall bytes)
    (hbits'.symm.trans hbits)
  rw [hdecode, List.map_injective_iff.2 (fun _ _ => UInt8.toNat_inj.1) heq]

/-! ## The sizes -/

/-- No size that the two sides compute for a slice and the string `s` that encodes it overflows. -/
structure SizesFit (U : CharClasses) (offset length : Int32) (s : Utf16) : Prop where
  last : (offset + length).toInt = offset.toInt + length.toInt
  bits : (length * 8).toInt = length.toInt * 8
  round : (length * 8 + shift - 1).toInt = length.toInt * 8 + 5 - 1
  outputLength : (outputLength length).toInt = (stripped U s).length
  encoded : (Int32.ofNat s.length).toInt = s.length
  groups : (Int32.ofNat (U.toUpper (stripped U s)).length * shift).toInt =
    (U.toUpper (stripped U s)).length * 5
  outLength : (outLength (U.toUpper (stripped U s))).toInt = length.toInt

/-- The sizes for a slice of `len` bytes, and a string of its digits with `k` characters of padding. -/
theorem sizesFit_digits {off len pad k : ℕ} {s t : Utf16} (hoff : off + len < 2 ^ 31)
    (hlen : len < 2 ^ 28) (hpad : pad < 5) (ht : 5 * t.length = 8 * len + pad) (hk : k < 8)
    (hs : s.length = t.length + k) (hstripped : stripped U s = t) (hupper : U.toUpper t = t) :
    SizesFit U (Int32.ofNat off) (Int32.ofNat len) s := by
  have hfive : shift = Int32.ofNat 5 := rfl
  have hfit : 5 * t.length < 2 ^ 31 := by omega
  have hmul : Int32.ofNat len * 8 = Int32.ofNat (len * 8) := (Int32.ofNat_mul len 8).symm
  have hround : Int32.ofNat len * 8 + shift - 1 = Int32.ofNat (len * 8 + 5 - 1) := by
    rw [Int32.ofNat_sub _ _ (by omega), Int32.ofNat_add, hmul]
    rfl
  have hroom := (room_iff t.length).2 hfit
  constructor
  · rw [← Int32.ofNat_add, Int32.toInt_ofNat_of_lt hoff, Int32.toInt_ofNat_of_lt (by omega),
      Int32.toInt_ofNat_of_lt (by omega)]
    omega
  · rw [hmul, Int32.toInt_ofNat_of_lt (by omega), Int32.toInt_ofNat_of_lt (by omega)]
    omega
  · rw [hround, Int32.toInt_ofNat_of_lt (by omega), Int32.toInt_ofNat_of_lt (by omega)]
    omega
  · rw [outputLength_ofNat hlen, hstripped, Int32.toInt_ofNat_of_lt (by omega)]
    omega
  · rw [Int32.toInt_ofNat_of_lt (by omega)]
  · rw [hstripped, hupper, hfive, ← Int32.ofNat_mul, Int32.toInt_ofNat_of_lt (by omega)]
    omega
  · rw [hstripped, hupper, toInt_outLength, room_of_fit hfit, Int32.toInt_ofNat_of_lt (by omega)]
    omega

/-- **The round trip of a codec.** -/
theorem decode_encodeAt (hK : K.Lawful) (U : CharClasses) (data : ByteArr) {offset length : Int32}
    (padOutput : Bool) (hoffset : 0 ≤ offset.toInt) (hlength : 0 ≤ length.toInt)
    (hlt : length.toInt < 2 ^ 28) (hin : offset.toInt + length.toInt ≤ data.val.length) :
    ∃ s, K.encodeAt (some data) offset length padOutput = .ok s ∧
      K.decode U (some s) =
        .ok ((data.val.drop offset.toInt.toNat).take length.toInt.toNat) ∧
      SizesFit U offset length s := by
  obtain ⟨off, hoff, rfl, hoff'⟩ := exists_ofNat hoffset
  obtain ⟨len, hlen, rfl, hlen'⟩ := exists_ofNat hlength
  rw [hoff', hlen'] at hin
  rw [hlen'] at hlt
  have hsize := data.property
  obtain ⟨vs, pad, hencode, hvs, hpad, hbits⟩ := encodeAt_eq (K := K) hK.le_length data
    (show off + len ≤ data.val.length by omega) (show len < 2 ^ 28 by omega) padOutput
  have hslice : ((data.val.drop off).take len).length = len := by
    rw [List.length_take, List.length_drop]
    omega
  have hvslen : 5 * vs.length = 8 * len + pad := by
    have hlen := congrArg List.length hbits
    rwa [length_bits, List.length_append, length_bits, List.length_map, hslice,
      List.length_replicate] at hlen
  have hmem : ∀ d ∈ vs.map K.digit, d ∈ K.alphabet := fun d hd => hK.mem_of_mem_map hvs hd
  -- with or without padding, the string is the digits and some `=`
  obtain ⟨k, hk, hpadded⟩ : ∃ k < 8, (if padOutput then vs.map K.digit ++ padding (vs.map K.digit)
      else vs.map K.digit) = vs.map K.digit ++ List.replicate k 61 := by
    cases padOutput with
    | false => exact ⟨0, by omega, (List.append_nil _).symm⟩
    | true =>
      have hpadding := padding_eq (show (vs.map K.digit).length < 2 ^ 31 by
        rw [List.length_map]
        omega)
      exact ⟨_, Nat.mod_lt _ (by omega), congrArg (vs.map K.digit ++ ·) hpadding⟩
  rw [hpadded] at hencode
  rw [hoff', hlen', Int.toNat_natCast, Int.toNat_natCast]
  refine ⟨_, hencode, decode_digits hK hvs hpad (by omega) hbits k, ?_⟩
  apply sizesFit_digits (t := vs.map K.digit) (by omega) (by omega) hpad _ hk
  · rw [List.length_append, List.length_replicate]
  · exact stripped_digits hK hmem k
  · exact toUpper_digits hK hmem
  · rwa [List.length_map]

end Codec

/-- **Decoding an encoded slice gives its bytes back**, and no size overflows on the way. -/
theorem fromBase32_toBase32 (U : CharClasses) (data : ByteArr) (offset length : Int32)
    (padOutput : Bool) (hoffset : 0 ≤ offset.toInt) (hlength : 0 ≤ length.toInt)
    (hlt : length.toInt < 2 ^ 28) (hin : offset.toInt + length.toInt ≤ data.val.length) :
    (∃ s, Base32.toBase32At (some data) offset length padOutput = .ok s ∧
      Base32.fromBase32 U (some s) =
        .ok ((data.val.drop offset.toInt.toNat).take length.toInt.toNat) ∧
      Codec.SizesFit U offset length s) ∧
    ∃ s, Base32Hex.toBase32HexAt (some data) offset length padOutput = .ok s ∧
      Base32Hex.fromBase32Hex U (some s) =
        .ok ((data.val.drop offset.toInt.toNat).take length.toInt.toNat) ∧
      Codec.SizesFit U offset length s :=
  ⟨Codec.decode_encodeAt Base32.lawful U data padOutput hoffset hlength hlt hin,
    Codec.decode_encodeAt Base32Hex.lawful U data padOutput hoffset hlength hlt hin⟩

/-- Two bytes in the middle of an array. -/
theorem fromBase32_toBase32_slice :
    (∃ s, Base32.toBase32At (some ⟨[0, 255, 128, 7], by decide⟩) 1 2 true = .ok s ∧
      Base32.fromBase32 .latin1 (some s) = .ok [255, 128] ∧ Codec.SizesFit .latin1 1 2 s) ∧
    ∃ s, Base32Hex.toBase32HexAt (some ⟨[0, 255, 128, 7], by decide⟩) 1 2 true = .ok s ∧
      Base32Hex.fromBase32Hex .latin1 (some s) = .ok [255, 128] ∧
      Codec.SizesFit .latin1 1 2 s :=
  fromBase32_toBase32 .latin1 ⟨[0, 255, 128, 7], by decide⟩ 1 2 true (by decide) (by decide)
    (by decide) (by decide)

end EnDeCoding

end Server6
