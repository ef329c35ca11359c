import Server6.EnDeCoding.Base32Encode

/-!
# The range check of the base-32 encoders

`ToBase32` compares `offset + length` with the length of the array, and both the sum and the bound of
the loop are computed in 32 bits. Where the sum passes 2^31 it is negative, and the check passes
(`Overflows`). `checks_iff` is that nothing else is wrong with it: in every other case the arguments
are refused exactly when they are out of range, and what is accepted is encoded without an index
error.
-/

namespace Server6

namespace EnDeCoding

/-- A computation throws an `ArgumentOutOfRangeException`. -/
def ThrowsOutOfRange {α : Type} (x : Except CodecExn α) : Prop :=
  ∃ paramName, x = .error (.argumentOutOfRange paramName)

/-- What the check is there to refuse. -/
def OutOfRange (data : ByteArr) (offset length : Int32) : Prop :=
  offset.toInt < 0 ∨ length.toInt < 0 ∨ data.val.length < offset.toInt + length.toInt ∨
    2 ^ 28 ≤ length.toInt

/-- The sum is too large for an `int`, and the length is not. -/
def Overflows (offset length : Int32) : Prop :=
  0 ≤ offset.toInt ∧ 0 ≤ length.toInt ∧ length.toInt < 2 ^ 28 ∧
    2 ^ 31 ≤ offset.toInt + length.toInt

/-- A string encodes the data, with padding or without. -/
def IsEncoding (alphabet : Utf16) (padOutput : Bool) (data : Bytes) (s : Utf16) : Prop :=
  if padOutput then IsRfc4648 alphabet data s else s = Rfc4648.digits alphabet data

/-- The outcome of a call is the one its arguments ask for. -/
structure Checks (alphabet : Utf16) (data : ByteArr) (offset length : Int32) (padOutput : Bool)
    (outcome : Except CodecExn Utf16) : Prop where
  throws_iff : ThrowsOutOfRange outcome ↔ OutOfRange data offset length
  returns : ¬ OutOfRange data offset length → ∃ s, outcome = .ok s ∧
    IsEncoding alphabet padOutput ((data.val.drop offset.toInt.toNat).take length.toInt.toNat) s
  inside : outcome ≠ .error .indexOutOfRange

namespace Codec

variable {K : Codec} {alphabet : Utf16} {data : ByteArr} {offset length : Int32} {padOutput : Bool}

/-- The only exception of the loop is an index error. -/
theorem refill_error {bytes : Bytes} {last : Int32} {e : Encoding} {x : CodecExn}
    (h : refill bytes last e = .error x) : x = .indexOutOfRange := by
  unfold refill at h
  split_ifs at h
  · cases hread : readAt CodecExn.indexOutOfRange bytes e.offset.toInt with
    | error y =>
      rw [hread, error_bind] at h
      rw [← Except.error.inj h, readAt_error hread]
    | ok b =>
      rw [hread, ok_bind] at h
      cases h
  · cases h
  · cases h

theorem encodeGroup_error {bytes : Bytes} {last : Int32} {e : Encoding} {x : CodecExn}
    (h : K.encodeGroup bytes last e = .error x) : x = .indexOutOfRange := by
  unfold encodeGroup at h
  cases hrefill : refill bytes last e with
  | error y =>
    rw [hrefill, error_bind] at h
    rw [← Except.error.inj h, refill_error hrefill]
  | ok r =>
    rw [hrefill, ok_bind] at h
    cases hread : readAt CodecExn.indexOutOfRange K.digits
        (mask &&& r.buffer >>> (r.bitsLeft - shift)).toInt with
    | error y =>
      simp only [hread, error_bind] at h
      rw [← Except.error.inj h, readAt_error hread]
    | ok digit =>
      simp only [hread, ok_bind] at h
      cases h

/-- The sum in the check, where it overflows. -/
theorem toInt_add_of_overflows (h : Overflows offset length) : (offset + length).toInt < 0 := by
  obtain ⟨hoffset, hlength, hlt, hsum⟩ := h
  have hlt' := offset.toInt_lt
  rw [Int32.toInt_add, Int.bmod_def]
  omega

/-- **Where the sum overflows** the arguments are not refused: the call fails at an index or
returns. -/
theorem encodeAt_of_overflows (data : ByteArr) (h : Overflows offset length) (padOutput : Bool) :
    ¬ ThrowsOutOfRange (K.encodeAt (some data) offset length padOutput) := by
  have hnegative := toInt_add_of_overflows h
  obtain ⟨hoffset, hlength, hlt, hsum⟩ := h
  have hlt' := offset.toInt_lt
  have hdata : 0 ≤ data.length.toInt := by
    rw [ByteArr.length, Int32.toInt_ofNat_of_lt data.property]
    omega
  have hroom : ¬ data.length < offset + length := by
    rw [Int32.lt_iff_toInt_lt]
    omega
  rw [encodeAt_of_pass hoffset (by omega) hlt hroom padOutput]
  rintro ⟨paramName, hthrows⟩
  cases hread : readAt CodecExn.indexOutOfRange data.val offset.toInt with
  | error x =>
    rw [hread, error_bind, readAt_error hread] at hthrows
    cases hthrows
  | ok b =>
    rw [hread, ok_bind] at hthrows
    cases hloop : whileLoop (More (offset + length)) (K.encodeGroup data.val (offset + length))
        (remaining (offset + length)) (K.remaining_encodeGroup data.val (offset + length))
        ⟨offset + 1, Int32.ofNat b.toNat, 8, []⟩ with
    | error x =>
      obtain ⟨e, -, he⟩ := exists_of_whileLoop_error hloop
      rw [hloop, error_bind, encodeGroup_error he] at hthrows
      cases hthrows
    | ok e =>
      rw [hloop, ok_bind] at hthrows
      cases hthrows

/-- What is out of range is refused, unless the sum overflows. -/
theorem encodeAt_of_outOfRange (hoverflow : ¬ Overflows offset length)
    (hout : OutOfRange data offset length) :
    ThrowsOutOfRange (K.encodeAt (some data) offset length padOutput) := by
  have hzero : (0 : Int32).toInt = 0 := rfl
  have hdata : data.length.toInt = data.val.length := by
    rw [ByteArr.length, Int32.toInt_ofNat_of_lt data.property]
  unfold encodeAt
  simp only
  by_cases hoffset : offset < 0
  · rw [if_pos hoffset]
    exact ⟨_, rfl⟩
  rw [if_neg hoffset]
  by_cases hlength : length < 0
  · rw [if_pos hlength]
    exact ⟨_, rfl⟩
  rw [if_neg hlength]
  by_cases hroom : data.length < offset + length
  · rw [if_pos hroom]
    exact ⟨_, rfl⟩
  rw [if_neg hroom]
  rw [Int32.lt_iff_toInt_lt] at hoffset hlength hroom
  -- only the length is left to be out of range
  have hlong : 2 ^ 28 ≤ length.toInt := by
    unfold OutOfRange at hout
    unfold Overflows at hoverflow
    by_contra hshort
    have hsum : (offset + length).toInt = offset.toInt + length.toInt :=
      toInt_add_of_bounds (by omega) (by omega)
    omega
  rw [if_neg, if_pos ((tooLong_iff length).2 hlong)]
  · exact ⟨_, rfl⟩
  · rintro rfl
    omega

/-- What is in range is encoded. -/
theorem encodeAt_of_inRange (hlen : 32 ≤ K.digits.length)
    (hK : ∀ v < 32, K.digit v = alphabet.getD v 0) (hin : ¬ OutOfRange data offset length) :
    ∃ s, K.encodeAt (some data) offset length padOutput = .ok s ∧
      IsEncoding alphabet padOutput
        ((data.val.drop offset.toInt.toNat).take length.toInt.toNat) s := by
  unfold OutOfRange at hin
  obtain ⟨off, hoff, rfl, hoff'⟩ := exists_ofNat (a := offset) (by omega)
  obtain ⟨len, hlen', rfl, hlen''⟩ := exists_ofNat (a := length) (by omega)
  obtain ⟨vs, pad, hencode, hvs, hpad, hbits⟩ := encodeAt_eq hlen data
    (show off + len ≤ data.val.length by omega) (by omega) padOutput
  rw [hoff', hlen'', Int.toNat_natCast, Int.toNat_natCast]
  have hdigits := map_digit_eq hK hvs hpad hbits
  refine ⟨_, hencode, ?_⟩
  unfold IsEncoding
  cases padOutput with
  | false => exact hdigits
  | true =>
    have hshort : ((data.val.drop off).take len).length < 2 ^ 28 := by
      rw [List.length_take]
      omega
    have hsmall := length_groups_lt hpad hshort hbits
    rw [if_pos rfl, if_pos rfl, padding_eq (by rw [List.length_map]; omega), hdigits]
    exact ⟨_, rfl, isLeast_padding _⟩

/-- **The range check of a codec.** -/
theorem checks_iff_not_overflows (hlen : 32 ≤ K.digits.length)
    (hK : ∀ v < 32, K.digit v = alphabet.getD v 0) (data : ByteArr) (offset length : Int32)
    (padOutput : Bool) :
    Checks alphabet data offset length padOutput
      (K.encodeAt (some data) offset length padOutput) ↔ ¬ Overflows offset length := by
  constructor
  · intro h hoverflow
    have hsize := data.property
    have hsum := hoverflow.2.2.2
    refine encodeAt_of_overflows data hoverflow padOutput (h.throws_iff.2 ?_)
    exact .inr (.inr (.inl (by omega)))
  · intro hoverflow
    by_cases hout : OutOfRange data offset length
    · have hthrows : ThrowsOutOfRange (K.encodeAt (some data) offset length padOutput) :=
        encodeAt_of_outOfRange hoverflow hout
      refine ⟨iff_of_true hthrows hout, fun hin => absurd hout hin, ?_⟩
      obtain ⟨paramName, hthrows⟩ := hthrows
      rw [hthrows]
      intro h
      cases h
    · obtain ⟨s, hs, hencoding⟩ : ∃ s, K.encodeAt (some data) offset length padOutput = .ok s ∧ _ :=
        encodeAt_of_inRange hlen hK hout
      refine ⟨iff_of_false ?_ hout, fun _ => ⟨s, hs, hencoding⟩, ?_⟩
      · rw [hs]
        rintro ⟨paramName, h⟩
        cases h
      · rw [hs]
        intro h
        cases h

end Codec

/-- **When the range check does its work**: unless the sum of offset and length passes 2^31 with a
length below 2^28. -/
theorem checks_iff (data : ByteArr) (offset length : Int32) (padOutput : Bool) :
    (Checks Rfc4648.base32 data offset length padOutput
        (Base32.toBase32At (some data) offset length padOutput) ↔ ¬ Overflows offset length) ∧
      (Checks Rfc4648.base32hex data offset length padOutput
        (Base32Hex.toBase32HexAt (some data) offset length padOutput) ↔
          ¬ Overflows offset length) :=
  ⟨Codec.checks_iff_not_overflows (K := Base32.codec) (by decide) Base32.digit_eq data offset length
      padOutput,
    Codec.checks_iff_not_overflows (K := Base32Hex.codec) (by decide) Base32Hex.digit_eq data offset
      length padOutput⟩

/-- An offset at the top of the range. -/
theorem not_checks_top :
    ¬ Checks Rfc4648.base32 ⟨[1, 2, 3], by decide⟩ 2147483647 1 true
        (Base32.toBase32At (some ⟨[1, 2, 3], by decide⟩) 2147483647 1 true) ∧
      ¬ Checks Rfc4648.base32hex ⟨[1, 2, 3], by decide⟩ 2147483647 1 true
        (Base32Hex.toBase32HexAt (some ⟨[1, 2, 3], by decide⟩) 2147483647 1 true) := by
  have hoverflow : Overflows 2147483647 1 := ⟨by decide, by decide, by decide, by decide⟩
  have hout : OutOfRange ⟨[1, 2, 3], by decide⟩ 2147483647 1 := .inr (.inr (.inl (by decide)))
  exact ⟨fun h => Codec.encodeAt_of_overflows _ hoverflow true (h.throws_iff.2 hout),
    fun h => Codec.encodeAt_of_overflows _ hoverflow true (h.throws_iff.2 hout)⟩

end EnDeCoding

end Server6
