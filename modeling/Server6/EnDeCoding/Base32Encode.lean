import Mathlib.Order.Bounds.Defs
import Server6.EnDeCoding.Base32
import Server6.Foundations.Bits

/-!
# What the base-32 encoders write

RFC 4648 cuts the bits of the data into groups of five, fills up the last one with zeros, writes
each with a digit and pads the digits to a multiple of eight (`IsRfc4648`).

The loop of `ToBase32` keeps the bits read and not yet written at the low end of its buffer
(`Streaming`); whatever is above them has been written. `encode_isRfc4648` is what it returns.
-/

namespace Server6

namespace EnDeCoding

/-! ## The encodings of RFC 4648 -/

namespace Rfc4648

/-- The alphabet of section 6. -/
def base32 : Utf16 := .ofString "ABCDEFGHIJKLMNOPQRSTUVWXYZ234567"

/-- The alphabet of section 7. -/
def base32hex : Utf16 := .ofString "0123456789ABCDEFGHIJKLMNOPQRSTUV"

/-- The digits of the data, without padding. -/
def digits (alphabet : Utf16) (data : Bytes) : Utf16 :=
  (groups 5 (bits 8 (data.map UInt8.toNat))).map fun g => alphabet.getD (ofBits g) 0

end Rfc4648

/-- A string is the encoding of the data: its digits, and the fewest `=` that make the length a
multiple of eight. -/
def IsRfc4648 (alphabet : Utf16) (data : Bytes) (encoded : Utf16) : Prop :=
  ∃ k, encoded = Rfc4648.digits alphabet data ++ List.replicate k 61 ∧
    IsLeast {k | 8 ∣ (Rfc4648.digits alphabet data).length + k} k

/-! ## The loop -/

namespace Codec

/-- The digit of a value. -/
def digit (K : Codec) (v : ℕ) : UInt16 := K.digits.getD v 0

variable {K : Codec}

/-- The loop has read `o` bytes of `src` and written the groups `vs`; `b` bits are in the buffer, the
last `pad` of which, or of those written, are filling. -/
structure Streaming (K : Codec) (src : List ℕ) (off : ℕ) (e : Encoding) (o b pad : ℕ)
    (vs : List ℕ) : Prop where
  offset : e.offset = Int32.ofNat (off + o)
  bitsLeft : e.bitsLeft = Int32.ofNat b
  result : e.result = vs.map K.digit
  lt : ∀ v ∈ vs, v < 32
  bits : bits 5 vs ++ bitsOf b e.buffer.toBitVec.toNat =
    bits 8 (src.take o) ++ List.replicate pad false

section

variable {data : Bytes} {off len : ℕ} {e : Encoding} {o b pad : ℕ} {vs : List ℕ}

theorem refill_full (h : Streaming K ((data.drop off).take len |>.map UInt8.toNat) off e o b pad vs)
    (last : Int32) (hb : 5 ≤ b) (hb' : b < 2 ^ 31) : refill data last e = .ok e := by
  unfold refill
  rw [if_neg]
  · rfl
  · rw [h.bitsLeft]
    exact fun hlt => absurd ((Int32.ofNat_lt_iff_lt (b := 5) hb' (by decide)).1 hlt) (by omega)

/-- A byte goes behind the bits that are in the buffer. -/
theorem refill_read (h : Streaming K ((data.drop off).take len |>.map UInt8.toNat) off e o b 0 vs)
    (hdata : off + len ≤ data.length) (hsize : data.length < 2 ^ 31) (hb : b < 5) (ho : o < len) :
    ∃ r, refill data (Int32.ofNat (off + len)) e = .ok r ∧
      Streaming K ((data.drop off).take len |>.map UInt8.toNat) off r (o + 1) (b + 8) 0 vs := by
  have hread : readAt CodecExn.indexOutOfRange data e.offset.toInt = .ok data[off + o] := by
    rw [h.offset, Int32.toInt_ofNat_of_lt (by omega)]
    exact readAt_of_lt _ (by omega)
  have hbyte : data[off + o].toNat < 256 := data[off + o].toNat_lt
  have htake : ((data.drop off).take len |>.map UInt8.toNat).take (o + 1) =
      ((data.drop off).take len |>.map UInt8.toNat).take o ++ [data[off + o].toNat] := by
    rw [List.take_add_one, List.getElem?_map, List.getElem?_take_of_lt ho, List.getElem?_drop,
      List.getElem?_eq_getElem (by omega)]
    rfl
  have hmask : Int32.ofNat data[off + o].toNat &&& 0xff = Int32.ofNat data[off + o].toNat := by
    have hand := and_ofNat_mask (Int32.ofNat data[off + o].toNat) (k := 8) (by decide)
    rwa [toNat_toBitVec_ofNat (by omega), Nat.mod_eq_of_lt (by omega)] at hand
  refine ⟨{ e with
    buffer := e.buffer <<< 8 ||| Int32.ofNat data[off + o].toNat &&& 0xff
    offset := e.offset + 1
    bitsLeft := e.bitsLeft + 8 }, ?_, ?_⟩
  · unfold refill
    rw [if_pos, if_pos, hread]
    · rfl
    · rw [h.offset]
      exact (Int32.ofNat_lt_iff_lt (by omega) (by omega)).2 (by omega)
    · rw [h.bitsLeft]
      exact (Int32.ofNat_lt_iff_lt (by omega) (by decide)).2 hb
  · refine ⟨?_, ?_, h.result, h.lt, ?_⟩
    · show e.offset + 1 = _
      rw [h.offset, ← Nat.add_assoc, Int32.ofNat_add (off + o) 1]
      rfl
    · show e.bitsLeft + 8 = _
      rw [h.bitsLeft, Int32.ofNat_add b 8]
      rfl
    · have hshift := bitsOf_shift_or (n := b) (k := 8) e.buffer.toBitVec
        (Int32.ofNat data[off + o].toNat).toBitVec (by omega)
        (by rw [toNat_toBitVec_ofNat (by omega)]; omega)
      rw [toNat_toBitVec_ofNat (by omega)] at hshift
      have hbuffer : (e.buffer <<< 8 ||| Int32.ofNat data[off + o].toNat).toBitVec =
          e.buffer.toBitVec <<< 8 ||| (Int32.ofNat data[off + o].toNat).toBitVec := by
        rw [Int32.toBitVec_or]
        exact congrArg (· ||| _) (toBitVec_shiftLeft_ofNat e.buffer (k := 8) (by decide))
      have hbits := h.bits
      rw [List.replicate_zero, List.append_nil] at hbits ⊢
      rw [hmask, hbuffer, hshift, ← List.append_assoc, hbits, htake, bits_append, bits_singleton]

/-- At the end of the input zeros fill up one group. -/
theorem refill_pad (h : Streaming K ((data.drop off).take len |>.map UInt8.toNat) off e len b 0 vs)
    (hb : b < 5) :
    ∃ r, refill data (Int32.ofNat (off + len)) e = .ok r ∧
      Streaming K ((data.drop off).take len |>.map UInt8.toNat) off r len 5 (5 - b) vs := by
  have hpad : shift - e.bitsLeft = Int32.ofNat (5 - b) := by
    rw [h.bitsLeft, Int32.ofNat_sub 5 b (by omega)]
    rfl
  refine ⟨{ e with
    buffer := e.buffer <<< Int32.ofNat (5 - b), bitsLeft := e.bitsLeft + Int32.ofNat (5 - b) },
    ?_, ?_⟩
  · unfold refill
    rw [if_pos, if_neg, hpad]
    · rfl
    · rw [h.offset]
      exact Int32.lt_irrefl
    · rw [h.bitsLeft]
      exact (Int32.ofNat_lt_iff_lt (by omega) (by decide)).2 hb
  · refine ⟨h.offset, ?_, h.result, h.lt, ?_⟩
    · show e.bitsLeft + Int32.ofNat (5 - b) = _
      rw [h.bitsLeft, ← Int32.ofNat_add, Nat.add_sub_cancel' (by omega)]
    · have hshift := bitsOf_shift (n := b) (k := 5 - b) e.buffer.toBitVec (by omega)
      rw [Nat.add_sub_cancel' (by omega)] at hshift
      have hbits := h.bits
      rw [List.replicate_zero, List.append_nil] at hbits
      rw [toBitVec_shiftLeft_ofNat _ (by omega), hshift, ← List.append_assoc, hbits]

/-- The upper five bits in the buffer are written. -/
theorem emit {src : List ℕ} (h : Streaming K src off e o b pad vs) (hK : 32 ≤ K.digits.length)
    (hb : 5 ≤ b) (hb' : b ≤ 12) :
    ∃ v, readAt CodecExn.indexOutOfRange K.digits
        (mask &&& e.buffer >>> (e.bitsLeft - shift)).toInt = .ok (K.digit v) ∧
      Streaming K src off
        { e with bitsLeft := e.bitsLeft - shift, result := e.result ++ [K.digit v] }
        o (b - 5) pad (vs ++ [v]) := by
  have hcount : e.bitsLeft - shift = Int32.ofNat (b - 5) := by
    rw [h.bitsLeft, Int32.ofNat_sub b 5 hb]
    rfl
  have hindex : mask &&& e.buffer >>> (e.bitsLeft - shift) =
      Int32.ofNat ((e.buffer.toBitVec.sshiftRight (b - 5)).toNat % 2 ^ 5) := by
    have hand := and_ofNat_mask (e.buffer >>> Int32.ofNat (b - 5)) (k := 5) (by decide)
    rw [toBitVec_shiftRight_ofNat _ (by omega)] at hand
    rw [hcount, Int32.and_comm]
    exact hand
  have hlt := Nat.mod_lt (e.buffer.toBitVec.sshiftRight (b - 5)).toNat (Nat.two_pow_pos 5)
  refine ⟨(e.buffer.toBitVec.sshiftRight (b - 5)).toNat % 2 ^ 5, ?_, h.offset, hcount, ?_, ?_, ?_⟩
  · rw [hindex, Int32.toInt_ofNat_of_lt (by omega), readAt_of_lt _ (by omega)]
    unfold digit
    rw [List.getD_eq_getElem _ _ (by omega)]
  · rw [List.map_append, h.result]
    rfl
  · intro v hv
    rcases List.mem_append.1 hv with hv | hv
    · exact h.lt v hv
    · rw [List.eq_of_mem_singleton hv]
      exact hlt
  · have hsplit := bitsOf_add 5 (b - 5) e.buffer.toBitVec.toNat
    rw [Nat.add_sub_cancel' hb] at hsplit
    rw [← h.bits, bits_append, bits_singleton, bitsOf_mod, bitsOf_sshiftRight _ (by omega),
      List.append_assoc, ← hsplit]

/-- Between two groups at most eight bits are in the buffer, and filling is there only at the end. -/
def Ready (K : Codec) (src : List ℕ) (off : ℕ) (e : Encoding) : Prop :=
  ∃ o b pad vs, Streaming K src off e o b pad vs ∧ o ≤ src.length ∧ b ≤ 8 ∧ pad < 5 ∧
    (pad ≠ 0 → b = 0 ∧ o = src.length)

/-- **One round of the loop** returns, ready for the next. -/
theorem encodeGroup_ready (hK : 32 ≤ K.digits.length) (hdata : off + len ≤ data.length)
    (hsize : data.length < 2 ^ 31)
    (h : Ready K ((data.drop off).take len |>.map UInt8.toNat) off e)
    (hmore : More (Int32.ofNat (off + len)) e) :
    ∃ e', K.encodeGroup data (Int32.ofNat (off + len)) e = .ok e' ∧
      Ready K ((data.drop off).take len |>.map UInt8.toNat) off e' := by
  have hlen : ((data.drop off).take len |>.map UInt8.toNat).length = len := by
    rw [List.length_map, List.length_take, List.length_drop]
    omega
  obtain ⟨o, b, pad, vs, hs, ho, hb, hpad, hend⟩ := h
  rw [hlen] at ho hend
  -- whatever refilling does, it leaves a group to write
  obtain ⟨r, o', b', pad', hr, hs', ho', hb5, hb12, hpad', hend'⟩ :
      ∃ r o' b' pad', refill data (Int32.ofNat (off + len)) e = .ok r ∧
        Streaming K ((data.drop off).take len |>.map UInt8.toNat) off r o' b' pad' vs ∧
        o' ≤ len ∧ 5 ≤ b' ∧ b' ≤ 12 ∧ pad' < 5 ∧ (pad' ≠ 0 → b' = 5 ∧ o' = len) := by
    by_cases hfull : 5 ≤ b
    · refine ⟨e, o, b, pad, refill_full hs _ hfull (by omega), hs, ho, hfull, by omega, hpad, ?_⟩
      intro hne
      exact absurd (hend hne).1 (by omega)
    · have hzero : pad = 0 := by
        by_contra hne
        obtain ⟨hb0, ho0⟩ := hend hne
        unfold More at hmore
        rw [hs.bitsLeft, hs.offset, hb0, ho0] at hmore
        rcases hmore with hmore | hmore
        · exact absurd hmore (by decide)
        · exact Int32.lt_irrefl hmore
      subst hzero
      by_cases hin : o < len
      · obtain ⟨r, hr, hs'⟩ := refill_read hs hdata hsize (by omega) hin
        exact ⟨r, o + 1, b + 8, 0, hr, hs', hin, by omega, by omega, by omega, fun h => absurd rfl h⟩
      · obtain rfl : o = len := by omega
        have hpos : 0 < b := by
          by_contra hb0
          unfold More at hmore
          rw [hs.bitsLeft, hs.offset, show b = 0 by omega] at hmore
          rcases hmore with hmore | hmore
          · exact absurd hmore (by decide)
          · exact Int32.lt_irrefl hmore
        obtain ⟨r, hr, hs'⟩ := refill_pad hs (by omega)
        exact ⟨r, o, 5, 5 - b, hr, hs', le_rfl, le_rfl, by omega, by omega, fun _ => ⟨rfl, rfl⟩⟩
  obtain ⟨v, hv, hs''⟩ := emit hs' hK hb5 hb12
  refine ⟨_, ?_, o', b' - 5, pad', vs ++ [v], hs'', ?_⟩
  · unfold encodeGroup
    rw [hr, ok_bind]
    show (readAt CodecExn.indexOutOfRange K.digits
      (mask &&& r.buffer >>> (r.bitsLeft - shift)).toInt >>= _) = _
    rw [hv]
    rfl
  · rw [hlen]
    refine ⟨ho', by omega, hpad', fun hne => ?_⟩
    obtain ⟨hb, ho⟩ := hend' hne
    exact ⟨by omega, ho⟩

/-- **What the loop ends with**: groups that are the bits of the input and fewer than five zeros. -/
theorem encodeLoop_spec (hK : 32 ≤ K.digits.length) (hdata : off + len ≤ data.length)
    (hsize : data.length < 2 ^ 31) {last : Int32} (hlast : last = Int32.ofNat (off + len))
    (h : Ready K ((data.drop off).take len |>.map UInt8.toNat) off e) :
    ∃ e' vs pad, whileLoop (More last) (K.encodeGroup data last) (remaining last)
        (K.remaining_encodeGroup data last) e = .ok e' ∧
      e'.result = vs.map K.digit ∧ (∀ v ∈ vs, v < 32) ∧ pad < 5 ∧
      bits 5 vs = bits 8 ((data.drop off).take len |>.map UInt8.toNat) ++
        List.replicate pad false := by
  subst hlast
  have hlen : ((data.drop off).take len |>.map UInt8.toNat).length = len := by
    rw [List.length_map, List.length_take, List.length_drop]
    omega
  obtain ⟨e', he', ⟨o, b, pad, vs, hs, ho, hb, hpad, -⟩, hdone⟩ :
      ∃ e', whileLoop (More (Int32.ofNat (off + len))) (K.encodeGroup data (Int32.ofNat (off + len)))
          (remaining (Int32.ofNat (off + len)))
          (K.remaining_encodeGroup data (Int32.ofNat (off + len))) e = .ok e' ∧
        Ready K ((data.drop off).take len |>.map UInt8.toNat) off e' ∧
        ¬ More (Int32.ofNat (off + len)) e' :=
    whileLoop_spec h fun e he hmore => encodeGroup_ready hK hdata hsize he hmore
  rw [hlen] at ho
  unfold More at hdone
  rw [not_or, hs.bitsLeft, hs.offset] at hdone
  obtain rfl : b = 0 := by
    by_contra hb0
    exact hdone.1 ((Int32.ofNat_lt_iff_lt (a := 0) (by omega) (by omega)).2 (by omega))
  obtain rfl : o = len := by
    by_contra hne
    exact hdone.2 ((Int32.ofNat_lt_iff_lt (by omega) (by omega)).2 (by omega))
  refine ⟨e', vs, pad, he', hs.result, hs.lt, hpad, ?_⟩
  have hbits := hs.bits
  rwa [show bitsOf 0 e'.buffer.toBitVec.toNat = [] from rfl, List.append_nil,
    List.take_of_length_le hlen.le] at hbits

end

/-! ## The whole call -/

/-- The size of the output is computed without overflow. -/
theorem outputLength_ofNat {len : ℕ} (h : len < 2 ^ 28) :
    outputLength (Int32.ofNat len) = Int32.ofNat ((len * 8 + 4) / 5) := by
  have hfive : shift = Int32.ofNat 5 := rfl
  have hsum : Int32.ofNat len * 8 + shift - 1 = Int32.ofNat (len * 8 + 4) := by
    rw [show len * 8 + 4 = len * 8 + 5 - 1 by omega, Int32.ofNat_sub _ _ (by omega),
      Int32.ofNat_add, Int32.ofNat_mul]
    rfl
  unfold outputLength
  rw [hsum, hfive, Int32.ofNat_div (by omega) (by decide)]

/-- A length of 2^28 is too large. -/
theorem tooLong_iff (length : Int32) : (1 : Int32) <<< 28 ≤ length ↔ 2 ^ 28 ≤ length.toInt := by
  have hone : ((1 : Int32) <<< 28).toInt = 2 ^ 28 := rfl
  rw [Int32.le_iff_toInt_le, hone]

/-- The size of the output is no reason to throw. -/
theorem outputLength_nonneg (hlength : 0 ≤ length.toInt) (hlt : length.toInt < 2 ^ 28) :
    ¬ outputLength length < 0 := by
  obtain ⟨len, hlen, rfl, hlen'⟩ := exists_ofNat hlength
  rw [outputLength_ofNat (by omega)]
  exact Int32.not_lt.2 (Int32.zero_le_ofNat_of_lt (by omega))

/-- A call that passes the check and has something to encode. -/
theorem encodeAt_of_pass {data : ByteArr} {offset length : Int32} (hoffset : 0 ≤ offset.toInt)
    (hlength : 0 < length.toInt) (hlt : length.toInt < 2 ^ 28)
    (hroom : ¬ data.length < offset + length) (padOutput : Bool) :
    K.encodeAt (some data) offset length padOutput = (do
      let b ← readAt .indexOutOfRange data.val offset.toInt
      let e ← whileLoop (More (offset + length)) (K.encodeGroup data.val (offset + length))
        (remaining (offset + length)) (K.remaining_encodeGroup data.val (offset + length))
        ⟨offset + 1, Int32.ofNat b.toNat, 8, []⟩
      return if padOutput then e.result ++ padding e.result else e.result) := by
  have hzero : (0 : Int32).toInt = 0 := rfl
  unfold encodeAt
  simp only
  rw [if_neg, if_neg, if_neg hroom, if_neg, if_neg, if_neg (outputLength_nonneg (by omega) hlt)]
  · rw [tooLong_iff]
    omega
  · rintro rfl
    omega
  · rw [Int32.lt_iff_toInt_lt]
    omega
  · rw [Int32.lt_iff_toInt_lt]
    omega

/-- The state in which the loop begins has read the first byte. -/
theorem ready_first {data : Bytes} {off len : ℕ} (hle : off + len ≤ data.length) (hpos : 0 < len)
    {b : UInt8} (hb : data[off]? = some b) :
    Ready K ((data.drop off).take len |>.map UInt8.toNat) off
      ⟨Int32.ofNat off + 1, Int32.ofNat b.toNat, 8, []⟩ := by
  have hbyte : b.toNat < 256 := b.toNat_lt
  have hfirst : ((data.drop off).take len |>.map UInt8.toNat).take 1 = [b.toNat] := by
    obtain ⟨hlt, rfl⟩ := List.getElem?_eq_some_iff.1 hb
    rw [List.drop_eq_getElem_cons hlt, List.take_cons hpos]
    rfl
  refine ⟨1, 8, 0, [], ⟨(Int32.ofNat_add off 1).symm, rfl, rfl, by simp, ?_⟩, ?_, le_rfl, by omega,
    fun h => absurd rfl h⟩
  · rw [hfirst, bits_singleton, toNat_toBitVec_ofNat (by omega)]
    rfl
  · rw [List.length_map, List.length_take, List.length_drop]
    omega

/-- **What `ToBase32` returns** for a slice of the array. -/
theorem encodeAt_eq (hK : 32 ≤ K.digits.length) (data : ByteArr) {off len : ℕ}
    (hle : off + len ≤ data.val.length) (hlt : len < 2 ^ 28) (padOutput : Bool) :
    ∃ vs pad, K.encodeAt (some data) (Int32.ofNat off) (Int32.ofNat len) padOutput =
        .ok (if padOutput then vs.map K.digit ++ padding (vs.map K.digit) else vs.map K.digit) ∧
      (∀ v ∈ vs, v < 32) ∧ pad < 5 ∧
      bits 5 vs = bits 8 ((data.val.drop off).take len |>.map UInt8.toNat) ++
        List.replicate pad false := by
  have hsize := data.property
  have hoff : (Int32.ofNat off).toInt = off := Int32.toInt_ofNat_of_lt (by omega)
  have hlen : (Int32.ofNat len).toInt = len := Int32.toInt_ofNat_of_lt (by omega)
  have hlast : Int32.ofNat off + Int32.ofNat len = Int32.ofNat (off + len) :=
    (Int32.ofNat_add off len).symm
  have hroom : ¬ data.length < Int32.ofNat off + Int32.ofNat len := by
    rw [hlast]
    exact fun hlt => absurd ((Int32.ofNat_lt_iff_lt hsize (by omega)).1 hlt) (by omega)
  by_cases hzero : len = 0
  · subst hzero
    have hnil : padding [] = [] := by decide
    have hneg : ¬ Int32.ofNat off < 0 := Int32.not_lt.2 (Int32.zero_le_ofNat_of_lt (by omega))
    refine ⟨[], 0, ?_, by simp, by omega, by rw [List.take_zero]; rfl⟩
    unfold encodeAt
    simp only
    rw [if_neg hneg, if_neg (by decide), if_neg hroom, if_pos (show Int32.ofNat 0 = 0 from rfl),
      List.map_nil, hnil, List.append_nil, ite_self]
  · have hpos : 0 < len := by omega
    obtain ⟨b, hb⟩ : ∃ b, data.val[off]? = some b := ⟨_, List.getElem?_eq_getElem (by omega)⟩
    obtain ⟨e, vs, pad, he, hresult, hvs, hpad, hbits⟩ :=
      encodeLoop_spec hK hle hsize hlast (ready_first hle hpos hb)
    refine ⟨vs, pad, ?_, hvs, hpad, hbits⟩
    rw [encodeAt_of_pass (by omega) (by omega) (by omega) hroom, hoff, readAt_natCast _ hb, ok_bind]
    simp only [he, ok_bind, hresult]
    rfl

/-- The padding is what is missing to a multiple of eight. -/
theorem padding_eq {result : Utf16} (h : result.length < 2 ^ 31) :
    padding result = List.replicate ((8 - result.length % 8) % 8) 61 := by
  have hmod : Int32.ofNat result.length % 8 = Int32.ofNat (result.length % 8) :=
    (Int32.ofNat_mod h (by decide)).symm
  have hlt := Nat.mod_lt result.length (show 0 < 8 by decide)
  unfold padding
  rw [hmod]
  generalize result.length % 8 = m at hlt
  clear hmod h
  decide +revert

theorem isLeast_padding (n : ℕ) : IsLeast {k | 8 ∣ n + k} ((8 - n % 8) % 8) := by
  constructor
  · show 8 ∣ n + (8 - n % 8) % 8
    omega
  · intro k hk
    have hk : 8 ∣ n + k := hk
    omega

/-- The groups written are the digits of the encoding. -/
theorem map_digit_eq {alphabet : Utf16} (hK : ∀ v < 32, K.digit v = alphabet.getD v 0)
    {bytes : Bytes} {vs : List ℕ} {pad : ℕ} (hvs : ∀ v ∈ vs, v < 32) (hpad : pad < 5)
    (hbits : bits 5 vs = bits 8 (bytes.map UInt8.toNat) ++ List.replicate pad false) :
    vs.map K.digit = Rfc4648.digits alphabet bytes := by
  unfold Rfc4648.digits
  rw [groups_eq hpad hbits, List.map_map]
  apply List.map_congr_left
  intro v hv
  show K.digit v = alphabet.getD (ofBits (bitsOf 5 v)) 0
  rw [hK v (hvs v hv), ofBits_bitsOf, Nat.mod_eq_of_lt (show v < 2 ^ 5 from hvs v hv)]

theorem length_groups_lt {vs : List ℕ} {bytes : Bytes} {pad : ℕ} (hpad : pad < 5)
    (hlen : bytes.length < 2 ^ 28)
    (hbits : bits 5 vs = bits 8 (bytes.map UInt8.toNat) ++ List.replicate pad false) :
    vs.length < 2 ^ 29 := by
  have h := congrArg List.length hbits
  rw [length_bits, List.length_append, length_bits, List.length_map, List.length_replicate] at h
  omega

/-- **The encoder of a codec with an alphabet of RFC 4648.** -/
theorem encode_isRfc4648 {alphabet : Utf16} (hlen : 32 ≤ K.digits.length)
    (hK : ∀ v < 32, K.digit v = alphabet.getD v 0) {data : ByteArr}
    (hdata : data.val.length < 2 ^ 28) :
    ∃ s, K.encode (some data) true = .ok s ∧ IsRfc4648 alphabet data.val s := by
  obtain ⟨vs, pad, hencode, hvs, hpad, hbits⟩ := encodeAt_eq hlen data
    (show 0 + data.val.length ≤ data.val.length by omega) hdata true
  rw [List.drop_zero, List.take_length] at hbits
  have hdigits := map_digit_eq hK hvs hpad hbits
  have hsmall := length_groups_lt hpad hdata hbits
  refine ⟨_, hencode, (8 - (Rfc4648.digits alphabet data.val).length % 8) % 8, ?_,
    isLeast_padding _⟩
  rw [if_pos rfl, padding_eq (by rw [List.length_map]; omega), hdigits]

end Codec

theorem Base32.digit_eq : ∀ v < 32, codec.digit v = Rfc4648.base32.getD v 0 := by decide

theorem Base32Hex.digit_eq : ∀ v < 32, codec.digit v = Rfc4648.base32hex.getD v 0 := by decide

/-- **Both encoders write RFC 4648**, for every array they accept. -/
theorem toBase32_isRfc4648 (data : ByteArr) (h : data.val.length < 2 ^ 28) :
    (∃ s, Base32.toBase32 (some data) true = .ok s ∧ IsRfc4648 Rfc4648.base32 data.val s) ∧
      ∃ s, Base32Hex.toBase32Hex (some data) true = .ok s ∧
        IsRfc4648 Rfc4648.base32hex data.val s :=
  ⟨Codec.encode_isRfc4648 (K := Base32.codec) (by decide) Base32.digit_eq h,
    Codec.encode_isRfc4648 (K := Base32Hex.codec) (by decide) Base32Hex.digit_eq h⟩

/-- Three bytes, with a last group to fill up. -/
theorem toBase32_isRfc4648_foo :
    (∃ s, Base32.toBase32 (some ⟨[102, 111, 111], by decide⟩) true = .ok s ∧
      IsRfc4648 Rfc4648.base32 [102, 111, 111] s) ∧
    ∃ s, Base32Hex.toBase32Hex (some ⟨[102, 111, 111], by decide⟩) true = .ok s ∧
      IsRfc4648 Rfc4648.base32hex [102, 111, 111] s :=
  toBase32_isRfc4648 ⟨[102, 111, 111], by decide⟩ (by decide)

end EnDeCoding

end Server6
