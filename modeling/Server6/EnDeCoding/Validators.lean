import Server6.EnDeCoding.Base16
import Server6.EnDeCoding.Base32RoundTrip

/-!
# The validators and their codecs

A validator looks each character up in the table of its codec. That is enough for base 16: both
tables hold digits only. The tables of base 32 end with `=`, which the decoder takes only behind the
last digit, so `IsValidBase32` accepts strings that `FromBase32` refuses; `validators_agree_iff` says
which.
-/

namespace Server6

namespace EnDeCoding

/-! ## Base 16 -/

namespace HexCodec

variable {K : HexCodec}

/-- A validator whose table holds digits accepts only what is decoded. -/
theorem decode_of_valid (hK : ∀ d ∈ K.digits, (hexValue d).isSome = true) {s : Utf16} (hne : s ≠ [])
    (hvalid : validIn K.digits (some s) = .ok true) : ∃ bytes, decode (some s) = .ok bytes :=
  decode_returns hne fun c hc => hK c (validIn_eq_true_iff.1 hvalid c hc)

/-- The encoder returns a string of the images of the sixteen digits. -/
theorem valid_of_encode {U : CharClasses} {f : UInt16 → UInt16}
    (hcasing : ∀ s, (∀ c ∈ s, c < 128) → K.casing U s = s.map f)
    (hf : ∀ n < 16, f (hexDigit n) ∈ K.digits) {inBytes : Option ByteArr} {s : Utf16}
    (hs : K.encode U inBytes = .ok s) : validIn K.digits (some s) = .ok true := by
  unfold encode at hs
  cases inBytes with
  | none => cases hs
  | some bytes =>
    simp only at hs
    split_ifs at hs with hempty
    obtain rfl := Except.ok.inj hs
    rw [validIn_eq_true_iff, hcasing _ hexDigit_ascii]
    exact forall_map_flatMap_x2 hf _

end HexCodec

theorem upper_hexDigit (U : CharClasses) : ∀ n < 16, U.upper (hexDigit n) ∈ Base16.digits := by
  intro n hn
  rw [U.upper_ascii _ (hexDigit_lt_128 hn)]
  decide +revert

theorem lower_hexDigit (U : CharClasses) : ∀ n < 16, U.lower (hexDigit n) ∈ Hex16.digits := by
  intro n hn
  rw [U.lower_ascii _ (hexDigit_lt_128 hn)]
  decide +revert

theorem Base16.hexValue_digits : ∀ d ∈ digits, (hexValue d).isSome = true :=
  List.all_iff_forall_prop.1 (by decide)

theorem Hex16.hexValue_digits : ∀ d ∈ digits, (hexValue d).isSome = true :=
  List.all_iff_forall_prop.1 (by decide)

/-! ## Base 32 -/

namespace Codec

variable {K : Codec} {U : CharClasses}

/-- Refilling writes nothing. -/
theorem refill_result {data : Bytes} {last : Int32} {e r : Encoding}
    (h : refill data last e = .ok r) : r.result = e.result := by
  unfold refill at h
  split_ifs at h
  · cases hread : readAt CodecExn.indexOutOfRange data e.offset.toInt with
    | error x => simp [hread] at h
    | ok b =>
      rw [hread, ok_bind] at h
      obtain rfl := Except.ok.inj h
      rfl
  · obtain rfl := Except.ok.inj h
    rfl
  · obtain rfl := Except.ok.inj h
    rfl

/-- Every character the loop appends is in the table. -/
theorem encodeGroup_mem {data : Bytes} {last : Int32} {e e' : Encoding}
    (h : ∀ c ∈ e.result, c ∈ K.digits) (hstep : K.encodeGroup data last e = .ok e') :
    ∀ c ∈ e'.result, c ∈ K.digits := by
  unfold encodeGroup at hstep
  cases hrefill : refill data last e with
  | error x => simp [hrefill] at hstep
  | ok r =>
    rw [hrefill, ok_bind] at hstep
    cases hread : readAt CodecExn.indexOutOfRange K.digits
        (mask &&& r.buffer >>> (r.bitsLeft - shift)).toInt with
    | error x => simp [hread] at hstep
    | ok digit =>
      simp only [hread, ok_bind] at hstep
      obtain rfl := Except.ok.inj hstep
      intro c hc
      rcases List.mem_append.1 hc with hc | hc
      · rw [refill_result hrefill] at hc
        exact h c hc
      · rw [List.mem_singleton.1 hc]
        exact mem_of_readAt hread

theorem eq_of_mem_padding {result : Utf16} {c : UInt16} (h : c ∈ padding result) : c = 61 := by
  unfold padding at h
  simp only at h
  split_ifs at h
  · simp at h
  · exact List.eq_of_mem_replicate h
  · simp at h

/-- Whatever slice is asked for, a string that is returned is valid. -/
theorem valid_of_encodeAt (hK : 61 ∈ K.digits) {data : Option ByteArr} {offset length : Int32}
    {padOutput : Bool} {s : Utf16} (hs : K.encodeAt data offset length padOutput = .ok s) :
    K.isValid (some s) = .ok true := by
  unfold isValid
  rw [validIn_eq_true_iff]
  cases data with
  | none => cases hs
  | some data =>
    unfold encodeAt at hs
    simp only at hs
    split at hs
    · cases hs
    split at hs
    · cases hs
    split at hs
    · cases hs
    split at hs
    · obtain rfl := Except.ok.inj hs
      simp
    split at hs
    · cases hs
    split at hs
    · cases hs
    · cases hread : readAt CodecExn.indexOutOfRange data.val offset.toInt with
      | error x => simp [hread] at hs
      | ok b =>
        rw [hread, ok_bind] at hs
        cases hloop : whileLoop (More (offset + length))
            (K.encodeGroup data.val (offset + length)) (remaining (offset + length))
            (K.remaining_encodeGroup data.val (offset + length))
            ⟨offset + 1, Int32.ofNat b.toNat, 8, []⟩ with
        | error x => simp [hloop] at hs
        | ok e =>
          rw [hloop, ok_bind] at hs
          have hmem : ∀ c ∈ e.result, c ∈ K.digits := whileLoop_invariant
            (P := fun e => ∀ c ∈ e.result, c ∈ K.digits) (by simp)
            (fun e e' he _ hstep => encodeGroup_mem he hstep) hloop
          obtain rfl := Except.ok.inj hs
          intro c hc
          split_ifs at hc
          · rcases List.mem_append.1 hc with hc | hc
            · exact hmem c hc
            · rw [eq_of_mem_padding hc]
              exact hK
          · exact hmem c hc

theorem valid_of_encode (hK : 61 ∈ K.digits) {data : Option ByteArr} {padOutput : Bool} {s : Utf16}
    (hs : K.encode data padOutput = .ok s) : K.isValid (some s) = .ok true := by
  cases data with
  | none => cases hs
  | some bs =>
    exact valid_of_encodeAt hK (show K.encodeAt (some bs) 0 bs.length padOutput = .ok s from hs)

/-- `=` is no digit in any classification. -/
theorem not_accepted_padding : ¬ K.Accepted U 61 := by
  have hupper : U.upper 61 = 61 := by
    rw [U.upper_ascii 61 (by decide)]
    decide
  unfold Accepted
  rw [hupper, U.isUpper_ascii 61 (by decide), U.isLower_ascii 61 (by decide)]
  rintro (h | h | h)
  · exact absurd h (by decide)
  · exact absurd h (by decide)
  · exact absurd h.2 (by decide)

/-- **The valid strings that are decoded**: those with `=` only at the end, unless they are so long
that the size of the result overflows. -/
theorem decode_returns_iff (hK : K.Lawful) (hdigits : K.digits = K.alphabet ++ [61]) {s : Utf16}
    (hvalid : K.isValid (some s) = .ok true) :
    (∃ bytes, K.decode U (some s) = .ok bytes) ↔
      61 ∉ trimEnd s 61 ∧ 5 * (trimEnd s 61).length < 2 ^ 31 := by
  have hmem : ∀ c ∈ s, c ∈ K.alphabet ∨ c = 61 := by
    intro c hc
    have hdigit := validIn_eq_true_iff.1 hvalid c hc
    rw [hdigits, List.mem_append, List.mem_singleton] at hdigit
    exact hdigit
  have hstripped : stripped U s = trimEnd s 61 := by
    unfold stripped
    rw [U.trim_eq_self]
    intro c hc
    rcases hmem c hc with hc | rfl
    · exact hK.not_whiteSpace hc
    · rw [U.isWhiteSpace_ascii 61 (by decide)]
      decide
  rw [decode_ok_iff hK, hstripped, and_comm]
  apply and_congr_left
  intro _
  constructor
  · intro hacc hpad
    exact not_accepted_padding (hacc 61 hpad)
  · intro hpad c hc
    rcases hmem c (List.rdropWhile_prefix _ _ |>.subset hc) with hdigit | rfl
    · exact Legal.accepted hK ⟨c, hdigit, .inl rfl⟩
    · exact absurd hc hpad

/-- With `=` before the last digit a valid string is not decoded. -/
theorem not_agree (hK : K.Lawful) (hdigits : K.digits = K.alphabet ++ [61]) {s : Utf16}
    (hvalid : K.isValid (some s) = .ok true) (hpad : 61 ∈ trimEnd s 61) :
    ¬ (K.isValid (some s) = .ok true → ∃ bytes, K.decode U (some s) = .ok bytes) := fun h =>
  ((decode_returns_iff hK hdigits hvalid).1 (h hvalid)).1 hpad

end Codec

/-- **The encoders write what the validators accept**, and the validators accept only what the decoders
take, except for strings with `=` before the last digit and strings too long for the decoders. -/
theorem validators_agree_iff (U : CharClasses) :
    (∀ inBytes s, Base16.toBase16 U inBytes = .ok s → Base16.isValidBase16 (some s) = .ok true) ∧
    (∀ inBytes s, Hex16.toHex16 U inBytes = .ok s → Hex16.isValidHex16 (some s) = .ok true) ∧
    (∀ data padOutput s, Base32.toBase32 data padOutput = .ok s →
      Base32.isValidBase32 (some s) = .ok true) ∧
    (∀ data padOutput s, Base32Hex.toBase32Hex data padOutput = .ok s →
      Base32Hex.isValidBase32Hex (some s) = .ok true) ∧
    ∀ s ≠ [],
      (Base16.isValidBase16 (some s) = .ok true → ∃ bytes, Base16.fromBase16 (some s) = .ok bytes) ∧
      (Hex16.isValidHex16 (some s) = .ok true → ∃ bytes, Hex16.fromHex16 (some s) = .ok bytes) ∧
      (Base32.isValidBase32 (some s) = .ok true →
        ((∃ bytes, Base32.fromBase32 U (some s) = .ok bytes) ↔
          61 ∉ trimEnd s 61 ∧ 5 * (trimEnd s 61).length < 2 ^ 31)) ∧
      (Base32Hex.isValidBase32Hex (some s) = .ok true →
        ((∃ bytes, Base32Hex.fromBase32Hex U (some s) = .ok bytes) ↔
          61 ∉ trimEnd s 61 ∧ 5 * (trimEnd s 61).length < 2 ^ 31)) := by
  refine ⟨?_, ?_, ?_, ?_, ?_⟩
  · intro inBytes s hs
    exact HexCodec.valid_of_encode (K := Base16.codec) (fun _ => U.toUpper_of_ascii)
      (upper_hexDigit U) hs
  · intro inBytes s hs
    exact HexCodec.valid_of_encode (K := Hex16.codec) (fun _ => U.toLower_of_ascii)
      (lower_hexDigit U) hs
  · intro data padOutput s hs
    exact Codec.valid_of_encode (K := Base32.codec) (by decide) hs
  · intro data padOutput s hs
    exact Codec.valid_of_encode (K := Base32Hex.codec) (by decide) hs
  · intro s hne
    refine ⟨?_, ?_, ?_, ?_⟩
    · exact HexCodec.decode_of_valid (K := Base16.codec) Base16.hexValue_digits hne
    · exact HexCodec.decode_of_valid (K := Hex16.codec) Hex16.hexValue_digits hne
    · exact Codec.decode_returns_iff Base32.lawful (by decide)
    · exact Codec.decode_returns_iff Base32Hex.lawful (by decide)

/-- A byte with its padding. -/
theorem validators_agree_iff_padded :
    ∃ bytes, Base32.fromBase32 .latin1 (some (.ofString "MY======")) = .ok bytes :=
  (((validators_agree_iff .latin1).2.2.2.2 (Utf16.ofString "MY======") (by decide)).2.2.1
    (by decide)).2 ⟨by decide, by decide⟩

/-- With `=` between two digits both validators of base 32 accept what their decoder refuses. -/
theorem not_validators_agree :
    ¬ (Base32.isValidBase32 (some (.ofString "A=B")) = .ok true →
      ∃ bytes, Base32.fromBase32 .latin1 (some (.ofString "A=B")) = .ok bytes) ∧
    ¬ (Base32Hex.isValidBase32Hex (some (.ofString "A=B")) = .ok true →
      ∃ bytes, Base32Hex.fromBase32Hex .latin1 (some (.ofString "A=B")) = .ok bytes) := by
  constructor
  · exact Codec.not_agree Base32.lawful (by decide) (by decide) (by decide)
  · exact Codec.not_agree Base32Hex.lawful (by decide) (by decide) (by decide)

end EnDeCoding

end Server6
