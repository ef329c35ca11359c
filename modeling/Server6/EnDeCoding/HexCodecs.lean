import Mathlib.Data.Bool.AllAny
import Mathlib.Data.List.GetD
import Server6.EnDeCoding.Base16
import Server6.EnDeCoding.Strings

/-!
# Three codecs for hexadecimal digits

`ToHexString` and `FromHexString` of `Extensions` are a third codec beside `Base16` and `Hex16`. It
writes the capital digits itself instead of casing them, and its decoder fills an array of half the
length of the string.

All three decoders read the pairs of digits from the left (`pairsOf`), so each undoes each encoder
(`hex_roundTrip`). They differ in what they make of a last digit without a partner:
`decoders_agree_iff`.
-/

namespace Server6

open EnDeCoding

namespace Extensions

/-- A digit of the format `X`. -/
def hexDigitX (n : ℕ) : UInt16 := if n < 10 then UInt16.ofNat (48 + n) else UInt16.ofNat (55 + n)

/-- `t.ToString("X2")`. -/
def X2 (t : UInt8) : Utf16 := [hexDigitX (t.toNat / 16), hexDigitX (t.toNat % 16)]

/-- `ToHexString`. -/
def toHexString (bytes : Option ByteArr) : Except CodecExn Utf16 :=
  match bytes with
  | none => .error .nullReference
  | some bytes => .ok (bytes.val.foldl (fun sb t => sb ++ X2 t) [])

/-- `Convert.ToByte(sb, 16)` of a string of two characters. -/
def toByteOfPair (sb : Utf16) : Except CodecExn UInt8 := toByte16 (sb.getD 0 0) (sb.getD 1 0)

/-- `FromHexString`. -/
def fromHexString (hexString : NString) : Except CodecExn Bytes :=
  match hexString with
  | none => .error .nullReference
  | some hexString =>
    (List.range (hexString.length / 2)).foldlM (fun bytes (i : ℕ) => do
      let sb ← substring hexString (i * 2) 2
      let b ← toByteOfPair sb
      writeAt .indexOutOfRange bytes i b) (List.replicate (hexString.length / 2) 0)

end Extensions

namespace EnDeCoding

open Extensions

/-- A string of hexadecimal digits. -/
def HexDigits (s : Utf16) : Prop := ∀ c ∈ s, (hexValue c).isSome = true

instance : DecidablePred HexDigits := fun _ => inferInstanceAs (Decidable (∀ _ ∈ _, _))

/-! ## The pairs of a string -/

/-- The byte of two digits. -/
def byteOf (msb lsb : UInt16) : UInt8 :=
  UInt8.ofNat (16 * (hexValue msb).getD 0 + (hexValue lsb).getD 0)

/-- The bytes of the pairs of digits from the left. -/
def pairsOf : Utf16 → Bytes
  | [] => []
  | [_] => []
  | msb :: lsb :: s => byteOf msb lsb :: pairsOf s

theorem toByte16_digits {msb lsb : UInt16} (hmsb : (hexValue msb).isSome = true)
    (hlsb : (hexValue lsb).isSome = true) : toByte16 msb lsb = .ok (byteOf msb lsb) := by
  obtain ⟨x, hx⟩ := Option.isSome_iff_exists.1 hmsb
  obtain ⟨y, hy⟩ := Option.isSome_iff_exists.1 hlsb
  rw [toByte16_of_hexValue hx hy, byteOf, hx, hy]
  rfl

theorem length_pairsOf (s : Utf16) : (pairsOf s).length = s.length / 2 := by
  induction s using pairsOf.induct with
  | case1 => rfl
  | case2 c => simp [pairsOf]
  | case3 msb lsb s ih =>
    rw [pairsOf, List.length_cons, List.length_cons, List.length_cons, ih]
    omega

theorem getD_pairsOf (s : Utf16) {i : ℕ} (hi : i < s.length / 2) :
    (pairsOf s).getD i 0 = byteOf (s.getD (i * 2) 0) (s.getD (i * 2 + 1) 0) := by
  induction s using pairsOf.induct generalizing i with
  | case1 => exact absurd hi (by simp)
  | case2 c => exact absurd hi (by simp)
  | case3 msb lsb s ih =>
    rw [List.length_cons, List.length_cons] at hi
    rw [pairsOf]
    cases i with
    | zero => rfl
    | succ i =>
      rw [List.getD_cons_succ, ih (by omega), show (i + 1) * 2 = i * 2 + 1 + 1 by omega,
        List.getD_cons_succ, List.getD_cons_succ, List.getD_cons_succ, List.getD_cons_succ]

/-! ## What the decoders read -/

theorem pairBytes_eq {s : Utf16} (heven : s.length % 2 = 0) (h : HexDigits s) :
    pairBytes s = .ok (pairsOf s) := by
  induction s using pairBytes.induct with
  | case1 => rfl
  | case2 c => exact absurd heven (by simp)
  | case3 msb lsb s ih =>
    rw [List.length_cons, List.length_cons] at heven
    rw [pairBytes, toByte16_digits (h msb (by simp)) (h lsb (by simp)), ok_bind,
      ih (by omega) fun c hc => h c (by simp [hc])]
    rfl

/-- An odd last digit counts for the upper half of a byte. -/
theorem decode_digits {s : Utf16} (hne : s ≠ []) (h : HexDigits s) :
    HexCodec.decode (some s) = .ok (pairsOf (if s.length % 2 = 1 then s ++ [48] else s)) := by
  unfold HexCodec.decode
  rw [isNullOrEmpty_some, decide_eq_false hne, if_neg Bool.false_ne_true]
  apply pairBytes_eq
  · show (if s.length % 2 = 1 then s ++ [48] else s).length % 2 = 0
    split_ifs with hodd
    · rw [List.length_append, List.length_singleton]
      omega
    · omega
  · show HexDigits (if s.length % 2 = 1 then s ++ [48] else s)
    split_ifs
    · intro c hc
      rcases List.mem_append.1 hc with hc | hc
      · exact h c hc
      · rw [List.mem_singleton.1 hc]
        decide
    · exact h

/-- An odd last digit is left out. -/
theorem fromHexString_digits {s : Utf16} (h : HexDigits s) :
    fromHexString (some s) = .ok (pairsOf s) := by
  unfold fromHexString
  simp only
  rw [foldlM_fill (fun i => (pairsOf s).getD i 0) (fun bytes i hbytes hi => ?_)
    List.length_replicate]
  · congr 1
    apply List.ext_getElem
    · rw [List.length_map, List.length_range, length_pairsOf]
    · intro i hi hi'
      rw [List.getElem_map, List.getElem_range, List.getD_eq_getElem _ _ hi']
  · have hpair : substring s ((i : Int) * 2) 2 = .ok ((s.drop (i * 2)).take 2) :=
      substring_of_le (i := i * 2) (n := 2) (by omega)
    have hmsb : i * 2 < s.length := by omega
    have hlsb : i * 2 + 1 < s.length := by omega
    have htake : (s.drop (i * 2)).take 2 = [s[i * 2], s[i * 2 + 1]] := by
      rw [List.drop_eq_getElem_cons hmsb, List.drop_eq_getElem_cons hlsb]
      rfl
    have hbyte : toByteOfPair [s[i * 2], s[i * 2 + 1]] =
        .ok (byteOf s[i * 2] s[i * 2 + 1]) :=
      toByte16_digits (h _ (List.getElem_mem hmsb)) (h _ (List.getElem_mem hlsb))
    rw [hpair, ok_bind, htake, hbyte, ok_bind, writeAt_natCast _ (by omega), getD_pairsOf s hi,
      List.getD_eq_getElem _ _ hmsb, List.getD_eq_getElem _ _ hlsb]

/-! ## What the encoders write -/

/-- A digit for every value below 16. -/
def IsDigitTable (f : ℕ → UInt16) : Prop := ∀ n < 16, hexValue (f n) = some n

theorem isDigitTable_upper (U : CharClasses) : IsDigitTable fun n => U.upper (hexDigit n) := by
  intro n hn
  show hexValue (U.upper (hexDigit n)) = some n
  rw [U.upper_ascii _ (hexDigit_lt_128 hn)]
  decide +revert

theorem isDigitTable_lower (U : CharClasses) : IsDigitTable fun n => U.lower (hexDigit n) := by
  intro n hn
  show hexValue (U.lower (hexDigit n)) = some n
  rw [U.lower_ascii _ (hexDigit_lt_128 hn)]
  decide +revert

theorem isDigitTable_X : IsDigitTable hexDigitX := by
  intro n hn
  decide +revert

/-- The digits of some bytes. -/
def digitsOf (f : ℕ → UInt16) (bytes : Bytes) : Utf16 :=
  bytes.flatMap fun b => [f (b.toNat / 16), f (b.toNat % 16)]

/-- What an encoder of the two classes writes, digit by digit. -/
theorem encode_eq {K : HexCodec} {U : CharClasses} {f : UInt16 → UInt16}
    (hcasing : ∀ s, (∀ c ∈ s, c < 128) → K.casing U s = s.map f) {b : ByteArr} (hb : b.val ≠ []) :
    K.encode U (some b) = .ok (digitsOf (fun n => f (hexDigit n)) b.val) := by
  have hlen : ¬ b.length < 1 := by
    have hpos := List.length_pos_iff.2 hb
    have hone : (1 : Int32).toInt = 1 := rfl
    rw [Int32.lt_iff_toInt_lt, ByteArr.length, Int32.toInt_ofNat_of_lt b.property, hone]
    omega
  unfold HexCodec.encode
  simp only
  rw [if_neg hlen, hcasing _ hexDigit_ascii, List.map_flatMap]
  rfl

theorem toHexString_eq (b : ByteArr) :
    toHexString (some b) = .ok (digitsOf hexDigitX b.val) := by
  unfold toHexString
  simp only
  rw [← List.flatMap_eq_foldl]
  rfl

theorem length_digitsOf (f : ℕ → UInt16) (bytes : Bytes) :
    (digitsOf f bytes).length = 2 * bytes.length := by
  unfold digitsOf
  induction bytes with
  | nil => rfl
  | cons b bytes ih =>
    rw [List.flatMap_cons, List.length_append, ih, List.length_cons]
    simp only [List.length_cons, List.length_nil]
    omega

theorem hexDigits_digitsOf {f : ℕ → UInt16} (hf : IsDigitTable f) (bytes : Bytes) :
    HexDigits (digitsOf f bytes) := by
  intro c hc
  obtain ⟨b, -, hb⟩ := List.mem_flatMap.1 hc
  have hlt := b.toNat_lt
  rcases List.mem_pair.1 hb with rfl | rfl
  · rw [hf _ (by omega)]
    rfl
  · rw [hf _ (by omega)]
    rfl

/-- The digits of some bytes are read back. -/
theorem pairsOf_digitsOf {f : ℕ → UInt16} (hf : IsDigitTable f) (bytes : Bytes) :
    pairsOf (digitsOf f bytes) = bytes := by
  induction bytes with
  | nil => rfl
  | cons b bytes ih =>
    have hlt := b.toNat_lt
    have hbyte : byteOf (f (b.toNat / 16)) (f (b.toNat % 16)) = b := by
      rw [byteOf, hf _ (by omega), hf _ (by omega), Option.getD_some, Option.getD_some,
        Nat.div_add_mod, UInt8.ofNat_toNat]
    show byteOf (f (b.toNat / 16)) (f (b.toNat % 16)) :: pairsOf (digitsOf f bytes) = b :: bytes
    rw [hbyte, ih]

/-! ## Digits read and written -/

/-- The three kinds of digits. -/
theorem hexValue_cases {c : UInt16} {x : ℕ} (h : hexValue c = some x) :
    x < 10 ∧ c = UInt16.ofNat (48 + x) ∨ 10 ≤ x ∧ x < 16 ∧ c = UInt16.ofNat (55 + x) ∨
      10 ≤ x ∧ x < 16 ∧ c = UInt16.ofNat (87 + x) := by
  have hle : ∀ n : ℕ, n < 65536 →
      (UInt16.ofNat n ≤ c ↔ n ≤ c.toNat) ∧ (c ≤ UInt16.ofNat n ↔ c.toNat ≤ n) := by
    intro n hn
    rw [UInt16.le_iff_toNat_le, UInt16.le_iff_toNat_le, UInt16.toNat_ofNat_of_lt' hn]
    exact ⟨Iff.rfl, Iff.rfl⟩
  have hself : ∀ n, n = c.toNat → c = UInt16.ofNat n := by
    rintro n rfl
    exact UInt16.ofNat_toNat.symm
  unfold hexValue at h
  split_ifs at h with hnumeral hcapital hsmall
  · obtain rfl := Option.some.inj h
    have hlow := (hle 48 (by decide)).1.1 hnumeral.1
    have hhigh := (hle 57 (by decide)).2.1 hnumeral.2
    exact .inl ⟨by omega, hself _ (by omega)⟩
  · obtain rfl := Option.some.inj h
    have hlow := (hle 65 (by decide)).1.1 hcapital.1
    have hhigh := (hle 70 (by decide)).2.1 hcapital.2
    exact .inr (.inl ⟨by omega, by omega, hself _ (by omega)⟩)
  · obtain rfl := Option.some.inj h
    have hlow := (hle 97 (by decide)).1.1 hsmall.1
    have hhigh := (hle 102 (by decide)).2.1 hsmall.2
    exact .inr (.inr ⟨by omega, by omega, hself _ (by omega)⟩)

theorem hexValue_lt {c : UInt16} {x : ℕ} (h : hexValue c = some x) : x < 16 := by
  have hcases := hexValue_cases h
  omega

theorem hexDigits_lt_128 {s : Utf16} (h : HexDigits s) : ∀ c ∈ s, c < 128 := by
  intro c hc
  obtain ⟨x, hx⟩ := Option.isSome_iff_exists.1 (h c hc)
  rcases hexValue_cases hx with ⟨hx, rfl⟩ | ⟨-, hx, rfl⟩ | ⟨-, hx, rfl⟩ <;> clear hc h
  · decide +revert
  · decide +revert
  · decide +revert

/-- Reading a digit and writing it changes its case only. -/
theorem case_hexDigit (U : CharClasses) {c : UInt16} {x : ℕ} (h : hexValue c = some x) :
    U.upper (hexDigit x) = U.upper c ∧ U.lower (hexDigit x) = U.lower c := by
  have hx := hexValue_lt h
  rcases hexValue_cases h with ⟨hx, rfl⟩ | ⟨hlow, hx, rfl⟩ | ⟨hlow, hx, rfl⟩
  · rw [hexDigit, if_pos hx]
    exact ⟨rfl, rfl⟩
  · have hc : UInt16.ofNat (55 + x) < 128 := by
      clear h hlow
      decide +revert
    rw [U.upper_ascii _ (hexDigit_lt_128 hx), U.upper_ascii _ hc,
      U.lower_ascii _ (hexDigit_lt_128 hx), U.lower_ascii _ hc]
    clear h hc
    decide +revert
  · rw [hexDigit, if_neg (by omega)]
    exact ⟨rfl, rfl⟩

/-- The pairs of an even string, written with the digits of its characters. -/
theorem digitsOf_pairsOf {f g : UInt16 → UInt16}
    (hfg : ∀ c x, hexValue c = some x → f (hexDigit x) = g c) {s : Utf16}
    (heven : s.length % 2 = 0) (h : HexDigits s) :
    digitsOf (fun n => f (hexDigit n)) (pairsOf s) = s.map g := by
  induction s using pairsOf.induct with
  | case1 => rfl
  | case2 c => exact absurd heven (by simp)
  | case3 msb lsb s ih =>
    obtain ⟨x, hx⟩ := Option.isSome_iff_exists.1 (h msb (by simp))
    obtain ⟨y, hy⟩ := Option.isSome_iff_exists.1 (h lsb (by simp))
    have hx16 := hexValue_lt hx
    have hy16 := hexValue_lt hy
    have hbyte : (byteOf msb lsb).toNat = 16 * x + y := by
      rw [byteOf, hx, hy]
      exact UInt8.toNat_ofNat_of_lt' (show 16 * x + y < 256 by omega)
    rw [List.length_cons, List.length_cons] at heven
    have ih := ih (by omega) fun c hc => h c (by simp [hc])
    show f (hexDigit ((byteOf msb lsb).toNat / 16)) :: f (hexDigit ((byteOf msb lsb).toNat % 16)) ::
      digitsOf (fun n => f (hexDigit n)) (pairsOf s) = g msb :: g lsb :: s.map g
    rw [ih, hbyte, show (16 * x + y) / 16 = x by omega, show (16 * x + y) % 16 = y by omega,
      hfg msb x hx, hfg lsb y hy]

/-! ## The codecs together -/

/-- Each decoder reads the pairs of an even string. -/
theorem decode_even {decode : NString → Except CodecExn Bytes}
    (hdecode : decode ∈ [Base16.fromBase16, Hex16.fromHex16, fromHexString]) {s : Utf16}
    (hne : s ≠ []) (heven : s.length % 2 = 0) (h : HexDigits s) :
    decode (some s) = .ok (pairsOf s) := by
  have hclass := decode_digits hne h
  rw [if_neg (by omega)] at hclass
  simp only [List.mem_cons, List.not_mem_nil, or_false] at hdecode
  rcases hdecode with rfl | rfl | rfl
  · exact hclass
  · exact hclass
  · exact fromHexString_digits h

/-- Each encoder writes two digits a byte, with a table of its own. -/
theorem encode_digits (U : CharClasses) {encode : Option ByteArr → Except CodecExn Utf16}
    (hencode : encode ∈ [Base16.toBase16 U, Hex16.toHex16 U, toHexString]) {b : ByteArr}
    (hb : b.val ≠ []) : ∃ f, IsDigitTable f ∧ encode (some b) = .ok (digitsOf f b.val) := by
  simp only [List.mem_cons, List.not_mem_nil, or_false] at hencode
  rcases hencode with rfl | rfl | rfl
  · exact ⟨_, isDigitTable_upper U,
      encode_eq (K := Base16.codec) (fun _ => U.toUpper_of_ascii) hb⟩
  · exact ⟨_, isDigitTable_lower U,
      encode_eq (K := Hex16.codec) (fun _ => U.toLower_of_ascii) hb⟩
  · exact ⟨_, isDigitTable_X, toHexString_eq b⟩

/-- An encoder of the two classes writes the pairs of an even string in its own case. -/
theorem encode_pairsOf {K : HexCodec} {U : CharClasses} {f : UInt16 → UInt16}
    (hcasing : ∀ s, (∀ c ∈ s, c < 128) → K.casing U s = s.map f)
    (hf : ∀ c x, hexValue c = some x → f (hexDigit x) = f c) {s : Utf16} (hne : s ≠ [])
    (heven : s.length % 2 = 0) (h : HexDigits s) (hlen : (pairsOf s).length < 2 ^ 31) :
    K.encode U (some ⟨pairsOf s, hlen⟩) = .ok (K.casing U s) := by
  have hpos := List.length_pos_iff.2 hne
  have hpairs : pairsOf s ≠ [] := by
    apply List.length_pos_iff.1
    rw [length_pairsOf]
    omega
  rw [encode_eq hcasing hpairs, digitsOf_pairsOf hf heven h, hcasing s (hexDigits_lt_128 h)]

/-- **Each decoder undoes each encoder**, and the two classes write what they read in their own
case. -/
theorem hex_roundTrip (U : CharClasses) :
    (∀ b : ByteArr, b.val ≠ [] →
      ∀ encode ∈ [Base16.toBase16 U, Hex16.toHex16 U, toHexString],
      ∀ decode ∈ [Base16.fromBase16, Hex16.fromHex16, fromHexString],
        ∃ s, encode (some b) = .ok s ∧ decode (some s) = .ok b.val) ∧
    ∀ s : Utf16, s ≠ [] → s.length % 2 = 0 → HexDigits s →
      (∃ bytes, Base16.fromBase16 (some s) = .ok bytes ∧
        ∀ hlen : bytes.length < 2 ^ 31,
          Base16.toBase16 U (some ⟨bytes, hlen⟩) = .ok (U.toUpper s)) ∧
      ∃ bytes, Hex16.fromHex16 (some s) = .ok bytes ∧
        ∀ hlen : bytes.length < 2 ^ 31,
          Hex16.toHex16 U (some ⟨bytes, hlen⟩) = .ok (U.toLower s) := by
  constructor
  · intro b hb encode hencode decode hdecode
    obtain ⟨f, hf, hs⟩ := encode_digits U hencode hb
    have hlen := length_digitsOf f b.val
    have hpos := List.length_pos_iff.2 hb
    have hne : digitsOf f b.val ≠ [] := List.length_pos_iff.1 (by omega)
    refine ⟨digitsOf f b.val, hs, ?_⟩
    rw [decode_even hdecode hne (by omega) (hexDigits_digitsOf hf b.val), pairsOf_digitsOf hf]
  · intro s hne heven h
    exact ⟨⟨pairsOf s, decode_even (by simp) hne heven h,
        encode_pairsOf (K := Base16.codec) (fun _ => U.toUpper_of_ascii)
          (fun c x hx => (case_hexDigit U hx).1) hne heven h⟩,
      ⟨pairsOf s, decode_even (by simp) hne heven h,
        encode_pairsOf (K := Hex16.codec) (fun _ => U.toLower_of_ascii)
          (fun c x hx => (case_hexDigit U hx).2) hne heven h⟩⟩

/-- Two bytes from one encoder to another decoder. -/
theorem hex_roundTrip_pair : ∃ s, Hex16.toHex16 .latin1 (some ⟨[10, 255], by decide⟩) = .ok s ∧
    fromHexString (some s) = .ok [10, 255] :=
  (hex_roundTrip .latin1).1 ⟨[10, 255], by decide⟩ (by decide) _ (by simp) _ (by simp)

/-- The three decoders return the same bytes. -/
def DecodersAgree (s : Utf16) : Prop :=
  ∃ bytes, Base16.fromBase16 (some s) = .ok bytes ∧ Hex16.fromHex16 (some s) = .ok bytes ∧
    fromHexString (some s) = .ok bytes

/-- With an odd number of digits the classes return a byte more. -/
theorem not_decodersAgree {s : Utf16} (hodd : s.length % 2 = 1) (h : HexDigits s) :
    ¬ DecodersAgree s := by
  rintro ⟨bytes, hclass, -, hstring⟩
  have hne : s ≠ [] := List.length_pos_iff.1 (by omega)
  have hdecode := decode_digits hne h
  rw [if_pos hodd] at hdecode
  have hmore := Except.ok.inj (hdecode.symm.trans hclass)
  have hless := Except.ok.inj ((fromHexString_digits h).symm.trans hstring)
  have hlen := congrArg List.length (hmore.trans hless.symm)
  rw [length_pairsOf, length_pairsOf, List.length_append, List.length_singleton] at hlen
  omega

/-- **When the three decoders agree**: on strings of an even length. -/
theorem decoders_agree_iff (s : Utf16) (hne : s ≠ []) (h : HexDigits s) :
    DecodersAgree s ↔ s.length % 2 = 0 := by
  constructor
  · intro hagree
    by_contra hodd
    exact not_decodersAgree (by omega) h hagree
  · intro heven
    exact ⟨pairsOf s, decode_even (by simp) hne heven h, decode_even (by simp) hne heven h,
      decode_even (by simp) hne heven h⟩

/-- Four digits in both cases. -/
theorem decoders_agree_four : DecodersAgree (.ofString "0aFf") :=
  (decoders_agree_iff (.ofString "0aFf") (by decide) (List.all_iff_forall_prop.1 (by decide))).2
    (by decide)

/-- A digit without a partner. -/
theorem not_decoders_agree_three : ¬ DecodersAgree (.ofString "0aF") :=
  not_decodersAgree (by decide) (List.all_iff_forall_prop.1 (by decide))

end EnDeCoding

end Server6
