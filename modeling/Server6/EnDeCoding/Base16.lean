import Server6.EnDeCoding.Text

/-!
# The hexadecimal codecs

`Base16` and `Hex16` are one codec with two tables: the first writes capital digits, the second small
ones, and both read either. `Convert.ToByte` also knows signs and a prefix, so a pair of characters
that is not two digits may still be a byte (`toByte16`).
-/

namespace Server6

namespace EnDeCoding

/-- A digit of the format `x`. -/
def hexDigit (n : ℕ) : UInt16 := if n < 10 then UInt16.ofNat (48 + n) else UInt16.ofNat (87 + n)

/-- `string.Format("{0:x2}", b)`. -/
def x2 (b : UInt8) : Utf16 := [hexDigit (b.toNat / 16), hexDigit (b.toNat % 16)]

/-- The value of a digit to base 16. -/
def hexValue (c : UInt16) : Option ℕ :=
  if 48 ≤ c ∧ c ≤ 57 then some (c.toNat - 48)
  else if 65 ≤ c ∧ c ≤ 70 then some (c.toNat - 55)
  else if 97 ≤ c ∧ c ≤ 102 then some (c.toNat - 87)
  else none

/-- The messages of `Convert.ToByte`. -/
def noParsibleDigits : Utf16 := .ofString "Could not find any recognizable digits."
def extraJunkAtEnd : Utf16 :=
  .ofString "Additional non-parsable characters are at the end of the string."

/-- `Convert.ToByte(sb, 16)` of two characters. -/
def toByte16 (msb lsb : UInt16) : Except CodecExn UInt8 :=
  -- a minus sign is for base 10 only; a plus sign leaves one digit
  if msb = 45 then .error .argument
  else if msb = 43 then
    match hexValue lsb with
    | some y => .ok (UInt8.ofNat y)
    | none => .error (.format noParsibleDigits)
  else
    match hexValue msb, hexValue lsb with
    | some x, some y => .ok (UInt8.ofNat (16 * x + y))
    | some _, none =>
      -- behind `0x` there are no digits left
      if msb = 48 ∧ (lsb = 120 ∨ lsb = 88) then .error (.format noParsibleDigits)
      else .error (.format extraJunkAtEnd)
    | none, _ => .error (.format noParsibleDigits)

/-- The loop over the pairs of characters. -/
def pairBytes : Utf16 → Except CodecExn Bytes
  | [] => .ok []
  | [_] => .error .indexOutOfRange
  | msb :: lsb :: s => do
    let b ← toByte16 msb lsb
    let bytes ← pairBytes s
    return b :: bytes

/-- What tells one codec from the other: the table `_digits`, and the case of what is encoded. -/
structure HexCodec where
  digits : Utf16
  casing : CharClasses → Utf16 → Utf16

namespace HexCodec

variable (K : HexCodec) (U : CharClasses)

/-- `ToHex`. -/
def encode (inBytes : Option ByteArr) : Except CodecExn Utf16 :=
  match inBytes with
  | none => .error (.argumentNull "inBytes"
      (some "public static string ToHex(byte[] inBytes == NULL)"))
  | some inBytes =>
    if inBytes.length < 1 then
      .error (.argumentNull "inBytes"
        (some "public static string ToHex(byte[] inBytes == NULL)"))
    else .ok (K.casing U (inBytes.val.flatMap x2))

/-- `FromHex`. The bytes it also takes of `hexStr` itself are not used. -/
def decode (hexStr : NString) : Except CodecExn Bytes :=
  if isNullOrEmpty hexStr then
    .error (.argumentNull "hexStr"
      (some "public static byte[] FromHex(string hexStr), hexStr == NULL || hexStr == \"\""))
  else
    let hexStr := orEmpty hexStr
    pairBytes (if hexStr.length % 2 = 1 then hexStr ++ [48] else hexStr)

end HexCodec

/-! ## The two classes -/

namespace Base16

/-- `_digits`. -/
def digits : Utf16 := .ofString "0123456789ABCDEF"

def codec : HexCodec where
  digits := digits
  casing U := U.toUpper

def toBase16 (U : CharClasses) := codec.encode U
def fromBase16 := HexCodec.decode
def isValidBase16 := validIn digits

end Base16

namespace Hex16

/-- `_digits`. -/
def digits : Utf16 := .ofString "0123456789abcdef"

def codec : HexCodec where
  digits := digits
  casing U := U.toLower

def toHex16 (U : CharClasses) := codec.encode U
def fromHex16 := HexCodec.decode
def isValidHex16 := validIn digits

end Hex16

/-! ## Digits -/

theorem hexDigit_lt_128 {n : ℕ} (h : n < 16) : hexDigit n < 128 := by
  decide +revert

theorem hexDigit_ascii {bytes : Bytes} : ∀ c ∈ bytes.flatMap x2, c < 128 := by
  intro c hc
  obtain ⟨b, -, hb⟩ := List.mem_flatMap.1 hc
  have hlt := b.toNat_lt
  rcases List.mem_pair.1 hb with rfl | rfl
  · exact hexDigit_lt_128 (by omega)
  · exact hexDigit_lt_128 (by omega)

/-- What holds of the images of the sixteen digits holds of every string of them. -/
theorem forall_map_flatMap_x2 {f : UInt16 → UInt16} {P : UInt16 → Prop}
    (h : ∀ n < 16, P (f (hexDigit n))) (bytes : Bytes) : ∀ c ∈ (bytes.flatMap x2).map f, P c := by
  intro c hc
  obtain ⟨d, hd, rfl⟩ := List.mem_map.1 hc
  obtain ⟨b, -, hb⟩ := List.mem_flatMap.1 hd
  have hlt := b.toNat_lt
  rcases List.mem_pair.1 hb with rfl | rfl
  · exact h _ (by omega)
  · exact h _ (by omega)

/-- Two digits are a byte. -/
theorem toByte16_of_hexValue {msb lsb : UInt16} {x y : ℕ} (hx : hexValue msb = some x)
    (hy : hexValue lsb = some y) : toByte16 msb lsb = .ok (UInt8.ofNat (16 * x + y)) := by
  unfold toByte16
  rw [if_neg, if_neg]
  · simp only [hx, hy]
  · rintro rfl
    exact Option.some_ne_none x (hx.symm.trans (by decide))
  · rintro rfl
    exact Option.some_ne_none x (hx.symm.trans (by decide))

/-- The loop returns on an even number of digits. -/
theorem pairBytes_returns (s : Utf16) (heven : s.length % 2 = 0)
    (h : ∀ c ∈ s, (hexValue c).isSome = true) : ∃ bytes, pairBytes s = .ok bytes := by
  induction s using pairBytes.induct with
  | case1 => exact ⟨[], rfl⟩
  | case2 c => exact absurd heven (by simp)
  | case3 msb lsb s ih =>
    obtain ⟨x, hx⟩ := Option.isSome_iff_exists.1 (h msb (by simp))
    obtain ⟨y, hy⟩ := Option.isSome_iff_exists.1 (h lsb (by simp))
    rw [List.length_cons, List.length_cons] at heven
    obtain ⟨bytes, hbytes⟩ := ih (by omega) fun c hc => h c (by simp [hc])
    refine ⟨UInt8.ofNat (16 * x + y) :: bytes, ?_⟩
    rw [pairBytes, toByte16_of_hexValue hx hy, ok_bind, hbytes]
    rfl

/-- **Digits of either case are decoded**; an odd one is taken for the upper half of a byte. -/
theorem HexCodec.decode_returns {s : Utf16} (hne : s ≠ [])
    (h : ∀ c ∈ s, (hexValue c).isSome = true) : ∃ bytes, decode (some s) = .ok bytes := by
  unfold decode
  rw [isNullOrEmpty_some, decide_eq_false hne, if_neg Bool.false_ne_true]
  show ∃ bytes, pairBytes (if s.length % 2 = 1 then s ++ [48] else s) = .ok bytes
  by_cases hodd : s.length % 2 = 1
  · rw [if_pos hodd]
    apply pairBytes_returns
    · rw [List.length_append, List.length_singleton]
      omega
    · intro c hc
      rcases List.mem_append.1 hc with hc | hc
      · exact h c hc
      · rw [List.mem_singleton.1 hc]
        decide
  · rw [if_neg hodd]
    exact pairBytes_returns s (by omega) h

end EnDeCoding

end Server6
