import Mathlib.Data.Bool.AllAny
import Server6.EnDeCoding.Base32Encode

/-!
# What the base-32 decoders make of a string

`CharToInt` takes every letter with case, of every script, for a digit: only the low five bits of its
distance from `A` count (`charToInt_neg_iff`). The result array is allocated first, with a size that
overflows for strings from 2^31 / 5 characters on, so a long string fails with another exception
before an illegal character is seen.

* `Decoded` is the invariant of the loop, and `foldlM_decodeChar_ok`, `foldlM_format_iff` and
  `foldlM_ok_iff` are its three ends.
* `decode_format_iff`, `decode_ok_iff` and `decode_spec` are those of the whole call.
* `fromBase32_format_iff` is when a `FormatException` is thrown exactly for the strings with a
  character outside the alphabet.
-/

namespace Server6

namespace EnDeCoding

/-- A computation throws a `FormatException`. -/
def ThrowsFormat {α : Type} (x : Except CodecExn α) : Prop :=
  ∃ message, x = .error (.format message)

/-- What follows the loop throws nothing. -/
theorem throwsFormat_bind_pure {α β : Type} (x : Except CodecExn α) (f : α → β) :
    ThrowsFormat (do let a ← x; return f a) ↔ ThrowsFormat x := by
  cases x with
  | error x =>
    constructor
    · rintro ⟨message, hmessage⟩
      exact ⟨message, congrArg Except.error (Except.error.inj hmessage)⟩
    · rintro ⟨message, hmessage⟩
      exact ⟨message, congrArg Except.error (Except.error.inj hmessage)⟩
  | ok a =>
    refine iff_of_false ?_ ?_
    · rintro ⟨message, hmessage⟩
      cases hmessage
    · rintro ⟨message, hmessage⟩
      cases hmessage

namespace Codec

variable {K : Codec} {U : CharClasses}

/-! ## The loop -/

/-- The five bits the loop takes of a character. -/
def value (K : Codec) (U : CharClasses) (c : UInt16) : ℕ := (K.charToInt U c).toBitVec.toNat % 2 ^ 5

/-- The loop has taken the groups `vs`: whole bytes of them are in the array, and fewer than eight
bits are left in the buffer. -/
def Decoded (size : ℕ) (d : Decoding) (vs : List ℕ) : Prop :=
  ∃ w b, d.result.length = size ∧ d.next = Int32.ofNat w ∧ d.bitsLeft = Int32.ofNat b ∧ w ≤ size ∧
    b < 8 ∧ bits 5 vs =
      bits 8 ((d.result.take w).map UInt8.toNat) ++ bitsOf b d.buffer.toBitVec.toNat

theorem decoded_start (size : ℕ) : Decoded size ⟨List.replicate size 0, 0, 0, 0⟩ [] :=
  ⟨0, 0, List.length_replicate, rfl, rfl, Nat.zero_le _, by omega, rfl⟩

/-- The bytes written are those the groups fill. -/
theorem eq_of_bits {vs : List ℕ} {bytes : List ℕ} {rest : List Bool} (hrest : rest.length < 8)
    (h : bits 5 vs = bits 8 bytes ++ rest) :
    bytes.length = 5 * vs.length / 8 ∧ rest.length = 5 * vs.length % 8 := by
  have hlen := congrArg List.length h
  rw [List.length_append, length_bits, length_bits] at hlen
  omega

theorem count_of_bits {vs : List ℕ} {result : List UInt8} {w b n : ℕ} (hw : w ≤ result.length)
    (hb : b < 8) (h : bits 5 vs = bits 8 ((result.take w).map UInt8.toNat) ++ bitsOf b n) :
    w = 5 * vs.length / 8 ∧ b = 5 * vs.length % 8 := by
  have hcount := eq_of_bits (by rwa [length_bitsOf]) h
  rwa [List.length_map, List.length_take_of_le hw, length_bitsOf] at hcount

section

variable {size : ℕ} {d : Decoding} {vs : List ℕ} {c : UInt16}

theorem Decoded.le (h : Decoded size d vs) : 5 * vs.length / 8 ≤ size := by
  obtain ⟨w, b, hlen, -, -, hw, hb, hbits⟩ := h
  rw [← (count_of_bits (hw.trans_eq hlen.symm) hb hbits).1]
  exact hw

theorem decodeChar_illegal (hc : K.charToInt U c < 0) :
    K.decodeChar U d c =
      .error (.format (.ofString "Illegal character: `" ++ [c] ++ .ofString "`")) := by
  unfold decodeChar
  simp only
  rw [if_pos hc]

theorem bitsLeft_add_shift {b : ℕ} (hleft : d.bitsLeft = Int32.ofNat b) :
    d.bitsLeft + shift = Int32.ofNat (b + 5) := by
  rw [hleft, Int32.ofNat_add b 5]
  rfl

/-- What is left of the bits behind a whole byte. -/
theorem bitsLeft_sub {b : ℕ} (hleft : d.bitsLeft = Int32.ofNat b) (hfull : 8 ≤ b + 5) :
    d.bitsLeft + shift - 8 = Int32.ofNat (b + 5 - 8) := by
  rw [bitsLeft_add_shift hleft, Int32.ofNat_sub _ 8 hfull]
  rfl

/-- The byte goes to the next cell. -/
theorem writeAt_next {w : ℕ} (hnext : d.next = Int32.ofNat w) (hlt : w < 2 ^ 31)
    (hw : w < d.result.length) (x : UInt8) :
    writeAt CodecExn.indexOutOfRange d.result d.next.toInt x = .ok (d.result.set w x) := by
  rw [hnext, Int32.toInt_ofNat_of_lt hlt]
  exact writeAt_natCast _ hw x

/-- The test for a whole byte. -/
theorem le_bitsLeft_iff {b : ℕ} (hleft : d.bitsLeft = Int32.ofNat b) (hb : b < 8) :
    8 ≤ d.bitsLeft + shift ↔ 8 ≤ b + 5 := by
  rw [bitsLeft_add_shift hleft]
  exact Int32.ofNat_le_iff_le (a := 8) (by decide) (by omega)

/-- The buffer with a group shifted in. -/
theorem bitsOf_buffer {b : ℕ} (hb : b < 8) (x : Int32) :
    bitsOf (b + 5) (x <<< shift ||| K.charToInt U c &&& mask).toBitVec.toNat =
      bitsOf b x.toBitVec.toNat ++ bitsOf 5 (K.value U c) := by
  have hmask : K.charToInt U c &&& mask = Int32.ofNat (K.value U c) :=
    and_ofNat_mask (K.charToInt U c) (k := 5) (by decide)
  have hlt : K.value U c < 2 ^ 5 := Nat.mod_lt _ (Nat.two_pow_pos 5)
  have hbuffer : (x <<< shift ||| Int32.ofNat (K.value U c)).toBitVec =
      x.toBitVec <<< 5 ||| (Int32.ofNat (K.value U c)).toBitVec := by
    rw [Int32.toBitVec_or]
    exact congrArg (· ||| _) (toBitVec_shiftLeft_ofNat x (k := 5) (by decide))
  have hshift := bitsOf_shift_or (n := b) (k := 5) x.toBitVec
    (Int32.ofNat (K.value U c)).toBitVec (by omega)
    (by rw [toNat_toBitVec_ofNat (by omega)]; exact hlt)
  rw [toNat_toBitVec_ofNat (by omega)] at hshift
  rw [hmask, hbuffer, hshift]

/-- A character that is accepted, where the array has room for the bits. -/
theorem decodeChar_ok (h : Decoded size d vs) (hsize : size < 2 ^ 31)
    (hc : ¬ K.charToInt U c < 0) (hroom : 5 * (vs.length + 1) / 8 ≤ size) :
    ∃ d', K.decodeChar U d c = .ok d' ∧ Decoded size d' (vs ++ [K.value U c]) := by
  obtain ⟨w, b, hlen, hnext, hleft, hw, hb, hbits⟩ := h
  obtain ⟨hbytes, hrest⟩ := count_of_bits (hw.trans_eq hlen.symm) hb hbits
  have hbuffer := bitsOf_buffer (K := K) (U := U) (c := c) hb d.buffer
  have hsum := bitsLeft_add_shift hleft
  have htest := le_bitsLeft_iff hleft hb
  have hbits' : bits 5 (vs ++ [K.value U c]) =
      bits 8 ((d.result.take w).map UInt8.toNat) ++ bitsOf (b + 5)
        (d.buffer <<< shift ||| K.charToInt U c &&& mask).toBitVec.toNat := by
    rw [bits_append, bits_singleton, hbits, List.append_assoc, hbuffer]
  unfold decodeChar
  simp only
  rw [if_neg hc]
  by_cases hfull : 8 ≤ b + 5
  · have hcount := bitsLeft_sub hleft hfull
    rw [if_pos (htest.2 hfull), writeAt_next hnext (by omega) (by omega)]
    refine ⟨_, rfl, w + 1, b + 5 - 8, by rw [List.length_set, hlen], ?_, hcount, by omega,
      by omega, ?_⟩
    · show d.next + 1 = _
      rw [hnext, Int32.ofNat_add w 1]
      rfl
    · -- the upper eight bits of the buffer are the byte written
      have hsplit := bitsOf_add 8 (b + 5 - 8)
        (d.buffer <<< shift ||| K.charToInt U c &&& mask).toBitVec.toNat
      rw [Nat.add_sub_cancel' hfull] at hsplit
      rw [hbits', hsplit, take_set_succ (by omega), List.map_append, bits_append,
        List.append_assoc, List.map_cons, List.map_nil, bits_singleton, ← List.append_assoc,
        ← List.append_assoc, hcount]
      congr 2
      rw [← bitsOf_sshiftRight _ (by omega), ← toBitVec_shiftRight_ofNat _ (by omega), ← bitsOf_mod]
      rfl
  · rw [if_neg (mt htest.1 hfull)]
    exact ⟨_, rfl, w, b + 5, hlen, hnext, hsum, hw, by omega, hbits'⟩

/-- A character that is accepted, where the array is full. -/
theorem decodeChar_full (h : Decoded size d vs) (hsize : size < 2 ^ 31)
    (hc : ¬ K.charToInt U c < 0) (hroom : size < 5 * (vs.length + 1) / 8) :
    K.decodeChar U d c = .error .indexOutOfRange := by
  obtain ⟨w, b, hlen, hnext, hleft, hw, hb, hbits⟩ := h
  obtain ⟨hbytes, hrest⟩ := count_of_bits (hw.trans_eq hlen.symm) hb hbits
  have hcond := (le_bitsLeft_iff hleft hb).2 (by omega)
  have hwrite : ∀ x, writeAt CodecExn.indexOutOfRange d.result d.next.toInt x =
      .error .indexOutOfRange := by
    intro x
    rw [hnext, Int32.toInt_ofNat_of_lt (by omega)]
    unfold writeAt
    rw [if_neg]
    rintro ⟨-, hlt⟩
    rw [Int.toNat_natCast, hlen] at hlt
    omega
  unfold decodeChar
  simp only
  rw [if_neg hc, if_pos hcond, hwrite]
  rfl

/-- **The end without an exception**: all characters are accepted, and there is room. -/
theorem foldlM_decodeChar_ok (hsize : size < 2 ^ 31) {cs : Utf16}
    (hcs : ∀ c ∈ cs, ¬ K.charToInt U c < 0) (h : Decoded size d vs)
    (hroom : 5 * (vs.length + cs.length) / 8 ≤ size) :
    ∃ d', cs.foldlM (K.decodeChar U) d = .ok d' ∧ Decoded size d' (vs ++ cs.map (K.value U)) := by
  induction cs generalizing d vs with
  | nil => exact ⟨d, rfl, by rwa [List.map_nil, List.append_nil]⟩
  | cons c cs ih =>
    rw [List.length_cons] at hroom
    obtain ⟨d', hd', h'⟩ := decodeChar_ok h hsize (hcs c (by simp)) (by omega)
    have hlen : (vs ++ [K.value U c]).length = vs.length + 1 := by simp
    obtain ⟨d'', hd'', h''⟩ := ih (fun c' hc' => hcs c' (by simp [hc'])) h' (by omega)
    refine ⟨d'', ?_, by rwa [List.append_assoc] at h''⟩
    rw [List.foldlM_cons, hd']
    exact hd''

/-- **The end with a `FormatException`**: a character is refused before the array is full. -/
theorem foldlM_format_iff (hsize : size < 2 ^ 31) (h : Decoded size d vs) (cs : Utf16) :
    ThrowsFormat (cs.foldlM (K.decodeChar U) d) ↔
      ∃ i c, cs[i]? = some c ∧ K.charToInt U c < 0 ∧ 5 * (vs.length + i) / 8 ≤ size := by
  induction cs generalizing d vs with
  | nil =>
    refine iff_of_false ?_ ?_
    · rintro ⟨message, hmessage⟩
      cases hmessage
    · rintro ⟨i, c, hi, -⟩
      cases hi
  | cons c cs ih =>
    rw [List.foldlM_cons]
    by_cases hc : K.charToInt U c < 0
    · rw [decodeChar_illegal hc]
      exact iff_of_true ⟨_, rfl⟩ ⟨0, c, rfl, hc, h.le⟩
    by_cases hroom : 5 * (vs.length + 1) / 8 ≤ size
    · obtain ⟨d', hd', h'⟩ := decodeChar_ok h hsize hc hroom
      have hlen : (vs ++ [K.value U c]).length = vs.length + 1 := by simp
      rw [hd', ok_bind, ih h', hlen]
      constructor
      · rintro ⟨i, c', hi, hc', hle⟩
        exact ⟨i + 1, c', hi, hc', by omega⟩
      · rintro ⟨i, c', hi, hc', hle⟩
        rcases i with _ | i
        · obtain rfl : c = c' := Option.some.inj hi
          exact absurd hc' hc
        · exact ⟨i, c', hi, hc', by omega⟩
    · rw [decodeChar_full h hsize hc (by omega), error_bind]
      refine iff_of_false ?_ ?_
      · rintro ⟨message, hmessage⟩
        cases hmessage
      · rintro ⟨i, c', hi, hc', hle⟩
        rcases i with _ | i
        · obtain rfl : c = c' := Option.some.inj hi
          exact hc hc'
        · omega

/-- The loop ends without an exception in no other case. -/
theorem foldlM_ok_iff (hsize : size < 2 ^ 31) (h : Decoded size d vs) (cs : Utf16) :
    (∃ d', cs.foldlM (K.decodeChar U) d = .ok d') ↔
      (∀ c ∈ cs, ¬ K.charToInt U c < 0) ∧ 5 * (vs.length + cs.length) / 8 ≤ size := by
  constructor
  · rintro ⟨d', hd'⟩
    induction cs generalizing d vs with
    | nil => exact ⟨by simp, h.le⟩
    | cons c cs ih =>
      rw [List.foldlM_cons] at hd'
      by_cases hc : K.charToInt U c < 0
      · rw [decodeChar_illegal hc] at hd'
        cases hd'
      by_cases hroom : 5 * (vs.length + 1) / 8 ≤ size
      · obtain ⟨d₁, hd₁, h₁⟩ := decodeChar_ok h hsize hc hroom
        rw [hd₁] at hd'
        obtain ⟨hcs, hle⟩ := ih h₁ hd'
        rw [List.length_append, List.length_singleton] at hle
        refine ⟨?_, by rw [List.length_cons]; omega⟩
        intro c' hc'
        rcases List.mem_cons.1 hc' with rfl | hc'
        · exact hc
        · exact hcs c' hc'
      · rw [decodeChar_full h hsize hc (by omega)] at hd'
        cases hd'
  · rintro ⟨hcs, hroom⟩
    obtain ⟨d', hd', -⟩ := foldlM_decodeChar_ok hsize hcs h hroom
    exact ⟨d', hd'⟩

end

/-! ## The characters -/

/-- The 32 characters of the table. -/
def alphabet (K : Codec) : Utf16 := K.digits.take 32

/-- A numeral of the table. -/
def IsNumeral (K : Codec) (c : UInt16) : Prop := c ∈ K.alphabet ∧ 48 ≤ c ∧ c ≤ 57

instance (K : Codec) : DecidablePred K.IsNumeral := fun _ => inferInstanceAs (Decidable (_ ∧ _))

/-- The value `CharToInt` is written to give a digit. -/
def tableValue (K : Codec) (c : UInt16) : Int32 :=
  if 65 ≤ c ∧ c ≤ 90 then Int32.ofNat c.toNat - 65 + K.letters else K.numeral c

/-- The table consists of capital letters and numerals, whose values are their positions. -/
structure Lawful (K : Codec) : Prop where
  length_alphabet : K.alphabet.length = 32
  letters : K.letters = 0 ∨ K.letters = 10
  ascii : ∀ d ∈ K.alphabet, (65 ≤ d ∧ d ≤ 90) ∨ (48 ≤ d ∧ d ≤ 57)
  numeral_nonneg : ∀ d ∈ K.alphabet, 48 ≤ d ∧ d ≤ 57 → 0 ≤ K.numeral d
  isNumeral_of_nonneg : ∀ c, 0 ≤ K.numeral c → K.IsNumeral c
  tableValue_digit : ∀ v < 32, K.tableValue (K.digit v) = Int32.ofNat v

theorem Lawful.digit_mem (hK : K.Lawful) {v : ℕ} (hv : v < 32) : K.digit v ∈ K.alphabet := by
  have hlen := hK.length_alphabet
  unfold alphabet at hlen
  rw [List.length_take] at hlen
  unfold digit alphabet
  rw [List.getD_eq_getElem _ _ (by omega)]
  exact List.mem_take_iff_getElem.2 ⟨v, by omega, rfl⟩

theorem lt_128_of_le {c d : UInt16} (h : c ≤ d) (hd : d < 128) : c < 128 := by
  rw [UInt16.le_iff_toNat_le] at h
  rw [UInt16.lt_iff_toNat_lt] at hd ⊢
  exact Nat.lt_of_le_of_lt h hd

theorem Lawful.lt_128 (hK : K.Lawful) {d : UInt16} (hd : d ∈ K.alphabet) : d < 128 := by
  rcases hK.ascii d hd with h | h
  · exact lt_128_of_le h.2 (by decide)
  · exact lt_128_of_le h.2 (by decide)

/-- A class that is an interval of ASCII has nothing below it: what comes after ASCII is greater. -/
theorem le_of_class {f : UInt16 → Bool} {a b c : UInt16}
    (hf : ∀ c < 128, f c = decide (a ≤ c ∧ c ≤ b)) (ha : a ≤ 128) (h : f c = true) :
    a.toNat ≤ c.toNat := by
  by_cases hc : c < 128
  · rw [hf c hc, decide_eq_true_eq, UInt16.le_iff_toNat_le] at h
    exact h.1
  · exact UInt16.le_iff_toNat_le.1 (UInt16.le_trans ha (UInt16.not_lt.1 hc))

theorem letter_nonneg (hK : K.Lawful) {c : UInt16} {a : ℕ} (ha : a ≤ c.toNat) :
    ¬ Int32.ofNat c.toNat - Int32.ofNat a + K.letters < 0 := by
  have hc := c.toNat_lt
  have hsum : ∃ n < 2 ^ 31, Int32.ofNat c.toNat - Int32.ofNat a + K.letters = Int32.ofNat n := by
    rw [← Int32.ofNat_sub _ _ ha]
    rcases hK.letters with hletters | hletters
    · exact ⟨c.toNat - a, by omega, by rw [hletters, Int32.add_zero]⟩
    · refine ⟨c.toNat - a + 10, by omega, ?_⟩
      rw [hletters, Int32.ofNat_add _ 10]
      rfl
  obtain ⟨n, hn, hsum⟩ := hsum
  rw [hsum]
  exact Int32.not_lt.2 (Int32.zero_le_ofNat_of_lt hn)

/-- **What `CharToInt` refuses**: everything but letters with case and the numerals of the table. -/
theorem charToInt_neg_iff (hK : K.Lawful) (c : UInt16) :
    K.charToInt U c < 0 ↔ ¬ (U.isUpper c = true ∨ U.isLower c = true ∨ K.IsNumeral c) := by
  unfold charToInt
  simp only
  by_cases hupper : U.isUpper c = true
  · rw [if_pos hupper]
    exact iff_of_false (letter_nonneg hK (le_of_class U.isUpper_ascii (by decide) hupper))
      fun h => h (.inl hupper)
  by_cases hlower : U.isLower c = true
  · rw [if_neg hupper, if_pos hlower]
    exact iff_of_false (letter_nonneg hK (le_of_class U.isLower_ascii (by decide) hlower))
      fun h => h (.inr (.inl hlower))
  have hclasses : (U.isUpper c = true ∨ U.isLower c = true ∨ K.IsNumeral c) ↔ K.IsNumeral c := by
    rw [or_iff_right hupper, or_iff_right hlower]
  rw [if_neg hupper, if_neg hlower, hclasses]
  by_cases hnumeral : K.IsNumeral c
  · have hdigit : (U.isDigit c || U.isNumber c) = true := by
      rw [U.isDigit_ascii c (hK.lt_128 hnumeral.1), decide_eq_true hnumeral.2, Bool.true_or]
    rw [if_pos hdigit]
    exact iff_of_false (Int32.not_lt.2 (hK.numeral_nonneg c hnumeral.1 hnumeral.2))
      fun h => h hnumeral
  · refine iff_of_true ?_ hnumeral
    split_ifs
    · exact Int32.not_le.1 fun h => hnumeral (hK.isNumeral_of_nonneg c h)
    · decide

theorem upper_digit (hK : K.Lawful) {d : UInt16} (hd : d ∈ K.alphabet) : U.upper d = d := by
  rw [U.upper_ascii d (hK.lt_128 hd), if_neg]
  intro hlower
  rw [UInt16.le_iff_toNat_le, UInt16.le_iff_toNat_le] at hlower
  rcases hK.ascii d hd with h | h
  · rw [UInt16.le_iff_toNat_le, UInt16.le_iff_toNat_le] at h
    exact absurd (hlower.1.trans h.2) (by decide)
  · rw [UInt16.le_iff_toNat_le, UInt16.le_iff_toNat_le] at h
    exact absurd (hlower.1.trans h.2) (by decide)

/-- A digit of the table has its position as its value. -/
theorem charToInt_digit (hK : K.Lawful) {v : ℕ} (hv : v < 32) :
    K.charToInt U (K.digit v) = Int32.ofNat v := by
  have hmem := hK.digit_mem hv
  have hlt := hK.lt_128 hmem
  rw [← hK.tableValue_digit v hv]
  unfold charToInt tableValue
  simp only
  by_cases hletter : 65 ≤ K.digit v ∧ K.digit v ≤ 90
  · rw [U.isUpper_ascii _ hlt, decide_eq_true hletter, if_pos rfl, if_pos hletter]
  · have hnumeral := (hK.ascii _ hmem).resolve_left hletter
    have hlower : U.isLower (K.digit v) = false := by
      rw [U.isLower_ascii _ hlt, decide_eq_false]
      intro h
      rw [UInt16.le_iff_toNat_le, UInt16.le_iff_toNat_le] at h
      have hle := hnumeral.2
      rw [UInt16.le_iff_toNat_le] at hle
      exact absurd (h.1.trans hle) (by decide)
    rw [U.isUpper_ascii _ hlt, decide_eq_false hletter, hlower, if_neg (by decide),
      if_neg (by decide), if_neg hletter, U.isDigit_ascii _ hlt, decide_eq_true hnumeral,
      Bool.true_or, if_pos rfl]

theorem value_digit (hK : K.Lawful) {v : ℕ} (hv : v < 32) : K.value U (K.digit v) = v := by
  unfold value
  rw [charToInt_digit hK hv, toNat_toBitVec_ofNat (by omega),
    Nat.mod_eq_of_lt (show v < 2 ^ 5 from hv)]

/-! ## Upper-casing -/

/-- A character whose upper-case form is a letter with case or a numeral of the table. -/
def Accepted (K : Codec) (U : CharClasses) (c : UInt16) : Prop :=
  U.isUpper (U.upper c) = true ∨ U.isLower (U.upper c) = true ∨ K.IsNumeral (U.upper c)

theorem le_of_isSurrogate {c : UInt16} (h : isSurrogate c = true) : 128 ≤ c := by
  unfold isSurrogate Utf16.isHighSurrogate Utf16.isLowSurrogate at h
  rw [UInt16.le_iff_toNat_le, show (128 : UInt16).toNat = 128 from rfl]
  simp only [Bool.or_eq_true, Bool.and_eq_true, decide_eq_true_eq, UInt16.le_iff_toNat_le] at h
  rcases h with h | h
  · exact Nat.le_trans (by decide) h.1
  · exact Nat.le_trans (by decide) h.1

theorem charToInt_surrogate (hK : K.Lawful) {c : UInt16} (h : isSurrogate c = true) :
    K.charToInt U c < 0 := by
  rw [charToInt_neg_iff hK, U.isUpper_surrogate c h, U.isLower_surrogate c h]
  rintro (hc | hc | hc)
  · exact absurd hc (by decide)
  · exact absurd hc (by decide)
  · exact absurd (hK.lt_128 hc.1) (UInt16.not_lt.2 (le_of_isSurrogate h))

/-- What is refused of an upper-cased string is what is not accepted of the string. -/
theorem charToInt_toUpper (hK : K.Lawful) {c d : UInt16}
    (h : d = U.upper c ∨ isSurrogate c = true ∧ isSurrogate d = true) :
    K.charToInt U d < 0 ↔ ¬ K.Accepted U c := by
  rcases h with rfl | ⟨hc, hd⟩
  · exact charToInt_neg_iff hK _
  · have hneg := charToInt_surrogate (U := U) hK hc
    rw [charToInt_neg_iff hK, ← U.upper_surrogate c hc] at hneg
    exact iff_of_true (charToInt_surrogate hK hd) hneg

theorem length_toUpper (U : CharClasses) (s : Utf16) : (U.toUpper s).length = s.length :=
  (U.toUpper_units s).length_eq.symm

theorem getElem?_toUpper (hK : K.Lawful) (s : Utf16) (i : ℕ) :
    (∃ d, (U.toUpper s)[i]? = some d ∧ K.charToInt U d < 0) ↔
      ∃ c, s[i]? = some c ∧ ¬ K.Accepted U c := by
  by_cases hi : i < s.length
  · have hi' : i < (U.toUpper s).length := by rwa [length_toUpper]
    have hget := (List.forall₂_iff_get.1 (U.toUpper_units s)).2 i hi hi'
    rw [List.getElem?_eq_getElem hi, List.getElem?_eq_getElem hi']
    simp only [Option.some.injEq, exists_eq_left']
    exact charToInt_toUpper hK hget
  · have hi' : ¬ i < (U.toUpper s).length := by rwa [length_toUpper]
    rw [List.getElem?_eq_none (Nat.le_of_not_lt hi), List.getElem?_eq_none (Nat.le_of_not_lt hi')]
    simp only [reduceCtorEq, false_and, exists_false]

theorem forall_toUpper (hK : K.Lawful) (s : Utf16) :
    (∀ d ∈ U.toUpper s, ¬ K.charToInt U d < 0) ↔ ∀ c ∈ s, K.Accepted U c := by
  have h := fun i => not_congr (getElem?_toUpper (U := U) hK s i)
  constructor
  · intro hd c hc
    obtain ⟨i, hi⟩ := List.mem_iff_getElem?.1 hc
    by_contra hno
    refine (h i).1 ?_ ⟨c, hi, hno⟩
    rintro ⟨d, hget, hneg⟩
    exact hd d (List.mem_of_getElem? hget) hneg
  · intro hc d hd hneg
    obtain ⟨i, hi⟩ := List.mem_iff_getElem?.1 hd
    refine (h i).2 ?_ ⟨d, hi, hneg⟩
    rintro ⟨c, hget, hno⟩
    exact hno (hc c (List.mem_of_getElem? hget))

/-! ## The whole call -/

/-- The bytes allocated for `n` characters: `n * 5` overflows. -/
def room (n : ℕ) : ℤ := ((5 * n : ℕ) : ℤ).bmod (2 ^ 32) |>.tdiv 8

/-- Division by eight, towards zero. -/
theorem tdiv_eight (a : ℤ) :
    (0 ≤ a ∧ a.tdiv 8 = a / 8) ∨ (a < 0 ∧ a.tdiv 8 = -(-a / 8)) := by
  by_cases ha : 0 ≤ a
  · exact .inl ⟨ha, Int.tdiv_eq_ediv_of_nonneg ha⟩
  · refine .inr ⟨Int.not_le.1 ha, ?_⟩
    rw [← Int.tdiv_eq_ediv_of_nonneg (by omega), Int.neg_tdiv, Int.neg_neg]

theorem toInt_outLength (s : Utf16) : (outLength s).toInt = room s.length := by
  have hmul : (Int32.ofNat s.length * shift).toInt = ((5 * s.length : ℕ) : ℤ).bmod (2 ^ 32) := by
    have hfive : shift = Int32.ofNat 5 := rfl
    rw [hfive, ← Int32.ofNat_mul, Nat.mul_comm, Int32.toInt_ofNat']
    rfl
  have height : (8 : Int32).toInt = 8 := rfl
  have hle := (Int32.ofNat s.length * shift).le_toInt
  have hlt := (Int32.ofNat s.length * shift).toInt_lt
  have hdiv := tdiv_eight (Int32.ofNat s.length * shift).toInt
  unfold outLength room
  rw [Int32.toInt_div, height, ← hmul]
  apply Int.bmod_eq_of_le <;> omega

theorem room_lt (n : ℕ) : room n < 2 ^ 31 := by
  unfold room
  have hlt := Int.bmod_lt (x := ((5 * n : ℕ) : ℤ)) (m := 2 ^ 32) (by decide)
  have hdiv := tdiv_eight (((5 * n : ℕ) : ℤ).bmod (2 ^ 32))
  omega

/-- Without overflow it is what it is written to be. -/
theorem room_of_fit {n : ℕ} (h : 5 * n < 2 ^ 31) : room n = (5 * n / 8 : ℕ) := by
  have hmod : ((5 * n : ℕ) : ℤ).bmod (2 ^ 32) = (5 * n : ℕ) := by
    apply Int.bmod_eq_of_le <;> omega
  have hdiv := tdiv_eight ((5 * n : ℕ) : ℤ)
  unfold room
  rw [hmod]
  omega

/-- There is room for all characters exactly as long as nothing overflows. -/
theorem room_iff (n : ℕ) : 0 ≤ room n ∧ ((5 * n / 8 : ℕ) : ℤ) ≤ room n ↔ 5 * n < 2 ^ 31 := by
  constructor
  · rintro ⟨hpos, hle⟩
    have hlt := Int.bmod_lt (x := ((5 * n : ℕ) : ℤ)) (m := 2 ^ 32) (by decide)
    have hdiv := tdiv_eight (((5 * n : ℕ) : ℤ).bmod (2 ^ 32))
    unfold room at hpos hle
    omega
  · intro h
    rw [room_of_fit h]
    omega

/-- The empty string may go through the loop as well. -/
theorem decode_some (s : Utf16) :
    K.decode U (some s) = (do
      let result ← newByteArray (outLength (U.toUpper (stripped U s)))
      let d ← (U.toUpper (stripped U s)).foldlM (K.decodeChar U) ⟨result, 0, 0, 0⟩
      return d.result) := by
  unfold decode
  simp only
  split_ifs with hnil
  · rw [List.length_eq_zero_iff.1 hnil]
    rfl
  · rfl

theorem newByteArray_of_nonneg {n : Int32} {size : ℕ} (h : n.toInt = size) :
    newByteArray n = .ok (List.replicate size 0) := by
  unfold newByteArray
  rw [if_neg, h, Int.toNat_natCast]
  rw [Int32.lt_iff_toInt_lt, h, Int32.toInt_zero]
  omega

theorem newByteArray_of_neg {n : Int32} (h : n.toInt < 0) : newByteArray n = .error .overflow := by
  unfold newByteArray
  rw [if_pos]
  rwa [Int32.lt_iff_toInt_lt, Int32.toInt_zero]

section

variable {s : Utf16}

theorem decode_of_room_neg (h : room (stripped U s).length < 0) :
    K.decode U (some s) = .error .overflow := by
  rw [decode_some, newByteArray_of_neg]
  · rfl
  · rwa [toInt_outLength, length_toUpper]

theorem decode_of_room (h : 0 ≤ room (stripped U s).length) :
    K.decode U (some s) = (do
      let d ← (U.toUpper (stripped U s)).foldlM (K.decodeChar U)
        ⟨List.replicate (room (stripped U s).length).toNat 0, 0, 0, 0⟩
      return d.result) := by
  have hsize : (outLength (U.toUpper (stripped U s))).toInt =
      (room (stripped U s).length).toNat := by
    rw [toInt_outLength, length_toUpper]
    omega
  rw [decode_some, newByteArray_of_nonneg hsize]
  rfl

/-- **When `FromBase32` throws a `FormatException`**: the array can be allocated, and a character is
refused before the array is full. -/
theorem decode_format_iff (hK : K.Lawful) :
    ThrowsFormat (K.decode U (some s)) ↔ 0 ≤ room (stripped U s).length ∧
      ∃ i c, (stripped U s)[i]? = some c ∧ ¬ K.Accepted U c ∧
        ((5 * i / 8 : ℕ) : ℤ) ≤ room (stripped U s).length := by
  by_cases hroom : 0 ≤ room (stripped U s).length
  · have hlt := room_lt (stripped U s).length
    have hloop := foldlM_format_iff (K := K) (U := U)
      (show (room (stripped U s).length).toNat < 2 ^ 31 by omega) (decoded_start _)
      (U.toUpper (stripped U s))
    have hformat : ThrowsFormat (K.decode U (some s)) ↔
        ThrowsFormat ((U.toUpper (stripped U s)).foldlM (K.decodeChar U)
          ⟨List.replicate (room (stripped U s).length).toNat 0, 0, 0, 0⟩) := by
      rw [decode_of_room hroom]
      exact throwsFormat_bind_pure _ _
    rw [hformat, hloop, and_iff_right hroom, List.length_nil]
    constructor
    · rintro ⟨i, d, hi, hd, hle⟩
      obtain ⟨c, hc, hno⟩ := (getElem?_toUpper hK _ i).1 ⟨d, hi, hd⟩
      exact ⟨i, c, hc, hno, by omega⟩
    · rintro ⟨i, c, hi, hc, hle⟩
      obtain ⟨d, hd, hneg⟩ := (getElem?_toUpper hK _ i).2 ⟨c, hi, hc⟩
      exact ⟨i, d, hd, hneg, by omega⟩
  · refine iff_of_false ?_ fun h => hroom h.1
    rw [decode_of_room_neg (Int.not_le.1 hroom)]
    rintro ⟨message, hmessage⟩
    cases hmessage

/-- **When `FromBase32` returns**: the size does not overflow, and every character is accepted. -/
theorem decode_ok_iff (hK : K.Lawful) :
    (∃ bytes, K.decode U (some s) = .ok bytes) ↔
      5 * (stripped U s).length < 2 ^ 31 ∧ ∀ c ∈ stripped U s, K.Accepted U c := by
  by_cases hroom : 0 ≤ room (stripped U s).length
  · have hlt := room_lt (stripped U s).length
    have hloop := foldlM_ok_iff (K := K) (U := U)
      (show (room (stripped U s).length).toNat < 2 ^ 31 by omega) (decoded_start _)
      (U.toUpper (stripped U s))
    have hfit : 5 * (stripped U s).length / 8 ≤ (room (stripped U s).length).toNat ↔
        5 * (stripped U s).length < 2 ^ 31 := by
      rw [← room_iff, and_iff_right hroom]
      omega
    rw [decode_of_room hroom, ← forall_toUpper hK, and_comm, ← hfit]
    rw [length_toUpper, List.length_nil, Nat.zero_add] at hloop
    rw [← hloop]
    constructor
    · rintro ⟨bytes, hbytes⟩
      cases hfold : (U.toUpper (stripped U s)).foldlM (K.decodeChar U)
          ⟨List.replicate (room (stripped U s).length).toNat 0, 0, 0, 0⟩ with
      | error x =>
        rw [hfold] at hbytes
        cases hbytes
      | ok d => exact ⟨d, rfl⟩
    · rintro ⟨d, hd⟩
      rw [hd]
      exact ⟨_, rfl⟩
  · refine iff_of_false ?_ fun h => hroom ((room_iff _).2 h.1).1
    rw [decode_of_room_neg (Int.not_le.1 hroom)]
    rintro ⟨bytes, hbytes⟩
    cases hbytes

/-- **What `FromBase32` returns**: the whole bytes of the bits of the characters. -/
theorem decode_spec (hfit : 5 * (stripped U s).length < 2 ^ 31)
    (hcs : ∀ d ∈ U.toUpper (stripped U s), ¬ K.charToInt U d < 0) :
    ∃ bytes rest, K.decode U (some s) = .ok bytes ∧ rest.length < 8 ∧
      bits 5 ((U.toUpper (stripped U s)).map (K.value U)) =
        bits 8 (bytes.map UInt8.toNat) ++ rest := by
  have hroom := (room_iff _).2 hfit
  have hlt := room_lt (stripped U s).length
  obtain ⟨d, hd, w, b, hlen, -, -, hw, hb, hbits⟩ := foldlM_decodeChar_ok
    (show (room (stripped U s).length).toNat < 2 ^ 31 by omega) hcs (decoded_start _)
    (by rw [length_toUpper, List.length_nil]; omega)
  have hsize := room_of_fit hfit
  rw [List.nil_append] at hbits
  have hbytes := (count_of_bits (hw.trans_eq hlen.symm) hb hbits).1
  rw [List.length_map, length_toUpper] at hbytes
  rw [List.take_of_length_le (by omega)] at hbits
  rw [decode_of_room hroom.1, hd]
  exact ⟨d.result, _, rfl, by rwa [length_bitsOf], hbits⟩

end

/-! ## Legal characters -/

/-- The lower-case form of a digit. -/
def lowerForm (d : UInt16) : UInt16 := if 65 ≤ d ∧ d ≤ 90 then d + 32 else d

/-- A digit of the table, or the lower-case form of one. -/
def Legal (K : Codec) (c : UInt16) : Prop := ∃ d ∈ K.alphabet, c = d ∨ c = lowerForm d

theorem upper_lowerForm (hK : K.Lawful) {d : UInt16} (hd : d ∈ K.alphabet) :
    U.upper (lowerForm d) = d := by
  unfold lowerForm
  split_ifs with hletter
  · have hlt : d + 32 < 128 := by grind
    rw [U.upper_ascii _ hlt]
    grind
  · exact upper_digit hK hd

/-- Legal characters are accepted. -/
theorem Legal.accepted (hK : K.Lawful) {c : UInt16} (h : K.Legal c) : K.Accepted U c := by
  obtain ⟨d, hd, hc⟩ := h
  have hupper : U.upper c = d := by
    rcases hc with hc | hc
    · rw [hc]
      exact upper_digit hK hd
    · rw [hc]
      exact upper_lowerForm hK hd
  unfold Accepted
  rw [hupper]
  rcases hK.ascii d hd with hletter | hnumeral
  · left
    rw [U.isUpper_ascii d (hK.lt_128 hd)]
    exact decide_eq_true hletter
  · exact .inr (.inr ⟨hd, hnumeral⟩)

/-- A string of which the decoder tells an illegal character: it has none, or one is no letter with
case, and comes before an array of the size allocated is full. -/
def Told (K : Codec) (U : CharClasses) (t : Utf16) : Prop :=
  (∀ c ∈ t, K.Legal c) ∨ 0 ≤ room t.length ∧
    ∃ i c, t[i]? = some c ∧ ¬ K.Accepted U c ∧ ((5 * i / 8 : ℕ) : ℤ) ≤ room t.length

theorem format_iff_illegal_iff (hK : K.Lawful) (U : CharClasses) (s : Utf16) :
    (ThrowsFormat (K.decode U (some s)) ↔ ∃ c ∈ stripped U s, ¬ K.Legal c) ↔
      K.Told U (stripped U s) := by
  rw [decode_format_iff hK]
  unfold Told
  by_cases hlegal : ∀ c ∈ stripped U s, K.Legal c
  · refine iff_of_true (iff_of_false ?_ ?_) (.inl hlegal)
    · rintro ⟨-, i, c, hi, hno, -⟩
      exact hno ((hlegal c (List.mem_of_getElem? hi)).accepted hK)
    · rintro ⟨c, hc, hno⟩
      exact hno (hlegal c hc)
  · have hex : ∃ c ∈ stripped U s, ¬ K.Legal c := by
      by_contra hno
      exact hlegal fun c hc => by_contra fun hc' => hno ⟨c, hc, hc'⟩
    rw [iff_true_right hex, or_iff_right hlegal]

theorem not_legal {c : UInt16} (h : (K.alphabet.all fun d => ¬ (c = d ∨ c = lowerForm d)) = true) :
    ¬ K.Legal c := by
  rintro ⟨d, hd, hc⟩
  exact absurd hc (List.all_iff_forall_prop.1 h d hd)

/-- A character that is accepted and no digit is not told. -/
theorem not_format_iff {s : Utf16} {c : UInt16} (hK : K.Lawful) (hs : stripped U s = [c])
    (hacc : K.Accepted U c) (hillegal : ¬ K.Legal c) :
    ¬ (ThrowsFormat (K.decode U (some s)) ↔ ∃ c ∈ stripped U s, ¬ K.Legal c) := by
  rw [format_iff_illegal_iff hK, hs]
  rintro (hlegal | ⟨-, i, c', hi, hno, -⟩)
  · exact hillegal (hlegal c (by simp))
  · rw [List.mem_singleton.1 (List.mem_of_getElem? hi)] at hno
    exact hno hacc

end Codec

/-- The numerals of a codec, in the order in which its decoder compares a character with them. -/
theorem Codec.isNumeral_of_nonneg {K : Codec} (numerals : Utf16)
    (hall : (numerals.all fun d => K.IsNumeral d) = true)
    (hother : ∀ c, (∀ d ∈ numerals, c ≠ d) → K.numeral c = -1) (c : UInt16)
    (h : 0 ≤ K.numeral c) : K.IsNumeral c := by
  by_contra hno
  have hne : ∀ d ∈ numerals, c ≠ d := by
    rintro d hd rfl
    exact hno (List.all_iff_forall_prop.1 hall c hd)
  rw [hother c hne] at h
  exact absurd h (by decide)

theorem Base32.lawful : codec.Lawful where
  length_alphabet := by decide
  letters := .inl rfl
  ascii := List.all_iff_forall_prop.1 (by decide)
  numeral_nonneg := List.all_iff_forall_prop.1 (by decide)
  isNumeral_of_nonneg := Codec.isNumeral_of_nonneg [50, 51, 52, 53, 54, 55] (by decide)
    fun c hne => by
      simp only [List.forall_mem_cons] at hne
      show numeral c = -1
      simp only [numeral, hne, if_false]
  tableValue_digit := by decide

theorem Base32Hex.lawful : codec.Lawful where
  length_alphabet := by decide
  letters := .inr rfl
  ascii := List.all_iff_forall_prop.1 (by decide)
  numeral_nonneg := List.all_iff_forall_prop.1 (by decide)
  isNumeral_of_nonneg := Codec.isNumeral_of_nonneg [48, 49, 50, 51, 52, 53, 54, 55, 56, 57]
    (by decide) fun c hne => by
      simp only [List.forall_mem_cons] at hne
      show numeral c = -1
      simp only [numeral, hne, if_false]
  tableValue_digit := by decide

/-- **When the decoders tell exactly the strings with an illegal character**: where there is none, and
where the decoder comes to one that is no letter with case. -/
theorem fromBase32_format_iff (U : CharClasses) (s : Utf16) :
    ((ThrowsFormat (Base32.fromBase32 U (some s)) ↔
        ∃ c ∈ Codec.stripped U s, ¬ Base32.codec.Legal c) ↔
      Base32.codec.Told U (Codec.stripped U s)) ∧
    ((ThrowsFormat (Base32Hex.fromBase32Hex U (some s)) ↔
        ∃ c ∈ Codec.stripped U s, ¬ Base32Hex.codec.Legal c) ↔
      Base32Hex.codec.Told U (Codec.stripped U s)) :=
  ⟨Codec.format_iff_illegal_iff Base32.lawful U s,
    Codec.format_iff_illegal_iff Base32Hex.lawful U s⟩

/-- `Base32` decodes `Ä`, and `Base32Hex` the letter after its last digit. -/
theorem not_format_iff_illegal :
    ¬ (ThrowsFormat (Base32.fromBase32 .latin1 (some [196])) ↔
        ∃ c ∈ Codec.stripped .latin1 [196], ¬ Base32.codec.Legal c) ∧
    ¬ (ThrowsFormat (Base32Hex.fromBase32Hex .latin1 (some (.ofString "W"))) ↔
        ∃ c ∈ Codec.stripped .latin1 (.ofString "W"), ¬ Base32Hex.codec.Legal c) := by
  constructor
  · exact Codec.not_format_iff (c := 196) Base32.lawful (by decide) (.inl (by decide))
      (Codec.not_legal (by decide))
  · exact Codec.not_format_iff (c := 87) Base32Hex.lawful (by decide) (.inl (by decide))
      (Codec.not_legal (by decide))

end EnDeCoding

end Server6
