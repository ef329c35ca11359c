import Server6.EnDeCoding.Text
import Server6.Foundations.Int32
import Server6.Foundations.While

/-!
# The base-32 codecs

`Base32` and `Base32Hex` are one codec with two tables. `ToBase32` and `FromBase32` are loops around
an `int` that is shifted and never cleared; all their arithmetic is that of 32-bit integers.

This module is the code; `Base32Encode` is what the encoder writes and `Base32Decode` what the
decoder makes of any string.
-/

namespace Server6

namespace EnDeCoding

/-- `_mask`. -/
def mask : Int32 := 31

/-- `_shift`. -/
def shift : Int32 := 5

/-- What tells one codec from the other: the table `_digits`, what `CharToInt` adds to the position of
a letter, and its `switch` over the numerals. -/
structure Codec where
  digits : Utf16
  letters : Int32
  numeral : UInt16 → Int32

namespace Codec

variable (K : Codec) (U : CharClasses)

/-- `CharToInt`. -/
def charToInt (c : UInt16) : Int32 :=
  let bigA : Int32 := 65
  let litA : Int32 := 97
  let iChar := Int32.ofNat c.toNat
  if U.isUpper c then iChar - bigA + K.letters
  else if U.isLower c then iChar - litA + K.letters
  else if U.isDigit c || U.isNumber c then K.numeral c
  else -1

/-! ## Decoding, as the code has it -/

/-- The variables of the decoding loop. -/
structure Decoding where
  result : Bytes
  buffer : Int32
  next : Int32
  bitsLeft : Int32
  deriving DecidableEq, Repr

/-- One character. -/
def decodeChar (d : Decoding) (c : UInt16) : Except CodecExn Decoding :=
  let charValue := K.charToInt U c
  if charValue < 0 then
    .error (.format (.ofString "Illegal character: `" ++ [c] ++ .ofString "`"))
  else
    let buffer := d.buffer <<< shift ||| charValue &&& mask
    let bitsLeft := d.bitsLeft + shift
    if 8 ≤ bitsLeft then do
      let result ← writeAt .indexOutOfRange d.result d.next.toInt
        (buffer >>> (bitsLeft - 8)).toUInt32.toUInt8
      return ⟨result, buffer, d.next + 1, bitsLeft - 8⟩
    else return ⟨d.result, buffer, d.next, bitsLeft⟩

/-- `encoded.Length * _shift / 8`. -/
def outLength (encoded : Utf16) : Int32 := Int32.ofNat encoded.length * shift / 8

/-- `new byte[n]`. -/
def newByteArray (n : Int32) : Except CodecExn Bytes :=
  if n < 0 then .error .overflow else .ok (List.replicate n.toInt.toNat 0)

/-- The string without the white space and the padding around it. -/
def stripped (encoded : Utf16) : Utf16 := trimEnd (U.trim encoded) 61

/-- `FromBase32`. -/
def decode (encoded : NString) : Except CodecExn Bytes :=
  match encoded with
  | none => .error (.argumentNull "encoded" none)
  | some encoded =>
    let encoded := U.toUpper (stripped U encoded)
    if encoded.length = 0 then .ok []
    else do
      let result ← newByteArray (outLength encoded)
      let d ← encoded.foldlM (K.decodeChar U) ⟨result, 0, 0, 0⟩
      return d.result

/-! ## Encoding, as the code has it -/

/-- The variables of the encoding loop. -/
structure Encoding where
  offset : Int32
  buffer : Int32
  bitsLeft : Int32
  result : Utf16
  deriving DecidableEq, Repr

/-- Make sure that the buffer has a group: from the input, or with zeros at its end. -/
def refill (data : Bytes) (last : Int32) (e : Encoding) : Except CodecExn Encoding :=
  if e.bitsLeft < shift then
    if e.offset < last then do
      let b ← readAt .indexOutOfRange data e.offset.toInt
      return { e with
        buffer := e.buffer <<< 8 ||| Int32.ofNat b.toNat &&& 0xff
        offset := e.offset + 1
        bitsLeft := e.bitsLeft + 8 }
    else
      let pad := shift - e.bitsLeft
      return { e with buffer := e.buffer <<< pad, bitsLeft := e.bitsLeft + pad }
  else return e

/-- The body of the loop. -/
def encodeGroup (data : Bytes) (last : Int32) (e : Encoding) : Except CodecExn Encoding := do
  let e ← refill data last e
  let index := mask &&& e.buffer >>> (e.bitsLeft - shift)
  let digit ← readAt .indexOutOfRange K.digits index.toInt
  return { e with bitsLeft := e.bitsLeft - shift, result := e.result ++ [digit] }

/-- The loop goes on while there are bits in the buffer or bytes before `last`. -/
def More (last : Int32) (e : Encoding) : Prop := 0 < e.bitsLeft ∨ e.offset < last

instance (last : Int32) : DecidablePred (More last) := fun _ => inferInstanceAs (Decidable (_ ∨ _))

/-- What the body makes smaller: it reads a byte, or it has only bits to write. -/
def remaining (last : Int32) (e : Encoding) : ℕ :=
  4 * (last.toInt - e.offset.toInt).toNat + e.bitsLeft.toInt.toNat

/-- What refilling does to the counters: nothing, a byte more, or exactly one group. -/
theorem refill_cases {data : Bytes} {last : Int32} {e r : Encoding}
    (h : refill data last e = .ok r) :
    (5 ≤ e.bitsLeft.toInt ∧ r = e) ∨
      (e.bitsLeft.toInt < 5 ∧ e.offset.toInt < last.toInt ∧
        r.offset.toInt = e.offset.toInt + 1 ∧ r.bitsLeft.toInt = e.bitsLeft.toInt + 8) ∨
      (e.bitsLeft.toInt < 5 ∧ last.toInt ≤ e.offset.toInt ∧ r.offset = e.offset ∧
        r.bitsLeft = shift) := by
  have hfive : shift.toInt = 5 := rfl
  unfold refill at h
  split_ifs at h with hbits hmore
  · rw [Int32.lt_iff_toInt_lt, hfive] at hbits
    rw [Int32.lt_iff_toInt_lt] at hmore
    refine .inr (.inl ⟨hbits, hmore, ?_⟩)
    cases hread : readAt CodecExn.indexOutOfRange data e.offset.toInt with
    | error x => simp [hread] at h
    | ok b =>
      rw [hread, ok_bind] at h
      obtain rfl := Except.ok.inj h
      have hlast := last.toInt_lt
      have hoffset := e.offset.le_toInt
      have hle := e.bitsLeft.le_toInt
      have hone : (1 : Int32).toInt = 1 := rfl
      have height : (8 : Int32).toInt = 8 := rfl
      constructor
      · show (e.offset + 1).toInt = _
        rw [toInt_add_of_bounds] <;> omega
      · show (e.bitsLeft + 8).toInt = _
        rw [toInt_add_of_bounds] <;> omega
  · rw [Int32.lt_iff_toInt_lt, hfive] at hbits
    rw [Int32.lt_iff_toInt_lt] at hmore
    obtain rfl := Except.ok.inj h
    refine .inr (.inr ⟨hbits, Int.not_lt.1 hmore, rfl, ?_⟩)
    show e.bitsLeft + (shift - e.bitsLeft) = shift
    rw [Int32.add_comm, Int32.sub_add_cancel]
  · rw [Int32.lt_iff_toInt_lt, hfive] at hbits
    exact .inl ⟨Int.not_lt.1 hbits, (Except.ok.inj h).symm⟩

/-- The body of the loop decreases the measure in every state. -/
theorem remaining_encodeGroup (data : Bytes) (last : Int32) (e e' : Encoding) (hmore : More last e)
    (h : K.encodeGroup data last e = .ok e') : remaining last e' < remaining last e := by
  unfold encodeGroup at h
  cases hrefill : refill data last e with
  | error x => simp [hrefill] at h
  | ok r =>
    rw [hrefill, ok_bind] at h
    cases hread : readAt CodecExn.indexOutOfRange K.digits
        (mask &&& r.buffer >>> (r.bitsLeft - shift)).toInt with
    | error x => simp [hread] at h
    | ok digit =>
      simp only [hread, ok_bind] at h
      obtain rfl := Except.ok.inj h
      have hfive : shift.toInt = 5 := rfl
      have hlt := e.bitsLeft.toInt_lt
      have hle := e.bitsLeft.le_toInt
      unfold More at hmore
      rw [Int32.lt_iff_toInt_lt, Int32.lt_iff_toInt_lt, Int32.toInt_zero] at hmore
      unfold remaining
      show 4 * (last.toInt - r.offset.toInt).toNat + (r.bitsLeft - shift).toInt.toNat < _
      rcases refill_cases hrefill with ⟨hbits, rfl⟩ | ⟨hbits, hin, hoffset, hnew⟩ |
        ⟨hbits, hend, hoffset, hnew⟩
      · rw [toInt_sub_of_bounds] <;> omega
      · rw [toInt_sub_of_bounds] <;> omega
      · rw [hoffset, hnew, Int32.sub_self, Int32.toInt_zero]
        omega

/-- `(length * 8 + _shift - 1) / _shift`. -/
def outputLength (length : Int32) : Int32 := (length * 8 + shift - 1) / shift

/-- What `ToBase32` appends with `padOutput`: up to a multiple of eight characters. -/
def padding (result : Utf16) : Utf16 :=
  let padding := 8 - Int32.ofNat result.length % 8
  if 0 < padding then List.replicate (if padding = 8 then 0 else padding.toInt.toNat) 61 else []

/-- `ToBase32` with an offset and a length. -/
def encodeAt (data : Option ByteArr) (offset length : Int32) (padOutput : Bool) :
    Except CodecExn Utf16 :=
  match data with
  | none => .error (.argumentNull "data" none)
  | some data =>
    if offset < 0 then .error (.argumentOutOfRange "offset")
    else if length < 0 then .error (.argumentOutOfRange "length")
    else if data.length < offset + length then .error (.argumentOutOfRange none)
    else if length = 0 then .ok []
    else if (1 : Int32) <<< 28 ≤ length then .error (.argumentOutOfRange "data")
    else if outputLength length < 0 then .error (.argumentOutOfRange "capacity")
    else do
      let last := offset + length
      let b ← readAt .indexOutOfRange data.val offset.toInt
      let e ← whileLoop (More last) (K.encodeGroup data.val last) (remaining last)
        (K.remaining_encodeGroup data.val last) ⟨offset + 1, Int32.ofNat b.toNat, 8, []⟩
      return if padOutput then e.result ++ padding e.result else e.result

/-- `ToBase32` of a whole array. -/
def encode (data : Option ByteArr) (padOutput : Bool) : Except CodecExn Utf16 :=
  match data with
  | none => .error .nullReference
  | some bs => K.encodeAt data 0 bs.length padOutput

/-- `IsValidBase32`. -/
def isValid (inString : NString) : Except CodecExn Bool := validIn K.digits inString

end Codec

/-! ## The two classes -/

namespace Base32

/-- `_digits`, which ends with the padding character. -/
def digits : Utf16 := .ofString "ABCDEFGHIJKLMNOPQRSTUVWXYZ234567="

/-- The `switch` of `CharToInt`. -/
def numeral (c : UInt16) : Int32 :=
  if c = 50 then 26
  else if c = 51 then 27
  else if c = 52 then 28
  else if c = 53 then 29
  else if c = 54 then 30
  else if c = 55 then 31
  else -1

def codec : Codec where
  digits := digits
  letters := 0
  numeral := numeral

def fromBase32 (U : CharClasses) := codec.decode U
def toBase32At := codec.encodeAt
def toBase32 := codec.encode
def isValidBase32 := codec.isValid

end Base32

namespace Base32Hex

/-- `_digits`, which ends with the padding character. -/
def digits : Utf16 := .ofString "0123456789ABCDEFGHIJKLMNOPQRSTUV="

/-- The `switch` of `CharToInt`. -/
def numeral (c : UInt16) : Int32 :=
  if c = 48 then 0
  else if c = 49 then 1
  else if c = 50 then 2
  else if c = 51 then 3
  else if c = 52 then 4
  else if c = 53 then 5
  else if c = 54 then 6
  else if c = 55 then 7
  else if c = 56 then 8
  else if c = 57 then 9
  else -1

def codec : Codec where
  digits := digits
  letters := 10
  numeral := numeral

def fromBase32Hex (U : CharClasses) := codec.decode U
def toBase32HexAt := codec.encodeAt
def toBase32Hex := codec.encode
def isValidBase32Hex := codec.isValid

end Base32Hex

end EnDeCoding

end Server6
