import Mathlib.Data.List.GetD
import Mathlib.Data.Rat.Floor
import Server6.EnDeCoding.DeEnCoder
import Server6.Foundations.Int32

/-!
# Padding text to a block size

`GetBytesFromString` appends zero bytes up to the next multiple of the block size, a whole block where
the length is a multiple already. The factor goes through a `double`: the quotient of two `int` is an
integer, and a `double` holds every `int`, so the two roundings of it agree (`iFactor_eq`).

`GetStringFromBytesTrimNulls` is the way back. `getBytesFromString_padded_iff` is when it leads to the
text one came from. A padded size that fits in an `int` may still be more than an array can have.
-/

namespace Server6

namespace Math

/-- `Math.Abs`. -/
def abs (n : Int32) : Except Exn Int32 :=
  if n = Int32.minValue then .error .overflow else .ok (if n < 0 then -n else n)

/-- `Math.Truncate`. -/
def truncate (d : ℚ) : Int := if 0 ≤ d then ⌊d⌋ else ⌈d⌉

/-- `Math.Round`: a half goes to the even integer. -/
def round (d : ℚ) : Int :=
  if d - ⌊d⌋ < 1 / 2 then ⌊d⌋
  else if 1 / 2 < d - ⌊d⌋ then ⌊d⌋ + 1
  else if ⌊d⌋ % 2 = 0 then ⌊d⌋
  else ⌊d⌋ + 1

/-- An integer is not rounded. -/
theorem truncate_intCast (n : Int) : truncate (n : ℚ) = n := by
  unfold truncate
  rw [Int.floor_intCast, Int.ceil_intCast, ite_self]

theorem round_intCast (n : Int) : round (n : ℚ) = n := by
  unfold round
  rw [Int.floor_intCast, if_pos]
  rw [sub_self]
  exact one_half_pos

end Math

namespace DeEnCoder

/-! ## The code -/

/-- The block size in use. -/
def effectiveBlockSize (blockSize : Int32) : Except Exn Int32 :=
  if blockSize = 0 then .ok 256
  else if blockSize < 0 then Math.abs blockSize
  else .ok blockSize

/-- `iFactor`. -/
def iFactor (length blockSize : Int32) : Int32 :=
  let dDiv : ℚ := ((length / blockSize).toInt : ℚ)
  Int32.ofInt (min (Math.truncate dDiv) (Math.round dDiv))

/-- `GetBytesFromString`. -/
def getBytesFromString (inString : NString) (blockSize : Int32) (upStretchToCorrectBlockSize : Bool) :
    Except Exn Bytes := do
  let sourceString := if isNullOrEmpty inString then [] else orEmpty inString
  let sourceBytes := Utf16.utf8 sourceString
  let sourceLength := Int32.ofNat sourceBytes.length
  let blockSize ← effectiveBlockSize blockSize
  let inBytesLen :=
    if upStretchToCorrectBlockSize then (iFactor sourceLength blockSize + 1) * blockSize
    else sourceLength
  let inBytes ← newArray inBytesLen.toInt
  (List.range inBytesLen.toInt.toNat).foldlM (fun inBytes bytCnt => do
    let b ← if bytCnt < sourceBytes.length then readAt .indexOutOfRange sourceBytes bytCnt else .ok 0
    writeAt .indexOutOfRange inBytes bytCnt b) inBytes

/-! ## What it returns -/

/-- The block size a call asks for. -/
def blockOf (blockSize : Int32) : ℕ := if blockSize = 0 then 256 else blockSize.toInt.natAbs

theorem blockOf_pos (blockSize : Int32) : 0 < blockOf blockSize := by
  unfold blockOf
  split_ifs with h
  · decide
  · refine Int.natAbs_pos.2 fun hzero => h ?_
    exact Int32.toInt.inj hzero

theorem effectiveBlockSize_eq {blockSize : Int32} (hmin : blockSize ≠ Int32.minValue) :
    effectiveBlockSize blockSize = .ok (Int32.ofNat (blockOf blockSize)) ∧
      blockOf blockSize < 2 ^ 31 := by
  have hlt := blockSize.toInt_lt
  have hle := blockSize.le_toInt
  have hmin' : blockSize.toInt ≠ -2 ^ 31 := fun h => hmin (Int32.toInt.inj h)
  unfold effectiveBlockSize blockOf
  by_cases hzero : blockSize = 0
  · rw [if_pos hzero, if_pos hzero]
    exact ⟨rfl, by decide⟩
  rw [if_neg hzero, if_neg hzero]
  by_cases hneg : blockSize < 0
  · rw [if_pos hneg, Math.abs, if_neg hmin, if_pos hneg]
    rw [Int32.lt_iff_toInt_lt, Int32.toInt_zero] at hneg
    refine ⟨congrArg Except.ok (Int32.toInt.inj ?_), by omega⟩
    rw [Int32.toInt_ofNat_of_lt (by omega), Int32.toInt_neg, Int.bmod_eq_of_le] <;> omega
  · rw [if_neg hneg]
    rw [Int32.lt_iff_toInt_lt, Int32.toInt_zero] at hneg
    refine ⟨congrArg Except.ok (Int32.toInt.inj ?_), by omega⟩
    rw [Int32.toInt_ofNat_of_lt (by omega)]
    omega

/-- The factor is the quotient of the lengths. -/
theorem iFactor_eq {length block : ℕ} (hlength : length < 2 ^ 31) (hblock : block < 2 ^ 31) :
    iFactor (Int32.ofNat length) (Int32.ofNat block) = Int32.ofNat (length / block) := by
  unfold iFactor
  simp only
  rw [Math.truncate_intCast, Math.round_intCast, min_self, Int32.ofInt_toInt,
    Int32.ofNat_div hlength hblock]

/-- The length with padding, in blocks. -/
def paddedLength (length block : ℕ) : ℕ := (length / block + 1) * block

theorem lt_paddedLength (length : ℕ) {block : ℕ} (hblock : 0 < block) :
    length < paddedLength length block := by
  have hdiv := Nat.div_add_mod length block
  have hmod := Nat.mod_lt length hblock
  unfold paddedLength
  rw [Nat.add_mul, Nat.one_mul, Nat.mul_comm]
  omega

theorem paddedLength_le (length block : ℕ) : paddedLength length block ≤ length + block := by
  have hdiv := Nat.div_mul_le_self length block
  unfold paddedLength
  rw [Nat.add_mul, Nat.one_mul]
  omega

/-- The loop that copies the bytes and fills the rest of the array with zeros. -/
theorem copy_padded (sourceBytes : Bytes) {n : ℕ} (hn : sourceBytes.length ≤ n) :
    (List.range n).foldlM (fun inBytes bytCnt => do
        let b ← if bytCnt < sourceBytes.length then readAt Exn.indexOutOfRange sourceBytes bytCnt
          else .ok 0
        writeAt Exn.indexOutOfRange inBytes bytCnt b) (List.replicate n 0) =
      .ok (sourceBytes ++ List.replicate (n - sourceBytes.length) 0) := by
  rw [foldlM_fill (fun i => sourceBytes.getD i 0) (fun ys i hys hi => ?_) List.length_replicate]
  · congr 1
    apply List.ext_getElem
    · rw [List.length_map, List.length_range, List.length_append, List.length_replicate]
      omega
    · intro i hi hi'
      rw [List.getElem_map, List.getElem_range]
      by_cases hin : i < sourceBytes.length
      · rw [List.getElem_append_left hin, List.getD_eq_getElem _ _ hin]
      · rw [List.getElem_append_right (by omega), List.getElem_replicate,
          List.getD_eq_default _ _ (by omega)]
  · by_cases hin : i < sourceBytes.length
    · rw [if_pos hin, readAt_of_lt _ hin, ok_bind, List.getD_eq_getElem _ _ hin]
      exact writeAt_natCast _ (by omega) _
    · rw [if_neg hin, ok_bind, List.getD_eq_default _ _ (by omega)]
      exact writeAt_natCast _ (by omega) _

/-- What `GetBytesFromString` does where the padded size fits in an `int`. -/
theorem getBytesFromString_eq {s : Utf16} {blockSize : Int32} (hmin : blockSize ≠ Int32.minValue)
    (hfits : paddedLength (Utf16.utf8 s).length (blockOf blockSize) < 2 ^ 31) :
    getBytesFromString (some s) blockSize true = (do
      let inBytes ← newArray (paddedLength (Utf16.utf8 s).length (blockOf blockSize) : ℕ)
      (List.range (paddedLength (Utf16.utf8 s).length (blockOf blockSize))).foldlM
        (fun inBytes bytCnt => do
          let b ← if bytCnt < (Utf16.utf8 s).length then
            readAt .indexOutOfRange (Utf16.utf8 s) bytCnt else .ok 0
          writeAt .indexOutOfRange inBytes bytCnt b) inBytes) := by
  obtain ⟨hblock, hlt⟩ := effectiveBlockSize_eq hmin
  have hpadded := lt_paddedLength (Utf16.utf8 s).length (blockOf_pos blockSize)
  have hsource : (if isNullOrEmpty (some s) then [] else orEmpty (some s)) = s := by
    cases s <;> rfl
  have hlen : (iFactor (Int32.ofNat (Utf16.utf8 s).length) (Int32.ofNat (blockOf blockSize)) + 1) *
      Int32.ofNat (blockOf blockSize) =
      Int32.ofNat (paddedLength (Utf16.utf8 s).length (blockOf blockSize)) := by
    rw [iFactor_eq (by omega) hlt, paddedLength, Int32.ofNat_mul, Int32.ofNat_add]
    rfl
  unfold getBytesFromString
  simp only [hsource, hblock, ok_bind, if_true]
  rw [hlen, Int32.toInt_ofNat_of_lt hfits, Int.toNat_natCast]

/-- **What `GetBytesFromString` returns** where an array can have the padded size. -/
theorem getBytesFromString_padded {s : Utf16} {blockSize : Int32} (hmin : blockSize ≠ Int32.minValue)
    (hfits : paddedLength (Utf16.utf8 s).length (blockOf blockSize) ≤ maxLength) :
    getBytesFromString (some s) blockSize true =
      .ok (Utf16.utf8 s ++ List.replicate
        (paddedLength (Utf16.utf8 s).length (blockOf blockSize) - (Utf16.utf8 s).length) 0) := by
  have hpadded := lt_paddedLength (Utf16.utf8 s).length (blockOf_pos blockSize)
  rw [getBytesFromString_eq hmin (hfits.trans_lt (by decide)), newArray_of_le hfits, ok_bind]
  exact copy_padded (Utf16.utf8 s) hpadded.le

/-- **What it throws** where none can. -/
theorem getBytesFromString_outOfMemory {s : Utf16} {blockSize : Int32}
    (hmin : blockSize ≠ Int32.minValue)
    (hfits : paddedLength (Utf16.utf8 s).length (blockOf blockSize) < 2 ^ 31)
    (hlarge : maxLength < paddedLength (Utf16.utf8 s).length (blockOf blockSize)) :
    getBytesFromString (some s) blockSize true = .error .outOfMemory := by
  rw [getBytesFromString_eq hmin hfits, newArray_of_lt hlarge, error_bind]

/-! ## The way back -/

theorem ofUtf8_utf8 {s : Utf16} (hwf : Utf16.WellFormed s) : Utf16.ofUtf8 (Utf16.utf8 s) = s := by
  have hread := Utf16.ofUtf8_utf8_append hwf []
  have hnil : Utf16.ofUtf8 [] = [] := by
    rw [Utf16.ofUtf8, Utf16.decode]
    rfl
  rwa [List.append_nil, hnil, List.append_nil] at hread

/-- A text without a trailing NUL has no trailing zero byte. -/
theorem trimmed_utf8 {s : Utf16} (hwf : Utf16.WellFormed s) (hnul : s.getLast? ≠ some 0) :
    trimmed (Utf16.utf8 s) = Utf16.utf8 s := by
  obtain ⟨k, hk⟩ := trimmed_append_zeros (Utf16.utf8 s)
  -- a trailing zero byte is read as a trailing NUL
  have hread := ofUtf8_utf8 hwf
  rw [hk, Utf16.ofUtf8_append_zeros] at hread
  cases k with
  | zero => exact (hk.trans (List.append_nil _)).symm
  | succ k =>
    refine absurd ?_ hnul
    rw [← hread, List.replicate_succ', ← List.append_assoc, List.getLast?_concat]

theorem trimmed_append_replicate (bytes : Bytes) (k : ℕ) :
    trimmed (bytes ++ List.replicate k 0) = trimmed bytes := by
  unfold trimmed
  induction k with
  | zero => rw [List.replicate_zero, List.append_nil]
  | succ k ih =>
    rw [List.replicate_succ', ← List.append_assoc, List.rdropWhile_concat_pos, ih]
    rfl

/-- A text of one byte is one ASCII character. -/
theorem length_utf8_le_one_iff {s : Utf16} (hwf : Utf16.WellFormed s) (hne : s ≠ []) :
    (Utf16.utf8 s).length ≤ 1 ↔ ∃ c < 128, s = [c] := by
  constructor
  · intro hlen
    obtain ⟨-, hunits⟩ := hwf.codePoints
    obtain ⟨n, ns, hns⟩ := List.exists_cons_of_ne_nil (Utf16.codePoints_ne_nil hne)
    unfold Utf16.utf8 at hlen
    rw [hns] at hunits hlen
    rw [List.flatMap_cons, List.length_append] at hlen
    have hbyte := List.length_pos_iff.2 (Utf16.utf8CodePoint_ne_nil n)
    have hsmall : n < 0x80 := by
      by_contra hlarge
      have hmany : 2 ≤ (Utf16.utf8CodePoint n).length := by
        unfold Utf16.utf8CodePoint
        rw [if_neg hlarge]
        split_ifs <;> simp
      omega
    have hrest : ns = [] := by
      cases ns with
      | nil => rfl
      | cons m ms =>
        have hmore := List.length_pos_iff.2 (Utf16.utf8CodePoint_ne_nil m)
        rw [List.flatMap_cons, List.length_append] at hlen
        omega
    refine ⟨UInt16.ofNat n, ?_, ?_⟩
    · rw [UInt16.lt_iff_toNat_lt, UInt16.toNat_ofNat_of_lt' (show n < 65536 by omega)]
      exact hsmall
    · rw [← hunits, hrest, List.flatMap_cons, Utf16.units, if_pos (by omega)]
      rfl
  · rintro ⟨c, hc, rfl⟩
    rw [Utf16.utf8_of_ascii (by simpa using hc)]
    rfl

/-- The two functions together: the bytes of the text with one to a whole block of zeros behind them,
in whole blocks, and the text from them. -/
structure PadsAndReads (s : Utf16) (blockSize : Int32) (zeros : ℕ) : Prop where
  bytes : getBytesFromString (some s) blockSize true =
    .ok (Utf16.utf8 s ++ List.replicate zeros 0)
  pos : 1 ≤ zeros
  le : zeros ≤ blockOf blockSize
  dvd : blockOf blockSize ∣ (Utf16.utf8 s ++ List.replicate zeros 0).length
  text : getStringFromBytesTrimNulls (some (Utf16.utf8 s ++ List.replicate zeros 0)) = .ok s

/-- What is read from the padded bytes. -/
theorem getStringFromBytesTrimNulls_padded {s : Utf16} (hwf : Utf16.WellFormed s)
    (hnul : s.getLast? ≠ some 0) {zeros : ℕ} (hzeros : 1 ≤ zeros) :
    getStringFromBytesTrimNulls (some (Utf16.utf8 s ++ List.replicate zeros 0)) = .ok s ↔
      1 < (Utf16.utf8 s).length := by
  have htrimmed : trimmed (Utf16.utf8 s ++ List.replicate zeros 0) = Utf16.utf8 s := by
    rw [trimmed_append_replicate, trimmed_utf8 hwf hnul]
  have htrims := getStringFromBytesTrimNulls_eq_iff (Utf16.utf8 s ++ List.replicate zeros 0)
  rw [htrimmed, ofUtf8_utf8 hwf] at htrims
  rw [htrims]
  refine or_iff_left fun heq => ?_
  have hlen := congrArg List.length heq
  rw [List.length_append, List.length_replicate] at hlen
  omega

/-- **When the text comes back**: unless it is a single ASCII character, or an array cannot have the
padded size. -/
theorem getBytesFromString_padded_iff (s : Utf16) (blockSize : Int32) (hne : s ≠ [])
    (hwf : Utf16.WellFormed s) (hnul : s.getLast? ≠ some 0) (hmin : blockSize ≠ Int32.minValue)
    (hfits : paddedLength (Utf16.utf8 s).length (blockOf blockSize) < 2 ^ 31) :
    (∃ zeros, PadsAndReads s blockSize zeros) ↔ (¬ ∃ c < 128, s = [c]) ∧
      paddedLength (Utf16.utf8 s).length (blockOf blockSize) ≤ maxLength := by
  have hlt := lt_paddedLength (Utf16.utf8 s).length (blockOf_pos blockSize)
  have hle := paddedLength_le (Utf16.utf8 s).length (blockOf blockSize)
  rw [← length_utf8_le_one_iff hwf hne, Nat.not_le]
  constructor
  · rintro ⟨zeros, h⟩
    refine ⟨(getStringFromBytesTrimNulls_padded hwf hnul h.pos).1 h.text, ?_⟩
    by_contra hlarge
    have hthrows := getBytesFromString_outOfMemory hmin hfits (Nat.not_le.1 hlarge)
    cases h.bytes.symm.trans hthrows
  · rintro ⟨hmany, hsize⟩
    refine ⟨paddedLength (Utf16.utf8 s).length (blockOf blockSize) - (Utf16.utf8 s).length,
      getBytesFromString_padded hmin hsize, by omega, by omega, ?_, ?_⟩
    · rw [List.length_append, List.length_replicate, Nat.add_sub_cancel' hlt.le]
      exact Nat.dvd_mul_left _ _
    · exact (getStringFromBytesTrimNulls_padded hwf hnul (by omega)).2 hmany

/-- Two characters in blocks of two: a whole block is added. -/
theorem getBytesFromString_padded_hi : ∃ zeros, PadsAndReads [104, 105] (-2) zeros :=
  (getBytesFromString_padded_iff [104, 105] (-2) (by decide) ⟨rfl, rfl⟩ (by decide) (by decide)
    (by decide)).2 ⟨by rintro ⟨c, -, hc⟩; simp at hc, by decide⟩

/-- A single character keeps its zeros. -/
theorem not_padsAndReads_single : ¬ ∃ zeros, PadsAndReads [65] 256 zeros := by
  rintro ⟨zeros, h⟩
  have hlong := (getStringFromBytesTrimNulls_padded (s := [65]) rfl (by decide) h.pos).1 h.text
  exact absurd hlong (by decide)

end DeEnCoder

end Server6
