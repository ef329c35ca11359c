import Server6.Foundations.Utf8
import Server6.SymCipher.Runtime

/-!
# Reading and writing ASCII

`Encoding.ASCII` puts a question mark for every byte, and for every character, that is not ASCII. The
bytes of an ASCII string are read back (`asciiString_utf8`); which bytes are written back is
`asciiBytes_asciiString_iff`.
-/

namespace Server6

/-- The character of a byte: what is not ASCII becomes a question mark. -/
def asciiChar (b : UInt8) : UInt16 := if b < 128 then b.toUInt16 else 63

/-- `Encoding.ASCII.GetString`. -/
def asciiString (bs : Bytes) : Utf16 := bs.map asciiChar

/-- `Encoding.ASCII.GetBytes`: a pair of surrogates becomes two question marks. -/
def asciiBytes (s : Utf16) : Bytes := s.map fun c => if c < 128 then c.toUInt8 else 63

/-- A string of ASCII characters. -/
def Ascii (s : Utf16) : Prop := ∀ c ∈ s, c < 128

theorem asciiChar_lt (b : UInt8) : asciiChar b < 128 := by
  unfold asciiChar
  split_ifs with h
  · rw [UInt16.lt_iff_toNat_lt, UInt8.toNat_toUInt16]
    exact UInt8.lt_iff_toNat_lt.1 h
  · decide

theorem asciiChar_eq_zero {b : UInt8} (h : asciiChar b = 0) : b = 0 := by
  unfold asciiChar at h
  split_ifs at h
  · rw [← UInt16.toNat_inj, UInt8.toNat_toUInt16] at h
    exact UInt8.toNat_inj.1 h
  · exact absurd h (by decide)

theorem asciiChar_toUInt8 {c : UInt16} (h : c < 128) : asciiChar c.toUInt8 = c := by
  rw [UInt16.lt_iff_toNat_lt] at h
  have hnat : c.toUInt8.toNat = c.toNat := by
    rw [UInt16.toNat_toUInt8]
    exact Nat.mod_eq_of_lt (Nat.lt_trans h (by decide))
  unfold asciiChar
  rw [if_pos]
  · rw [← UInt16.toNat_inj, UInt8.toNat_toUInt16, hnat]
  · rw [UInt8.lt_iff_toNat_lt, hnat]
    exact h

/-- The bytes of an ASCII string are read back. -/
theorem asciiString_utf8 {s : Utf16} (h : Ascii s) : asciiString (Utf16.utf8 s) = s := by
  unfold asciiString
  rw [Utf16.utf8_of_ascii h, List.map_map]
  exact (List.map_congr_left fun c hc => asciiChar_toUInt8 (h c hc)).trans (List.map_id s)

/-- What is written for an ASCII string. -/
theorem asciiBytes_of_ascii {s : Utf16} (h : Ascii s) : asciiBytes s = s.map UInt16.toUInt8 :=
  List.map_congr_left fun c hc => if_pos (h c hc)

theorem ascii_asciiString (bs : Bytes) : Ascii (asciiString bs) := by
  intro c hc
  obtain ⟨b, -, rfl⟩ := List.mem_map.1 hc
  exact asciiChar_lt b

/-- The byte written for the character of a byte. -/
theorem toUInt8_asciiChar (b : UInt8) : (asciiChar b).toUInt8 = if b < 128 then b else 63 := by
  unfold asciiChar
  split_ifs
  · exact UInt8.toUInt8_toUInt16 b
  · rfl

/-- **Bytes read as ASCII and written back** are the same exactly if they are ASCII. -/
theorem asciiBytes_asciiString_iff (bs : Bytes) :
    asciiBytes (asciiString bs) = bs ↔ ∀ b ∈ bs, b < 128 := by
  have heq : asciiBytes (asciiString bs) = bs.map fun b => if b < 128 then b else 63 := by
    rw [asciiBytes_of_ascii (ascii_asciiString bs), asciiString, List.map_map]
    exact List.map_congr_left fun b _ => toUInt8_asciiChar b
  rw [heq]
  constructor
  · intro hmap b hb
    rw [← hmap] at hb
    obtain ⟨a, -, rfl⟩ := List.mem_map.1 hb
    split_ifs with ha
    · exact ha
    · decide
  · intro hascii
    conv_rhs => rw [← List.map_id bs]
    exact List.map_congr_left fun b hb => if_pos (hascii b hb)

end Server6
