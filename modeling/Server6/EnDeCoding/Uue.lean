import Mathlib.Data.Bool.AllAny
import Server6.EnDeCoding.Ascii
import Server6.EnDeCoding.HexCodecs
import Server6.EnDeCoding.UuLines

/-!
# Uuencoding

`Uu` leaves the encoding to a library and only chooses the text it is given: the bytes read as ASCII,
or their hexadecimal digits. `fromUu_toUu_iff` is which bytes come back.

Of the library, `UUEncoder`, it is assumed that it decodes what it has encoded, for ASCII strings
(`RecoversAscii`).
-/

namespace Server6

namespace EnDeCoding

/-- The two methods of `DBTek.Crypto.UUEncoder`. -/
structure UUEncoder where
  encodeString : Utf16 → Utf16
  decodeString : Utf16 → Utf16

/-- The library decodes an ASCII string it has encoded. -/
def UUEncoder.RecoversAscii (E : UUEncoder) : Prop :=
  ∀ t, Ascii t → E.decodeString (E.encodeString t) = t

/-- An encoder that writes lines. -/
def UUEncoder.lines : UUEncoder where
  encodeString t := uuEncode (t.map UInt16.toNat)
  decodeString s := (uuDecode s).map UInt16.ofNat

theorem UUEncoder.recoversAscii_lines : lines.RecoversAscii := by
  intro t ht
  have hsmall : ∀ v ∈ t.map UInt16.toNat, v < 256 := by
    intro v hv
    obtain ⟨c, hc, rfl⟩ := List.mem_map.1 hv
    have hlt : c.toNat < 128 := UInt16.lt_iff_toNat_lt.1 (ht c hc)
    omega
  show (uuDecode (uuEncode (t.map UInt16.toNat))).map UInt16.ofNat = t
  rw [uuDecode_uuEncode hsmall, List.map_map]
  exact (List.map_congr_left fun c _ => UInt16.ofNat_toNat).trans (List.map_id t)

/-! ## The code -/

namespace Uu

variable (E : UUEncoder) (U : CharClasses)

/-- `Encoding.ASCII.GetString` of a reference. -/
def asciiGetString (inBytes : Option ByteArr) : Except CodecExn Utf16 :=
  match inBytes with
  | none => .error (.argumentNull "bytes" none)
  | some inBytes => .ok (asciiString inBytes.val)

/-- `ToUu`. -/
def toUu (inBytes : Option ByteArr) (originalUue : Bool) : Except CodecExn Utf16 := do
  let bytStr ← if originalUue then asciiGetString inBytes else Hex16.toHex16 U inBytes
  return E.encodeString bytStr

/-- `FromUu`. -/
def fromUu (uuEncStr : Utf16) (originalUue : Bool) : Except CodecExn Bytes :=
  let plainStr := E.decodeString uuEncStr
  if originalUue then .ok (asciiBytes plainStr) else Hex16.fromHex16 (some plainStr)

/-! ## Which bytes come back -/

/-- Encoding and decoding in one mode give the bytes back. -/
def Recovers (b : ByteArr) (originalUue : Bool) : Prop :=
  ∃ s, toUu E U (some b) originalUue = .ok s ∧ fromUu E s originalUue = .ok b.val

variable {E U}

/-- As text the bytes beyond ASCII are lost. -/
theorem recovers_text_iff (hE : E.RecoversAscii) (b : ByteArr) :
    Recovers E U b true ↔ ∀ x ∈ b.val, x < 128 := by
  have hdecode : fromUu E (E.encodeString (asciiString b.val)) true =
      .ok (asciiBytes (asciiString b.val)) := by
    show Except.ok (asciiBytes (E.decodeString (E.encodeString (asciiString b.val)))) = _
    rw [hE _ (ascii_asciiString b.val)]
  rw [← asciiBytes_asciiString_iff]
  constructor
  · rintro ⟨s, hs, hread⟩
    obtain rfl : E.encodeString (asciiString b.val) = s := Except.ok.inj hs
    exact Except.ok.inj (hdecode.symm.trans hread)
  · intro h
    exact ⟨_, rfl, hdecode.trans (congrArg Except.ok h)⟩

/-- As hexadecimal digits all bytes come back. -/
theorem recovers_digits (hE : E.RecoversAscii) {b : ByteArr} (hb : b.val ≠ []) :
    Recovers E U b false := by
  obtain ⟨f, hf, hs⟩ := encode_digits U (List.mem_cons_of_mem _ List.mem_cons_self) hb
  have hdigits := hexDigits_digitsOf hf b.val
  have hlen := length_digitsOf f b.val
  have hpos := List.length_pos_iff.2 hb
  have hne : digitsOf f b.val ≠ [] := List.length_pos_iff.1 (by omega)
  have hread : Hex16.fromHex16 (some (digitsOf f b.val)) = .ok (pairsOf (digitsOf f b.val)) :=
    decode_even (by simp) hne (by omega) hdigits
  refine ⟨E.encodeString (digitsOf f b.val), ?_, ?_⟩
  · show (Hex16.toHex16 U (some b) >>= fun s => Except.ok (E.encodeString s)) = _
    rw [hs, ok_bind]
  · show Hex16.fromHex16 (some (E.decodeString (E.encodeString (digitsOf f b.val)))) = _
    rw [hE _ (hexDigits_lt_128 hdigits), hread, pairsOf_digitsOf hf]

/-- **Which bytes come back**: all of them as hexadecimal digits, those of ASCII as text. -/
theorem fromUu_toUu_iff (E : UUEncoder) (hE : E.RecoversAscii) (U : CharClasses) (b : ByteArr)
    (hb : b.val ≠ []) (originalUue : Bool) :
    Recovers E U b originalUue ↔ (originalUue = true → ∀ x ∈ b.val, x < 128) := by
  cases originalUue with
  | true =>
    rw [recovers_text_iff hE]
    exact ⟨fun h _ => h, fun h => h rfl⟩
  | false => exact iff_of_true (recovers_digits hE hb) fun h => absurd h Bool.false_ne_true

/-- A line of text, as text. -/
theorem fromUu_toUu_text :
    Recovers .lines .latin1 ⟨[67, 97, 116], by decide⟩ true :=
  (fromUu_toUu_iff .lines UUEncoder.recoversAscii_lines .latin1 ⟨[67, 97, 116], by decide⟩
    (by decide) true).2 fun _ => List.all_iff_forall_prop.1 (by decide)

/-- A byte beyond ASCII, as text. -/
theorem not_recovers_text : ¬ Recovers .lines .latin1 ⟨[255], by decide⟩ true := by
  rw [recovers_text_iff UUEncoder.recoversAscii_lines]
  exact fun h => absurd (h 255 List.mem_cons_self) (by decide)

end Uu

end EnDeCoding

end Server6
