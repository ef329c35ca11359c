import Server6.Foundations.Utf8
import Server6.Framework.Extensions

/-!
# Trimming decrypted bytes

Two functions of `DeEnCoder` take the trailing zero bytes off an array. Both ask `ArrayIndexOf` for
the index of the last byte that is not zero, and both trim only if it is positive; the one that
returns bytes then takes the index for a length.

* `getBytesTrimNulls_eq_iff`: no array of two bytes or more comes back trimmed.
* `getStringFromBytesTrimNulls_eq_iff`: the text is right unless there is something to trim and at
  most one byte to keep.
-/

namespace Server6

namespace DeEnCoder

open Extensions

/-- `GetStringFromBytesTrimNulls`. -/
def getStringFromBytesTrimNulls (decryptedBytes : Option Bytes) : Except Exn Utf16 := do
  let ig ← arrayIndexOf decryptedBytes 0
  if 0 < ig then do
    let decryptedNonNullBytes ← arrayCopy decryptedBytes (ig + 1)
    return Utf16.ofUtf8 decryptedNonNullBytes
  else
    match decryptedBytes with
    | none => .error .argumentNull
    | some bytes => return Utf16.ofUtf8 bytes

/-- `GetBytesTrimNulls`. -/
def getBytesTrimNulls (decryptedBytes : Option Bytes) : Except Exn (Option Bytes) := do
  let ig ← arrayIndexOf decryptedBytes 0
  if 0 < ig then do
    let decryptedNonNullBytes ← arrayCopy decryptedBytes ig
    return some decryptedNonNullBytes
  else return decryptedBytes

/-! ## What they return -/

/-- The array without its trailing zero bytes. -/
def trimmed (bytes : Bytes) : Bytes := bytes.rdropWhile (· == 0)

theorem arrayIndexOf_zero (bytes : Bytes) :
    arrayIndexOf (some bytes) 0 = .ok ((trimmed bytes).length - 1 : Int) := arrayIndexOf_eq bytes 0

theorem trimmed_append_zeros (bytes : Bytes) :
    ∃ k, bytes = trimmed bytes ++ List.replicate k 0 := by
  refine ⟨(bytes.rtakeWhile (· == 0)).length, ?_⟩
  have hzeros : bytes.rtakeWhile (· == 0) =
      List.replicate (bytes.rtakeWhile (· == 0)).length 0 :=
    List.eq_replicate_iff.2 ⟨rfl, fun b hb => by simpa using List.mem_rtakeWhile_imp hb⟩
  rw [← hzeros, trimmed, List.rdropWhile_append_rtakeWhile]

theorem length_trimmed_le (bytes : Bytes) : (trimmed bytes).length ≤ bytes.length :=
  (List.rdropWhile_prefix _ _).length_le

theorem take_length_trimmed (bytes : Bytes) : bytes.take (trimmed bytes).length = trimmed bytes :=
  (List.prefix_iff_eq_take.1 (List.rdropWhile_prefix _ _)).symm

/-- What `GetBytesTrimNulls` returns: one byte too few, or the array itself. -/
theorem getBytesTrimNulls_eq (bytes : Bytes) :
    getBytesTrimNulls (some bytes) = .ok (some (if 1 < (trimmed bytes).length then
      bytes.take ((trimmed bytes).length - 1) else bytes)) := by
  have hle := length_trimmed_le bytes
  rw [getBytesTrimNulls, arrayIndexOf_zero, ok_bind]
  by_cases h : 1 < (trimmed bytes).length
  · have hcast : ((trimmed bytes).length : Int) - 1 = ((trimmed bytes).length - 1 : ℕ) := by omega
    rw [if_pos (by omega), if_pos h, hcast, arrayCopy_some (by omega)]
    rfl
  · rw [if_neg (by omega), if_neg h]
    rfl

/-- What `GetStringFromBytesTrimNulls` returns. -/
theorem getStringFromBytesTrimNulls_eq (bytes : Bytes) :
    getStringFromBytesTrimNulls (some bytes) =
      .ok (Utf16.ofUtf8 (if 1 < (trimmed bytes).length then trimmed bytes else bytes)) := by
  have hle := length_trimmed_le bytes
  rw [getStringFromBytesTrimNulls, arrayIndexOf_zero, ok_bind]
  by_cases h : 1 < (trimmed bytes).length
  · have hcast : ((trimmed bytes).length : Int) - 1 + 1 = ((trimmed bytes).length : ℕ) := by omega
    rw [if_pos (by omega), if_pos h, hcast, arrayCopy_some hle, take_length_trimmed]
    rfl
  · rw [if_neg (by omega), if_neg h]
    rfl

/-! ## When they trim -/

theorem getBytesTrimNulls_eq_iff (bytes : Bytes) :
    getBytesTrimNulls (some bytes) = .ok (some (trimmed bytes)) ↔
      bytes.length ≤ 1 ∧ trimmed bytes = bytes := by
  rw [getBytesTrimNulls_eq, Except.ok.injEq, Option.some.injEq]
  by_cases h : 1 < (trimmed bytes).length
  · have hle := length_trimmed_le bytes
    rw [if_pos h]
    refine iff_of_false (fun heq => ?_) (by omega)
    have hlen := congrArg List.length heq
    rw [List.length_take] at hlen
    omega
  · rw [if_neg h]
    refine ⟨fun heq => ⟨?_, heq.symm⟩, fun heq => heq.2.symm⟩
    rw [heq]
    omega

theorem getStringFromBytesTrimNulls_eq_iff (bytes : Bytes) :
    getStringFromBytesTrimNulls (some bytes) = .ok (Utf16.ofUtf8 (trimmed bytes)) ↔
      1 < (trimmed bytes).length ∨ trimmed bytes = bytes := by
  rw [getStringFromBytesTrimNulls_eq, Except.ok.injEq]
  by_cases h : 1 < (trimmed bytes).length
  · rw [if_pos h]
    exact iff_of_true rfl (.inl h)
  · rw [if_neg h]
    refine ⟨fun heq => .inr ?_, fun heq => by rw [heq.resolve_left h]⟩
    -- the decoder keeps every trailing zero byte as a character
    obtain ⟨k, hk⟩ := trimmed_append_zeros bytes
    rw [congrArg Utf16.ofUtf8 hk, Utf16.ofUtf8_append_zeros, List.append_right_eq_self] at heq
    have hzero : k = 0 := by simpa using heq
    rw [hzero, List.replicate_zero, List.append_nil] at hk
    exact hk.symm

/-- Both functions trim the array: of all its trailing zero bytes, and of nothing else. -/
structure TrimsNulls (bytes : Bytes) : Prop where
  toBytes : getBytesTrimNulls (some bytes) = .ok (some (trimmed bytes))
  toText : getStringFromBytesTrimNulls (some bytes) = .ok (Utf16.ofUtf8 (trimmed bytes))

/-- **When both functions trim an array**: exactly when it is empty, or a single byte that is not
zero. -/
theorem trimsNulls_iff (bytes : Bytes) :
    TrimsNulls bytes ↔ bytes = [] ∨ ∃ b, b ≠ 0 ∧ bytes = [b] := by
  have hboth : TrimsNulls bytes ↔ bytes.length ≤ 1 ∧ trimmed bytes = bytes := by
    rw [← getBytesTrimNulls_eq_iff]
    refine ⟨fun h => h.toBytes, fun h => ⟨h, ?_⟩⟩
    exact (getStringFromBytesTrimNulls_eq_iff bytes).2
      (.inr ((getBytesTrimNulls_eq_iff bytes).1 h).2)
  rw [hboth]
  cases bytes with
  | nil => exact iff_of_true ⟨by decide, rfl⟩ (.inl rfl)
  | cons b bs =>
    cases bs with
    | nil =>
      have hone : trimmed [b] = [b] ↔ b ≠ 0 := by
        by_cases hb : b = 0 <;> simp [trimmed, List.rdropWhile_singleton, hb]
      simp [hone]
    | cons c cs => exact iff_of_false (by simp) (by simp)

/-- The last byte is lost even where there is nothing to trim. -/
theorem not_trimsNulls_text : ¬ TrimsNulls [104, 105] := fun h =>
  absurd ((getBytesTrimNulls_eq_iff [104, 105]).1 h.toBytes).1 (by decide)

end DeEnCoder

end Server6
