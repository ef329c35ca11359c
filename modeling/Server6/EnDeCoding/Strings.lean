import Mathlib.Data.List.Induction
import Server6.EnDeCoding.Text

/-!
# Searching and cutting strings

The members of `String` that the framework cuts texts apart with. An index is an `int`; -1 is what a
search returns for nothing.
-/

namespace Server6

namespace EnDeCoding

/-- `String.Substring(startIndex, length)`. -/
def substring (s : Utf16) (startIndex length : Int) : Except CodecExn Utf16 :=
  if startIndex < 0 ∨ (s.length : Int) < startIndex then
    .error (.argumentOutOfRange "startIndex")
  else if length < 0 ∨ s.length - length < startIndex then .error (.argumentOutOfRange "length")
  else .ok ((s.drop startIndex.toNat).take length.toNat)

/-- `String.Substring(startIndex)`. -/
def substringFrom (s : Utf16) (startIndex : Int) : Except CodecExn Utf16 :=
  substring s startIndex (s.length - startIndex)

/-- `String.IndexOf(char)`. -/
def indexOf (s : Utf16) (value : UInt16) : Int := if value ∈ s then s.idxOf value else -1

/-- `String.LastIndexOf(char)`. -/
def lastIndexOf (s : Utf16) (value : UInt16) : Int :=
  if value ∈ s then s.length - 1 - s.reverse.idxOf value else -1

/-- `String.TrimStart(params char[])`. -/
def trimStartChars (s trimChars : Utf16) : Utf16 := s.dropWhile fun c => trimChars.contains c

/-- `String.TrimEnd(params char[])`. -/
def trimEndChars (s trimChars : Utf16) : Utf16 := s.rdropWhile fun c => trimChars.contains c

/-- `String.Trim(params char[])`. -/
def trimChars (s trimChars : Utf16) : Utf16 := trimEndChars (trimStartChars s trimChars) trimChars

theorem substring_of_le {s : Utf16} {i n : ℕ} (h : i + n ≤ s.length) :
    substring s i n = .ok ((s.drop i).take n) := by
  unfold substring
  rw [if_neg (by omega), if_neg (by omega), Int.toNat_natCast, Int.toNat_natCast]

theorem substringFrom_of_le {s : Utf16} {i : ℕ} (h : i ≤ s.length) :
    substringFrom s i = .ok (s.drop i) := by
  have hlen : (s.length : Int) - i = (s.length - i : ℕ) := by omega
  rw [substringFrom, hlen, substring_of_le (by omega), List.take_of_length_le]
  rw [List.length_drop]

theorem indexOf_pos_iff {s : Utf16} {value : UInt16} :
    0 < indexOf s value ↔ value ∈ s ∧ s.head? ≠ some value := by
  unfold indexOf
  by_cases hmem : value ∈ s
  · rw [if_pos hmem]
    cases s with
    | nil => simp at hmem
    | cons c s =>
      by_cases hc : c = value
      · subst hc
        simp
      · rw [List.idxOf_cons_ne _ hc]
        simp [hc, hmem]
  · rw [if_neg hmem]
    simp [hmem]

theorem lastIndexOf_append {value : UInt16} {t : Utf16} (h : value ∉ t) (s : Utf16) :
    lastIndexOf (s ++ value :: t) value = s.length := by
  have hrev : (s ++ value :: t).reverse = t.reverse ++ value :: s.reverse := by simp
  have hidx : (s ++ value :: t).reverse.idxOf value = t.length := by
    rw [hrev, List.idxOf_append_of_notMem (by simpa using h), List.idxOf_cons_self,
      List.length_reverse, Nat.add_zero]
  unfold lastIndexOf
  rw [if_pos (by simp), hidx, List.length_append, List.length_cons]
  omega

/-- What is left does not begin with one of the characters. -/
theorem notMem_of_head?_trimStartChars {s chars : Utf16} {c : UInt16}
    (hc : c ∈ (trimStartChars s chars).head?) : c ∉ chars := by
  have hnot := List.head?_dropWhile_not (fun c => chars.contains c) s
  unfold trimStartChars at hc
  rw [hc] at hnot
  simpa using hnot

/-- What is left does not end with one of the characters. -/
theorem notMem_of_getLast?_trimEndChars {s chars : Utf16} {c : UInt16}
    (hc : c ∈ (trimEndChars s chars).getLast?) : c ∉ chars := by
  obtain ⟨hne, rfl⟩ := List.mem_getLast?_eq_getLast hc
  exact fun hmem => List.rdropWhile_last_not _ s hne (List.contains_iff_mem.2 hmem)

/-- What has none of the characters at its ends is not trimmed further. -/
theorem trimChars_append {front back mid chars : Utf16} (hfront : ∀ c ∈ front, c ∈ chars)
    (hback : ∀ c ∈ back, c ∈ chars) (hne : mid ≠ []) (hmid : ∀ c ∈ mid, c ∉ chars) :
    trimChars (front ++ mid ++ back) chars = mid := by
  obtain ⟨d, mid, rfl⟩ := List.exists_cons_of_ne_nil hne
  have hstart : trimStartChars (front ++ d :: mid ++ back) chars = d :: mid ++ back := by
    have hd : ¬ chars.contains d = true := by simpa using hmid d List.mem_cons_self
    unfold trimStartChars
    rw [List.append_assoc, List.dropWhile_append_of_pos (by simpa using hfront), List.cons_append,
      List.dropWhile_cons_of_neg hd]
  have hend : ∀ t : Utf16, (∀ c ∈ t, c ∈ chars) →
      trimEndChars (d :: mid ++ t) chars = d :: mid := by
    intro t ht
    unfold trimEndChars
    induction t using List.reverseRecOn with
    | nil =>
      rw [List.append_nil, List.rdropWhile_eq_self_iff]
      intro hne'
      simpa using hmid _ (List.getLast_mem hne')
    | append_singleton t c ih =>
      rw [← List.append_assoc, List.rdropWhile_concat_pos]
      · exact ih fun c hc => ht c (List.mem_append_left _ hc)
      · simpa using ht c (by simp)
  rw [trimChars, hstart, hend back hback]

theorem length_trimChars_le (s chars : Utf16) : (trimChars s chars).length ≤ s.length := by
  unfold trimChars trimEndChars trimStartChars
  exact (List.rdropWhile_prefix _ _).length_le.trans (List.dropWhile_suffix _).length_le

end EnDeCoding

end Server6
