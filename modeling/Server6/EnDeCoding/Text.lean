import Mathlib.Algebra.Group.Nat.Defs
import Mathlib.Data.List.DropRight
import Server6.SymCipher.Runtime

/-!
# The text functions under the codecs

What the classes of `EnDeCoding` use of .NET: their exceptions, byte arrays with an `int` length,
and the classification of characters.

`CharClasses` takes the Unicode tables as arbitrary functions. Of them it is known what they say of
ASCII, that a surrogate is in no class, and that the invariant casing of a string works unit by
unit, where a surrogate stays one (`toUpper_units`).
-/

namespace Server6

namespace EnDeCoding

/-- The exceptions of the codecs, with the parameter they name and the message the code gives. -/
inductive CodecExn
  | argumentNull (paramName : String) (message : Option String)
  | argumentOutOfRange (paramName : Option String)
  | argument
  | format (message : Utf16)
  | overflow
  | indexOutOfRange
  | nullReference
  deriving DecidableEq, Repr

/-- A `byte[]`: its `Length` is an `int`. -/
abbrev ByteArr := { bs : Bytes // bs.length < 2 ^ 31 }

/-- `data.Length`. -/
def ByteArr.length (data : ByteArr) : Int32 := Int32.ofNat data.val.length

/-- A surrogate. -/
def isSurrogate (c : UInt16) : Bool := Utf16.isHighSurrogate c || Utf16.isLowSurrogate c

/-- The classification of UTF-16 units and the invariant casing. -/
structure CharClasses where
  isUpper : UInt16 → Bool
  isLower : UInt16 → Bool
  isDigit : UInt16 → Bool
  isNumber : UInt16 → Bool
  isWhiteSpace : UInt16 → Bool
  upper : UInt16 → UInt16
  lower : UInt16 → UInt16
  /-- `String.ToUpper`. -/
  toUpper : Utf16 → Utf16
  /-- `String.ToLower`. -/
  toLower : Utf16 → Utf16
  isUpper_ascii : ∀ c < 128, isUpper c = decide (65 ≤ c ∧ c ≤ 90)
  isLower_ascii : ∀ c < 128, isLower c = decide (97 ≤ c ∧ c ≤ 122)
  isDigit_ascii : ∀ c < 128, isDigit c = decide (48 ≤ c ∧ c ≤ 57)
  isNumber_ascii : ∀ c < 128, isNumber c = decide (48 ≤ c ∧ c ≤ 57)
  isWhiteSpace_ascii : ∀ c < 128, isWhiteSpace c = decide (9 ≤ c ∧ c ≤ 13 ∨ c = 32)
  upper_ascii : ∀ c < 128, upper c = if 97 ≤ c ∧ c ≤ 122 then c - 32 else c
  lower_ascii : ∀ c < 128, lower c = if 65 ≤ c ∧ c ≤ 90 then c + 32 else c
  isUpper_surrogate : ∀ c, isSurrogate c = true → isUpper c = false
  isLower_surrogate : ∀ c, isSurrogate c = true → isLower c = false
  upper_surrogate : ∀ c, isSurrogate c = true → upper c = c
  toUpper_units : ∀ s, List.Forall₂
    (fun c d => d = upper c ∨ isSurrogate c = true ∧ isSurrogate d = true) s (toUpper s)
  toLower_units : ∀ s, List.Forall₂
    (fun c d => d = lower c ∨ isSurrogate c = true ∧ isSurrogate d = true) s (toLower s)

/-- Upper-casing the letters of ISO 8859-1. -/
def latin1Upper (c : UInt16) : UInt16 :=
  if 97 ≤ c ∧ c ≤ 122 ∨ 224 ≤ c ∧ c ≤ 254 ∧ c ≠ 247 then c - 32
  else if c = 255 then 376
  else if c = 181 then 924
  else c

/-- Lower-casing the letters of ISO 8859-1. -/
def latin1Lower (c : UInt16) : UInt16 :=
  if 65 ≤ c ∧ c ≤ 90 ∨ 192 ≤ c ∧ c ≤ 222 ∧ c ≠ 215 then c + 32 else c

/-- What is said of a string unit by unit holds of a casing that works unit by unit. -/
theorem forall₂_map (f : UInt16 → UInt16) (s : Utf16) : List.Forall₂
    (fun c d => d = f c ∨ isSurrogate c = true ∧ isSurrogate d = true) s (s.map f) := by
  induction s with
  | nil => exact .nil
  | cons c s ih => exact .cons (.inl rfl) ih

/-- The classification of ISO 8859-1. -/
def CharClasses.latin1 : CharClasses where
  isUpper c := decide (65 ≤ c ∧ c ≤ 90 ∨ 192 ≤ c ∧ c ≤ 222 ∧ c ≠ 215)
  isLower c := decide (97 ≤ c ∧ c ≤ 122 ∨ c = 181 ∨ 223 ≤ c ∧ c ≤ 255 ∧ c ≠ 247)
  isDigit c := decide (48 ≤ c ∧ c ≤ 57)
  isNumber c := decide (48 ≤ c ∧ c ≤ 57 ∨ c = 178 ∨ c = 179 ∨ c = 185 ∨ 188 ≤ c ∧ c ≤ 190)
  isWhiteSpace c := decide (9 ≤ c ∧ c ≤ 13 ∨ c = 32 ∨ c = 133 ∨ c = 160)
  upper := latin1Upper
  lower := latin1Lower
  toUpper s := s.map latin1Upper
  toLower s := s.map latin1Lower
  isUpper_ascii c h := by grind
  isLower_ascii c h := by grind
  isDigit_ascii c h := by grind
  isNumber_ascii c h := by grind
  isWhiteSpace_ascii c h := by grind
  upper_ascii c h := by grind [latin1Upper]
  lower_ascii c h := by grind [latin1Lower]
  isUpper_surrogate c h := by grind [isSurrogate, Utf16.isHighSurrogate, Utf16.isLowSurrogate]
  isLower_surrogate c h := by grind [isSurrogate, Utf16.isHighSurrogate, Utf16.isLowSurrogate]
  upper_surrogate c h := by
    grind [isSurrogate, Utf16.isHighSurrogate, Utf16.isLowSurrogate, latin1Upper]
  toUpper_units := forall₂_map latin1Upper
  toLower_units := forall₂_map latin1Lower

/-- The strings differ in letter case at most. -/
def CharClasses.SameUpToCase (U : CharClasses) (s t : Utf16) : Prop := U.toLower s = U.toLower t

/-- `String.Trim`. -/
def CharClasses.trim (U : CharClasses) (s : Utf16) : Utf16 :=
  (s.dropWhile U.isWhiteSpace).rdropWhile U.isWhiteSpace

/-- `String.TrimEnd`. -/
def trimEnd (s : Utf16) (trimChar : UInt16) : Utf16 := s.rdropWhile (· == trimChar)

theorem CharClasses.trim_eq_self {U : CharClasses} {s : Utf16}
    (h : ∀ c ∈ s, U.isWhiteSpace c = false) : U.trim s = s := by
  unfold trim
  rw [List.dropWhile_eq_self_iff.2, List.rdropWhile_eq_self_iff.2]
  · intro hne
    rw [h _ (List.getLast_mem hne)]
    exact Bool.false_ne_true
  · intro hpos
    rw [h _ (List.getElem_mem hpos)]
    exact Bool.false_ne_true

/-- On ASCII a casing works unit by unit. -/
theorem eq_map_of_ascii {f : UInt16 → UInt16} {s t : Utf16} (hs : ∀ c ∈ s, c < 128)
    (h : List.Forall₂ (fun c d => d = f c ∨ isSurrogate c = true ∧ isSurrogate d = true) s t) :
    t = s.map f := by
  induction h with
  | nil => rfl
  | @cons c d s t hcd _ ih =>
    rw [List.map_cons, ih fun c' hc' => hs c' (List.mem_cons_of_mem _ hc')]
    rcases hcd with hd | ⟨hc, -⟩
    · rw [hd]
    · have hlt := hs c List.mem_cons_self
      unfold isSurrogate Utf16.isHighSurrogate Utf16.isLowSurrogate at hc
      grind

theorem CharClasses.toUpper_of_ascii {U : CharClasses} {s : Utf16} (h : ∀ c ∈ s, c < 128) :
    U.toUpper s = s.map U.upper :=
  eq_map_of_ascii h (U.toUpper_units s)

theorem CharClasses.toLower_of_ascii {U : CharClasses} {s : Utf16} (h : ∀ c ∈ s, c < 128) :
    U.toLower s = s.map U.lower :=
  eq_map_of_ascii h (U.toLower_units s)

/-- Padding is trimmed off whole. -/
theorem trimEnd_append_replicate {s : Utf16} {c : UInt16} (h : s.getLast? ≠ some c) (k : ℕ) :
    trimEnd (s ++ List.replicate k c) c = s := by
  unfold trimEnd
  induction k with
  | zero =>
    rw [List.replicate_zero, List.append_nil, List.rdropWhile_eq_self_iff]
    intro hne hlast
    rw [beq_iff_eq] at hlast
    exact h (hlast ▸ List.getLast?_eq_some_getLast hne)
  | succ k ih =>
    rw [List.replicate_succ', ← List.append_assoc, List.rdropWhile_concat_pos, ih]
    exact beq_self_eq_true c

/-- A validator: every character is in the list of the table. -/
def validIn (validCharList : Utf16) (inString : NString) : Except CodecExn Bool :=
  match inString with
  | none => .error .nullReference
  | some inString => .ok (inString.all fun ch => validCharList.contains ch)

theorem validIn_eq_true_iff {validCharList s : Utf16} :
    validIn validCharList (some s) = .ok true ↔ ∀ c ∈ s, c ∈ validCharList := by
  unfold validIn
  rw [Except.ok.injEq, List.all_eq_true]
  simp only [List.contains_iff_mem]

end EnDeCoding

end Server6
