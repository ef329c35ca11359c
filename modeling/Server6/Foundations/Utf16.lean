import Mathlib.Data.List.Basic
import Mathlib.Tactic.Common

/-!
# Strings of UTF-16 code units

A managed string is any sequence of 16-bit code units, unpaired surrogates included. `utf8` is its
UTF-8 encoding, with the replacement character for every surrogate that is not part of a pair, so
it is total and `utf8_eq_nil_iff` holds for every string. It is not a homomorphism: the last unit
of one string and the first of the next may form a pair (`joins`). `utf8_append` is the case where
they do not, and `take_utf8_append_iff` how much of the first string's bytes the two have in common
with it in either case.
-/

namespace Server6

/-- A string as its UTF-16 code units. -/
abbrev Utf16 := List UInt16

namespace Utf16

/-- The code units of a character. -/
def ofChar (c : Char) : Utf16 :=
  if c.toNat < 0x10000 then [UInt16.ofNat c.toNat]
  else [UInt16.ofNat (0xD800 + (c.toNat - 0x10000) / 0x400),
    UInt16.ofNat (0xDC00 + (c.toNat - 0x10000) % 0x400)]

/-- The code units of a literal. -/
def ofString (s : String) : Utf16 := s.toList.flatMap ofChar

def isHighSurrogate (c : UInt16) : Bool := 0xD800 ≤ c && c < 0xDC00

def isLowSurrogate (c : UInt16) : Bool := 0xDC00 ≤ c && c < 0xE000

theorem isHighSurrogate_iff {c : UInt16} :
    isHighSurrogate c = true ↔ 0xD800 ≤ c.toNat ∧ c.toNat < 0xDC00 := by
  unfold isHighSurrogate
  simp only [Bool.and_eq_true, decide_eq_true_eq, UInt16.le_iff_toNat_le, UInt16.lt_iff_toNat_lt]
  rfl

theorem isLowSurrogate_iff {c : UInt16} :
    isLowSurrogate c = true ↔ 0xDC00 ≤ c.toNat ∧ c.toNat < 0xE000 := by
  unfold isLowSurrogate
  simp only [Bool.and_eq_true, decide_eq_true_eq, UInt16.le_iff_toNat_le, UInt16.lt_iff_toNat_lt]
  rfl

/-- The code point of a unit on its own: a surrogate is replaced by U+FFFD. -/
def single (c : UInt16) : ℕ :=
  if isHighSurrogate c || isLowSurrogate c then 0xFFFD else c.toNat

/-- The code points of a string. -/
def codePoints : Utf16 → List ℕ
  | [] => []
  | [c] => [single c]
  | c :: d :: cs =>
    if isHighSurrogate c && isLowSurrogate d then
      (0x10000 + (c.toNat - 0xD800) * 0x400 + (d.toNat - 0xDC00)) :: codePoints cs
    else single c :: codePoints (d :: cs)

/-- The UTF-8 bytes of a code point. -/
def utf8CodePoint (n : ℕ) : List UInt8 :=
  if n < 0x80 then [UInt8.ofNat n]
  else if n < 0x800 then [UInt8.ofNat (0xC0 + n / 0x40), UInt8.ofNat (0x80 + n % 0x40)]
  else if n < 0x10000 then
    [UInt8.ofNat (0xE0 + n / 0x1000), UInt8.ofNat (0x80 + n / 0x40 % 0x40),
      UInt8.ofNat (0x80 + n % 0x40)]
  else
    [UInt8.ofNat (0xF0 + n / 0x40000), UInt8.ofNat (0x80 + n / 0x1000 % 0x40),
      UInt8.ofNat (0x80 + n / 0x40 % 0x40), UInt8.ofNat (0x80 + n % 0x40)]

/-- The UTF-8 bytes of a string. -/
def utf8 (s : Utf16) : List UInt8 := (codePoints s).flatMap utf8CodePoint

@[simp] theorem utf8_nil : utf8 [] = [] := rfl

theorem codePoints_ne_nil {s : Utf16} (h : s ≠ []) : codePoints s ≠ [] := by
  match s with
  | [_] => simp [codePoints]
  | _ :: _ :: _ => rw [codePoints]; split <;> simp

theorem utf8CodePoint_ne_nil (n : ℕ) : utf8CodePoint n ≠ [] := by
  unfold utf8CodePoint
  split_ifs <;> simp

/-- A string has no bytes only if it has no code units. -/
@[simp] theorem utf8_eq_nil_iff {s : Utf16} : utf8 s = [] ↔ s = [] := by
  constructor
  · contrapose!
    intro h
    obtain ⟨n, ns, hn⟩ := List.exists_cons_of_ne_nil (codePoints_ne_nil h)
    simp [utf8, hn, utf8CodePoint_ne_nil]
  · rintro rfl
    rfl

theorem length_utf8_pos {s : Utf16} (h : s ≠ []) : 0 < (utf8 s).length :=
  List.length_pos_iff.2 (mt utf8_eq_nil_iff.1 h)

/-! ## The bytes of two strings in a row -/

/-- The last unit of the first string and the first of the second form a pair. -/
def joins (s t : Utf16) : Bool := s.getLast?.any isHighSurrogate && t.head?.any isLowSurrogate

@[simp] theorem joins_cons_cons (c d : UInt16) (s t : Utf16) :
    joins (c :: d :: s) t = joins (d :: s) t := rfl

theorem not_low_of_high {c : UInt16} (h : isHighSurrogate c = true) : isLowSurrogate c = false := by
  rw [isHighSurrogate_iff] at h
  rw [← Bool.not_eq_true, isLowSurrogate_iff]
  omega

theorem not_high_of_low {d : UInt16} (h : isLowSurrogate d = true) : isHighSurrogate d = false := by
  by_contra hhigh
  rw [not_low_of_high (Bool.of_not_eq_false hhigh)] at h
  cases h

theorem codePoints_append {s t : Utf16} (h : joins s t = false) :
    codePoints (s ++ t) = codePoints s ++ codePoints t := by
  induction s using codePoints.induct with
  | case1 => rfl
  | case2 c =>
    cases t with
    | nil => simp [codePoints]
    | cons d ts =>
      have hpair : ¬ (isHighSurrogate c && isLowSurrogate d) = true := by simpa [joins] using h
      rw [List.singleton_append, codePoints, codePoints, if_neg hpair, List.singleton_append]
  | case3 c d cs hpair ih =>
    have hcs : joins cs t = false := by
      rcases cs with _ | ⟨e, es⟩
      · rfl
      · simpa using h
    rw [List.cons_append, List.cons_append, codePoints, if_pos hpair, ih hcs, codePoints,
      if_pos hpair, List.cons_append]
  | case4 c d cs hpair ih =>
    have ih := ih (by simpa using h)
    rw [List.cons_append] at ih
    rw [List.cons_append, List.cons_append, codePoints, if_neg hpair, ih, codePoints,
      if_neg hpair, List.cons_append]

theorem utf8_append {s t : Utf16} (h : joins s t = false) : utf8 (s ++ t) = utf8 s ++ utf8 t := by
  rw [utf8, codePoints_append h, List.flatMap_append]
  rfl

/-- The three bytes of the replacement character. -/
def replacement : List UInt8 := [0xEF, 0xBF, 0xBD]

theorem utf8_single_high {c : UInt16} (h : isHighSurrogate c = true) : utf8 [c] = replacement := by
  rw [utf8, codePoints, single, h, Bool.true_or, if_pos rfl]
  rfl

theorem utf8_single_low {c : UInt16} (h : isLowSurrogate c = true) : utf8 [c] = replacement := by
  rw [utf8, codePoints, single, h, Bool.or_true, if_pos rfl]
  rfl

/-- A pair has four bytes, and the first of them is not that of the replacement character. -/
theorem utf8_pair {c d : UInt16} (hc : isHighSurrogate c = true) (hd : isLowSurrogate d = true) :
    ∃ b bs, utf8 [c, d] = b :: bs ∧ b ≠ 0xEF ∧ bs.length = 3 := by
  have hpair : (isHighSurrogate c && isLowSurrogate d) = true := by rw [hc, hd]; rfl
  have hcode : utf8 [c, d] = utf8CodePoint
      (0x10000 + (c.toNat - 0xD800) * 0x400 + (d.toNat - 0xDC00)) := by
    rw [utf8, codePoints, if_pos hpair]
    exact List.append_nil _
  rw [isHighSurrogate_iff] at hc
  rw [isLowSurrogate_iff] at hd
  rw [hcode, utf8CodePoint, if_neg (by omega), if_neg (by omega), if_neg (by omega)]
  refine ⟨_, _, rfl, fun h => ?_, rfl⟩
  have hnat := congrArg UInt8.toNat h
  rw [UInt8.toNat_ofNat_of_lt' (show _ < 256 by omega)] at hnat
  have hEF : (0xEF : UInt8).toNat = 0xEF := rfl
  omega

theorem joins_eq_true_iff {s t : Utf16} : joins s t = true ↔ ∃ s' c d t', s = s' ++ [c] ∧
    t = d :: t' ∧ isHighSurrogate c = true ∧ isLowSurrogate d = true := by
  constructor
  · intro h
    rw [joins, Bool.and_eq_true] at h
    obtain ⟨c, hc, hhigh⟩ := (Option.any_eq_true _ _).1 h.1
    obtain ⟨d, hd, hlow⟩ := (Option.any_eq_true _ _).1 h.2
    obtain ⟨s', hs⟩ := List.getLast?_eq_some_iff.1 hc
    obtain ⟨t', ht⟩ := List.head?_eq_some_iff.1 hd
    exact ⟨s', c, d, t', hs, ht, hhigh, hlow⟩
  · rintro ⟨s', c, d, t', rfl, rfl, hhigh, hlow⟩
    simp [joins, hhigh, hlow]

theorem utf8_concat_high (s : Utf16) {c : UInt16} (h : isHighSurrogate c = true) :
    utf8 (s ++ [c]) = utf8 s ++ replacement := by
  rw [utf8_append (by simp [joins, not_low_of_high h]), utf8_single_high h]

theorem utf8_cons_low {d : UInt16} (h : isLowSurrogate d = true) (t : Utf16) :
    utf8 (d :: t) = replacement ++ utf8 t := by
  rw [← List.singleton_append, utf8_append (by simp [joins, not_high_of_low h]), utf8_single_low h]

theorem length_utf8_pair {c d : UInt16} (hc : isHighSurrogate c = true)
    (hd : isLowSurrogate d = true) : (utf8 [c, d]).length = 4 := by
  obtain ⟨b, bs, hpair, -, hbs⟩ := utf8_pair hc hd
  rw [hpair, List.length_cons, hbs]

/-- **Two strings that join**: their bytes are those of the first up to its last unit, the four of
the pair, and those of the second behind its first unit. -/
theorem utf8_concat_append_cons (s t : Utf16) {c d : UInt16} (hc : isHighSurrogate c = true)
    (hd : isLowSurrogate d = true) :
    utf8 (s ++ [c] ++ d :: t) = utf8 s ++ (utf8 [c, d] ++ utf8 t) := by
  have hpair : s ++ [c] ++ d :: t = s ++ ([c, d] ++ t) := by simp
  rw [hpair, utf8_append (by simp [joins, not_low_of_high hc]),
    utf8_append (by simp [joins, not_high_of_low hd])]

theorem utf8_append_of_joins {s t : Utf16} (h : joins s t = true) :
    ∃ as b bs cs, utf8 s = as ++ replacement ∧ utf8 t = replacement ++ cs ∧
      utf8 (s ++ t) = as ++ (b :: bs) ++ cs ∧ b ≠ 0xEF ∧ bs.length = 3 := by
  obtain ⟨s, c, d, t, rfl, rfl, hhigh, hlow⟩ := joins_eq_true_iff.1 h
  obtain ⟨b, bs, hpair, hb, hbs⟩ := utf8_pair hhigh hlow
  refine ⟨utf8 s, b, bs, utf8 t, utf8_concat_high s hhigh, utf8_cons_low hlow t, ?_, hb, hbs⟩
  rw [utf8_concat_append_cons s t hhigh hlow, hpair, List.append_assoc]

/-- Appending a string never takes bytes away. -/
theorem length_utf8_le_append (s t : Utf16) : (utf8 s).length ≤ (utf8 (s ++ t)).length := by
  cases h : joins s t with
  | false => simp [utf8_append h]
  | true =>
    obtain ⟨as, b, bs, cs, hs, -, hst, -, hbs⟩ := utf8_append_of_joins h
    simp only [hs, hst, replacement, List.length_append, List.length_cons, List.length_nil]
    omega

/-- **How far the bytes of a string are a prefix of those of a longer one**: all the way, but for the
replacement character of a last unit that becomes part of a pair. -/
theorem take_utf8_append_iff {s t : Utf16} {m : ℕ} (hm : m ≤ (utf8 s).length) :
    (utf8 (s ++ t)).take m = (utf8 s).take m ↔ (joins s t = true → m + 3 ≤ (utf8 s).length) := by
  cases h : joins s t with
  | false =>
    rw [utf8_append h, List.take_append_of_le_length hm]
    simp
  | true =>
    obtain ⟨as, b, bs, cs, hs, -, hst, hb, -⟩ := utf8_append_of_joins h
    rw [hst, hs, List.length_append, List.append_assoc]
    simp only [forall_const, replacement, List.length_cons, List.length_nil]
    constructor
    · intro htake
      by_contra hlong
      -- the first byte of the pair against that of the replacement character
      have hget := congrArg (fun l => l[as.length]?) htake
      simp only [List.getElem?_take_of_lt (show as.length < m by omega),
        List.getElem?_append_right (Nat.le_refl as.length), Nat.sub_self, List.cons_append,
        List.getElem?_cons_zero, Option.some.injEq] at hget
      exact hb hget
    · intro hshort
      rw [List.take_append_of_le_length (by omega), List.take_append_of_le_length (by omega)]

end Utf16

end Server6
