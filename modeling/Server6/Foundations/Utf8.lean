import Server6.Foundations.Utf16

/-!
# Reading UTF-8

`ofUtf8` decodes any bytes. Where they are no UTF-8 it writes the replacement character, once for the
longest beginning of a code point there is, and goes on behind it.

A string is well formed when every surrogate is part of a pair; `ofUtf8_utf8_append` is the round
trip of such strings, and `utf8_of_ascii` the encoding of ASCII strings, which need no decoder.
-/

namespace Server6

namespace Utf16

/-! ## Decoding -/

/-- Read `n` continuation bytes behind a value. -/
def continuations : ℕ → ℕ → List UInt8 → ℕ × List UInt8
  | 0, v, bs => (v, bs)
  | _ + 1, _, [] => (0xFFFD, [])
  | n + 1, v, b :: bs =>
    if 0x80 ≤ b.toNat ∧ b.toNat < 0xC0 then continuations n (v * 0x40 + (b.toNat - 0x80)) bs
    else (0xFFFD, b :: bs)

/-- Whether the second byte fits the first: no overlong form, no surrogate, nothing beyond
U+10FFFF. -/
def secondFits (a b : ℕ) : Prop :=
  (a = 0xE0 → 0xA0 ≤ b) ∧ (a = 0xED → b < 0xA0) ∧ (a = 0xF0 → 0x90 ≤ b) ∧ (a = 0xF4 → b < 0x90)

instance (a b : ℕ) : Decidable (secondFits a b) :=
  inferInstanceAs (Decidable ((_ → _) ∧ (_ → _) ∧ (_ → _) ∧ (_ → _)))

/-- The first code point of some bytes, and the bytes behind it. -/
def nextCodePoint (a : ℕ) (bs : List UInt8) : ℕ × List UInt8 :=
  if a < 0x80 then (a, bs)
  else if 0xC2 ≤ a ∧ a < 0xE0 then continuations 1 (a - 0xC0) bs
  else if 0xE0 ≤ a ∧ a < 0xF5 then
    if secondFits a (bs.headD 0).toNat then
      if a < 0xF0 then continuations 2 (a - 0xE0) bs else continuations 3 (a - 0xF0) bs
    else (0xFFFD, bs)
  else (0xFFFD, bs)

theorem length_continuations_le (n v : ℕ) (bs : List UInt8) :
    (continuations n v bs).2.length ≤ bs.length := by
  induction n generalizing v bs with
  | zero => exact Nat.le_refl _
  | succ n ih =>
    cases bs with
    | nil => exact Nat.le_refl _
    | cons b bs =>
      rw [continuations]
      split_ifs
      · exact Nat.le_trans (ih _ _) (Nat.le_succ _)
      · exact Nat.le_refl _

theorem length_nextCodePoint_le (a : ℕ) (bs : List UInt8) :
    (nextCodePoint a bs).2.length ≤ bs.length := by
  unfold nextCodePoint
  split_ifs
  · exact Nat.le_refl _
  · exact length_continuations_le ..
  · exact length_continuations_le ..
  · exact length_continuations_le ..
  · exact Nat.le_refl _
  · exact Nat.le_refl _

/-- The code points of some bytes. -/
def decode : List UInt8 → List ℕ
  | [] => []
  | a :: bs => (nextCodePoint a.toNat bs).1 :: decode (nextCodePoint a.toNat bs).2
termination_by bs => bs.length
decreasing_by exact Nat.lt_succ_of_le (length_nextCodePoint_le ..)

/-- The code units of a code point. -/
def units (n : ℕ) : Utf16 :=
  if n < 0x10000 then [UInt16.ofNat n]
  else [UInt16.ofNat (0xD800 + (n - 0x10000) / 0x400), UInt16.ofNat (0xDC00 + (n - 0x10000) % 0x400)]

/-- `Encoding.UTF8.GetString`. -/
def ofUtf8 (bs : List UInt8) : Utf16 := (decode bs).flatMap units

/-! ## The bytes of a code point -/

/-- A code point that is no surrogate. -/
def Scalar (n : ℕ) : Prop := n < 0xD800 ∨ 0xE000 ≤ n ∧ n < 0x110000

theorem continuations_cons {n v x : ℕ} (hx : x < 0x40) (bs : List UInt8) :
    continuations (n + 1) v (UInt8.ofNat (0x80 + x) :: bs) = continuations n (v * 0x40 + x) bs := by
  have hnat : (UInt8.ofNat (0x80 + x)).toNat = 0x80 + x :=
    UInt8.toNat_ofNat_of_lt' (show 0x80 + x < 256 by omega)
  rw [continuations, hnat, if_pos (by omega), Nat.add_sub_cancel_left]

/-- **A code point is read back**, whatever follows it. -/
theorem decode_utf8CodePoint {n : ℕ} (hn : Scalar n) (bs : List UInt8) :
    decode (utf8CodePoint n ++ bs) = n :: decode bs := by
  unfold Scalar at hn
  have hnat : ∀ {x : ℕ}, x < 256 → (UInt8.ofNat x).toNat = x := fun hx =>
    UInt8.toNat_ofNat_of_lt' hx
  have hnext : ∀ {a : ℕ} {cs : List UInt8}, a < 256 → nextCodePoint a (cs ++ bs) = (n, bs) →
      decode (UInt8.ofNat a :: cs ++ bs) = n :: decode bs := by
    intro a cs ha h
    rw [List.cons_append, decode, hnat ha, h]
  unfold utf8CodePoint
  split_ifs with h₁ h₂ h₃
  · refine hnext (by omega) ?_
    rw [nextCodePoint, if_pos h₁]
    rfl
  · refine hnext (by omega) ?_
    rw [nextCodePoint, if_neg (by omega), if_pos (by omega), List.cons_append, List.nil_append,
      continuations_cons (by omega), continuations]
    congr 1
    omega
  · refine hnext (by omega) ?_
    have hsecond : secondFits (0xE0 + n / 0x1000) (0x80 + n / 0x40 % 0x40) := by
      unfold secondFits
      omega
    rw [nextCodePoint, if_neg (by omega), if_neg (by omega), if_pos (by omega), List.cons_append,
      List.headD_cons, hnat (by omega), if_pos hsecond, if_pos (by omega),
      continuations_cons (by omega), List.cons_append, List.nil_append,
      continuations_cons (by omega), continuations]
    congr 1
    omega
  · refine hnext (by omega) ?_
    have hsecond : secondFits (0xF0 + n / 0x40000) (0x80 + n / 0x1000 % 0x40) := by
      unfold secondFits
      omega
    rw [nextCodePoint, if_neg (by omega), if_neg (by omega), if_pos (by omega), List.cons_append,
      List.headD_cons, hnat (by omega), if_pos hsecond, if_neg (by omega),
      continuations_cons (by omega), List.cons_append, List.cons_append, List.nil_append,
      continuations_cons (by omega), continuations_cons (by omega), continuations]
    congr 1
    omega

/-! ## Well-formed strings -/

/-- Every surrogate is part of a pair. -/
def WellFormed : Utf16 → Prop
  | [] => True
  | [c] => (isHighSurrogate c || isLowSurrogate c) = false
  | c :: d :: cs =>
    if isHighSurrogate c && isLowSurrogate d then WellFormed cs
    else (isHighSurrogate c || isLowSurrogate c) = false ∧ WellFormed (d :: cs)

theorem single_of_not_surrogate {c : UInt16} (h : (isHighSurrogate c || isLowSurrogate c) = false) :
    Scalar (single c) ∧ units (single c) = [c] := by
  have hc := c.toNat_lt
  unfold single
  rw [h, if_neg Bool.false_ne_true]
  constructor
  · rw [Bool.or_eq_false_iff, ← Bool.not_eq_true, ← Bool.not_eq_true, isHighSurrogate_iff,
      isLowSurrogate_iff] at h
    unfold Scalar
    omega
  · rw [units, if_pos (by omega), UInt16.ofNat_toNat]

/-- The code point of a pair of surrogates. -/
theorem units_pair {c d : UInt16} (hc : isHighSurrogate c = true) (hd : isLowSurrogate d = true) :
    Scalar (0x10000 + (c.toNat - 0xD800) * 0x400 + (d.toNat - 0xDC00)) ∧
      units (0x10000 + (c.toNat - 0xD800) * 0x400 + (d.toNat - 0xDC00)) = [c, d] := by
  rw [isHighSurrogate_iff] at hc
  rw [isLowSurrogate_iff] at hd
  constructor
  · unfold Scalar
    omega
  · have hhigh : 0xD800 + (0x10000 + (c.toNat - 0xD800) * 0x400 + (d.toNat - 0xDC00) - 0x10000) /
        0x400 = c.toNat := by omega
    have hlow : 0xDC00 + (0x10000 + (c.toNat - 0xD800) * 0x400 + (d.toNat - 0xDC00) - 0x10000) %
        0x400 = d.toNat := by omega
    rw [units, if_neg (by omega), hhigh, hlow, UInt16.ofNat_toNat, UInt16.ofNat_toNat]

/-- The code points of a well-formed string are no surrogates, and are written with its units. -/
theorem WellFormed.codePoints {s : Utf16} (h : WellFormed s) :
    (∀ n ∈ codePoints s, Scalar n) ∧ (Utf16.codePoints s).flatMap units = s := by
  induction s using codePoints.induct with
  | case1 => exact ⟨by simp [Utf16.codePoints], rfl⟩
  | case2 c =>
    obtain ⟨hscalar, hunits⟩ := single_of_not_surrogate h
    refine ⟨?_, ?_⟩
    · intro n hn
      rw [List.mem_singleton.1 hn]
      exact hscalar
    · rw [Utf16.codePoints, List.flatMap_cons, hunits]
      rfl
  | case3 c d cs hpair ih =>
    rw [WellFormed, if_pos hpair] at h
    obtain ⟨hscalars, hcs⟩ := ih h
    rw [Bool.and_eq_true] at hpair
    obtain ⟨hscalar, hunits⟩ := units_pair hpair.1 hpair.2
    rw [Utf16.codePoints, if_pos (by rw [hpair.1, hpair.2]; rfl)]
    refine ⟨?_, ?_⟩
    · intro n hn
      rcases List.mem_cons.1 hn with hn | hn
      · rw [hn]
        exact hscalar
      · exact hscalars n hn
    · rw [List.flatMap_cons, hunits, hcs]
      rfl
  | case4 c d cs hpair ih =>
    rw [WellFormed, if_neg hpair] at h
    obtain ⟨hscalars, hcs⟩ := ih h.2
    obtain ⟨hscalar, hunits⟩ := single_of_not_surrogate h.1
    rw [Utf16.codePoints, if_neg hpair]
    refine ⟨?_, ?_⟩
    · intro n hn
      rcases List.mem_cons.1 hn with hn | hn
      · rw [hn]
        exact hscalar
      · exact hscalars n hn
    · rw [List.flatMap_cons, hunits, hcs]
      rfl

theorem decode_flatMap {ns : List ℕ} (h : ∀ n ∈ ns, Scalar n) (bs : List UInt8) :
    decode (ns.flatMap utf8CodePoint ++ bs) = ns ++ decode bs := by
  induction ns with
  | nil => rfl
  | cons n ns ih =>
    rw [List.flatMap_cons, List.append_assoc, decode_utf8CodePoint (h n (by simp)),
      ih fun m hm => h m (by simp [hm])]
    rfl

/-- **The round trip of a well-formed string**, whatever follows its bytes. -/
theorem ofUtf8_utf8_append {s : Utf16} (h : WellFormed s) (bs : List UInt8) :
    ofUtf8 (utf8 s ++ bs) = s ++ ofUtf8 bs := by
  obtain ⟨hscalars, hunits⟩ := h.codePoints
  unfold ofUtf8 utf8
  rw [decode_flatMap hscalars, List.flatMap_append, hunits]

theorem WellFormed.utf8_inj {s t : Utf16} (hs : WellFormed s) (ht : WellFormed t) :
    utf8 s = utf8 t ↔ s = t := by
  constructor
  · intro h
    have hread := ofUtf8_utf8_append hs []
    rw [h, ofUtf8_utf8_append ht []] at hread
    exact (List.append_cancel_right hread).symm
  · exact congrArg utf8

/-- The four bytes of a pair tell its second unit. -/
theorem utf8_pair_inj {c d e : UInt16} (hc : isHighSurrogate c = true)
    (hd : isLowSurrogate d = true) (he : isLowSurrogate e = true) :
    utf8 [c, d] = utf8 [c, e] ↔ d = e := by
  have hpair : ∀ f, isLowSurrogate f = true → WellFormed [c, f] := by
    intro f hf
    rw [WellFormed, hc, hf]
    trivial
  rw [(hpair d hd).utf8_inj (hpair e he)]
  simp

/-- Zero bytes are read as NUL characters. -/
theorem ofUtf8_replicate_zero (n : ℕ) : ofUtf8 (List.replicate n 0) = List.replicate n 0 := by
  induction n with
  | zero => rw [List.replicate_zero, ofUtf8, decode]; rfl
  | succ n ih =>
    have hnext : nextCodePoint (0 : UInt8).toNat (List.replicate n 0) = (0, List.replicate n 0) :=
      rfl
    unfold ofUtf8 at ih ⊢
    rw [List.replicate_succ, decode, hnext, List.flatMap_cons, ih, List.replicate_succ]
    rfl

/-- A zero byte ends a code point that is not complete, as the end of the array does. -/
theorem continuations_append_zeros (n v : ℕ) (bs : List UInt8) (k : ℕ) :
    continuations n v (bs ++ List.replicate k 0) =
      ((continuations n v bs).1, (continuations n v bs).2 ++ List.replicate k 0) := by
  induction n generalizing v bs with
  | zero => rfl
  | succ n ih =>
    cases bs with
    | nil => cases k <;> rfl
    | cons b bs =>
      rw [List.cons_append, continuations, continuations]
      split_ifs
      · exact ih _ _
      · rfl

theorem nextCodePoint_append_zeros (a : ℕ) (bs : List UInt8) (k : ℕ) :
    nextCodePoint a (bs ++ List.replicate k 0) =
      ((nextCodePoint a bs).1, (nextCodePoint a bs).2 ++ List.replicate k 0) := by
  have hhead : (bs ++ List.replicate k 0).headD 0 = bs.headD 0 := by
    cases bs with
    | nil => cases k <;> rfl
    | cons b bs => rfl
  unfold nextCodePoint
  rw [hhead]
  split_ifs <;> first | rfl | exact continuations_append_zeros ..

/-- **Trailing zero bytes are read as trailing NUL characters**, whatever they follow. -/
theorem ofUtf8_append_zeros (bs : List UInt8) (k : ℕ) :
    ofUtf8 (bs ++ List.replicate k 0) = ofUtf8 bs ++ List.replicate k 0 := by
  induction bs using decode.induct with
  | case1 =>
    rw [List.nil_append, ofUtf8_replicate_zero, ofUtf8, decode]
    rfl
  | case2 a bs ih =>
    unfold ofUtf8 at ih ⊢
    rw [List.cons_append, decode, nextCodePoint_append_zeros, List.flatMap_cons, ih, decode,
      List.flatMap_cons, List.append_assoc]

/-! ## ASCII strings -/

theorem not_surrogate_of_ascii {c : UInt16} (h : c < 128) :
    isHighSurrogate c = false ∧ isLowSurrogate c = false := by
  unfold isHighSurrogate isLowSurrogate
  grind

theorem codePoints_cons_of_ascii {c : UInt16} (h : c < 128) (s : Utf16) :
    codePoints (c :: s) = c.toNat :: codePoints s := by
  obtain ⟨hhigh, hlow⟩ := not_surrogate_of_ascii h
  have hsingle : single c = c.toNat := by
    unfold single
    rw [hhigh, hlow]
    rfl
  cases s with
  | nil => exact congrArg (fun n => [n]) hsingle
  | cons d s =>
    rw [codePoints, hhigh, Bool.false_and, if_neg Bool.false_ne_true, hsingle]

theorem wellFormed_cons_of_ascii {c : UInt16} (h : c < 128) (s : Utf16) :
    WellFormed (c :: s) ↔ WellFormed s := by
  obtain ⟨hhigh, hlow⟩ := not_surrogate_of_ascii h
  have hnone : (isHighSurrogate c || isLowSurrogate c) = false := by rw [hhigh, hlow, Bool.false_or]
  cases s with
  | nil => exact iff_of_true hnone trivial
  | cons d s =>
    rw [WellFormed, hnone, hhigh, Bool.false_and, if_neg Bool.false_ne_true]
    exact and_iff_right rfl

theorem codePoints_of_ascii {s : Utf16} (h : ∀ c ∈ s, c < 128) :
    codePoints s = s.map UInt16.toNat := by
  induction s with
  | nil => rfl
  | cons c s ih =>
    rw [List.forall_mem_cons] at h
    rw [codePoints_cons_of_ascii h.1, ih h.2, List.map_cons]

theorem wellFormed_of_ascii {s : Utf16} (h : ∀ c ∈ s, c < 128) : WellFormed s := by
  induction s with
  | nil => exact trivial
  | cons c s ih =>
    rw [List.forall_mem_cons] at h
    exact (wellFormed_cons_of_ascii h.1 s).2 (ih h.2)

/-- An ASCII string is encoded unit by unit. -/
theorem utf8_of_ascii {s : Utf16} (h : ∀ c ∈ s, c < 128) : utf8 s = s.map UInt16.toUInt8 := by
  unfold utf8
  rw [codePoints_of_ascii h, List.flatMap_map, List.map_eq_flatMap]
  apply List.flatMap_congr
  intro c hc
  have hlt := h c hc
  rw [UInt16.lt_iff_toNat_lt] at hlt
  rw [utf8CodePoint, if_pos (show c.toNat < 0x80 from hlt)]
  rfl

end Utf16

end Server6
