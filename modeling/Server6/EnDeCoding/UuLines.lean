import Mathlib.Tactic.Common
import Server6.Foundations.Utf16

/-!
# Uuencoded lines

The format of the helper `UuEncodeBytes`: a line is a character for the number of its bytes and four
characters for every three of them, the last group being filled up with zeros; a character stands
for the six bits of its distance from the blank. A text of up to 45 bytes is one line.

`uuDecode_uuEncode` is the round trip.
-/

namespace Server6

namespace EnDeCoding

/-- The character of six bits. -/
def uuChar (n : ℕ) : UInt16 := UInt16.ofNat (32 + n)

/-- The six bits of a character. -/
def uuValue (c : UInt16) : ℕ := c.toNat - 32

/-- The four characters of three bytes. -/
def uuGroup (a b c : ℕ) : Utf16 :=
  [uuChar (a / 4), uuChar (a % 4 * 16 + b / 16), uuChar (b % 16 * 4 + c / 64), uuChar (c % 64)]

/-- The groups of a line. -/
def uuGroups : List ℕ → Utf16
  | [] => []
  | [a] => uuGroup a 0 0
  | [a, b] => uuGroup a b 0
  | a :: b :: c :: vs => uuGroup a b c ++ uuGroups vs

/-- A line of some bytes. -/
def uuLine (vs : List ℕ) : Utf16 := uuChar vs.length :: uuGroups vs ++ [10]

/-- The lines of a text. -/
def uuEncode (vs : List ℕ) : Utf16 :=
  if vs = [] then [] else uuLine (vs.take 45) ++ uuEncode (vs.drop 45)
termination_by vs.length
decreasing_by
  have hpos := List.length_pos_iff.2 ‹¬ vs = []›
  rw [List.length_drop]
  omega

/-- Read `n` bytes, and what is behind them. -/
def uuRead : ℕ → Utf16 → List ℕ × Utf16
  | 0, s => ([], s)
  | n + 1, w :: x :: y :: z :: s =>
    let (vs, rest) := uuRead (n - 2) s
    (List.take (n + 1) [uuValue w * 4 + uuValue x / 16, uuValue x % 16 * 16 + uuValue y / 4,
      uuValue y % 4 * 64 + uuValue z] ++ vs, rest)
  | _ + 1, s => ([], s)

theorem length_uuRead_le (n : ℕ) (s : Utf16) : (uuRead n s).2.length ≤ s.length := by
  induction n, s using uuRead.induct with
  | case1 s => exact Nat.le_of_eq (by rw [uuRead])
  | case2 n w x y z s ih =>
    rw [uuRead]
    simp only [List.length_cons]
    omega
  | case3 n s hs =>
    have hstop : uuRead (n + 1) s = ([], s) := by
      rw [uuRead]
      exact hs
    exact Nat.le_of_eq (congrArg (fun r => r.2.length) hstop)

/-- The bytes of some lines. -/
def uuDecode : Utf16 → List ℕ
  | [] => []
  | c :: s => (uuRead (uuValue c) s).1 ++ uuDecode ((uuRead (uuValue c) s).2.drop 1)
termination_by s => s.length
decreasing_by
  have hle := length_uuRead_le (uuValue c) s
  rw [List.length_drop, List.length_cons]
  omega

theorem uuValue_uuChar {n : ℕ} (hn : n < 64) : uuValue (uuChar n) = n := by
  unfold uuValue uuChar
  rw [UInt16.toNat_ofNat_of_lt' (show 32 + n < 65536 by omega)]
  omega

/-- A group is read back, as many bytes of it as are asked for. -/
theorem uuRead_uuGroup {a b c : ℕ} (ha : a < 256) (hb : b < 256) (hc : c < 256) (n : ℕ)
    (s : Utf16) : uuRead (n + 1) (uuGroup a b c ++ s) =
      (List.take (n + 1) [a, b, c] ++ (uuRead (n - 2) s).1, (uuRead (n - 2) s).2) := by
  show (List.take (n + 1) [_, _, _] ++ (uuRead (n - 2) s).1, (uuRead (n - 2) s).2) = _
  rw [uuValue_uuChar (by omega), uuValue_uuChar (by omega), uuValue_uuChar (by omega),
    uuValue_uuChar (by omega)]
  congr 4
  · omega
  · congr 1
    · omega
    · congr 1
      omega

theorem uuRead_uuGroups {vs : List ℕ} (h : ∀ v ∈ vs, v < 256) (s : Utf16) :
    uuRead vs.length (uuGroups vs ++ s) = (vs, s) := by
  have hnil : uuRead 0 s = ([], s) := by rw [uuRead]
  induction vs using uuGroups.induct with
  | case1 => exact hnil
  | case2 a =>
    rw [uuGroups, List.length_singleton, uuRead_uuGroup (h a (by simp)) (by decide) (by decide),
      hnil]
    rfl
  | case3 a b =>
    rw [uuGroups, show [a, b].length = 1 + 1 from rfl,
      uuRead_uuGroup (h a (by simp)) (h b (by simp)) (by decide), hnil]
    rfl
  | case4 a b c vs ih =>
    have hlen : (a :: b :: c :: vs).length - 1 - 2 = vs.length := by
      simp only [List.length_cons]
      omega
    rw [uuGroups, List.append_assoc,
      show (a :: b :: c :: vs).length = (a :: b :: c :: vs).length - 1 + 1 from rfl,
      uuRead_uuGroup (h a (by simp)) (h b (by simp)) (h c (by simp)), hlen,
      ih (fun v hv => h v (by simp [hv])), List.take_of_length_le (by simp)]
    rfl

/-- **The lines of a text are read back.** -/
theorem uuDecode_uuEncode {vs : List ℕ} (h : ∀ v ∈ vs, v < 256) : uuDecode (uuEncode vs) = vs := by
  induction vs using uuEncode.induct with
  | case1 => rw [uuEncode, if_pos rfl, uuDecode]
  | case2 vs hne ih =>
    have hsmall : ∀ v ∈ vs.take 45, v < 256 := fun v hv => h v (List.mem_of_mem_take hv)
    have hline := uuRead_uuGroups hsmall ([10] ++ uuEncode (vs.drop 45))
    have hcount : uuValue (uuChar (vs.take 45).length) = (vs.take 45).length := by
      apply uuValue_uuChar
      rw [List.length_take]
      omega
    rw [uuEncode, if_neg hne, uuLine, List.cons_append, List.cons_append, List.append_assoc,
      uuDecode, hcount, hline]
    show vs.take 45 ++ uuDecode (uuEncode (vs.drop 45)) = vs
    rw [ih fun v hv => h v (List.mem_of_mem_drop hv), List.take_append_drop]

end EnDeCoding

end Server6
