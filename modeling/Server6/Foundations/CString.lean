import Mathlib.Data.List.Basic
import Mathlib.Tactic.Common

/-!
# Strings in character arrays

A string in an array of bytes ends before the array's first zero byte. `strlen` scans for that byte;
an array without one makes the scan leave the array, which is `none`. `store` writes bytes into an
array, and `overwrite` is an array whose first bytes have been written: what it holds as a string
depends on the old bytes behind them (`cstring_overwrite_iff`).
-/

namespace Server6

/-- The bytes before the first zero byte, counted. -/
def strlen : List UInt8 → Option ℕ
  | [] => none
  | b :: bs => if b = 0 then some 0 else (strlen bs).map (· + 1)

/-- The scan leaves an array exactly when the array has no zero byte. -/
theorem strlen_eq_none_iff {bs : List UInt8} : strlen bs = none ↔ 0 ∉ bs := by
  induction bs with
  | nil => simp [strlen]
  | cons b bs ih =>
    rw [strlen, List.mem_cons, not_or]
    split_ifs with hb
    · simp [hb]
    · rw [Option.map_eq_none_iff, ih]
      exact (and_iff_right fun h => hb h.symm).symm

/-- A string lies in its array. -/
theorem lt_length_of_strlen {bs : List UInt8} {n : ℕ} (h : strlen bs = some n) : n < bs.length := by
  induction bs generalizing n with
  | nil => cases h
  | cons b bs ih =>
    rw [strlen] at h
    split_ifs at h with hb
    · obtain rfl := Option.some.inj h
      simp
    · obtain ⟨m, hm, rfl⟩ := Option.map_eq_some_iff.1 h
      simpa using ih hm

/-- Bytes without a zero byte, terminated. -/
theorem strlen_append_zero {bs : List UInt8} (h : 0 ∉ bs) (rest : List UInt8) :
    strlen (bs ++ 0 :: rest) = some bs.length := by
  induction bs with
  | nil => rfl
  | cons b bs ih =>
    rw [List.mem_cons, not_or] at h
    rw [List.cons_append, strlen, if_neg (Ne.symm h.1), ih h.2]
    rfl

/-- A zero byte in the first part ends the string there. -/
theorem strlen_append_of_mem {bs : List UInt8} (h : 0 ∈ bs) (rest : List UInt8) :
    ∃ n < bs.length, strlen (bs ++ rest) = some n := by
  induction bs with
  | nil => cases h
  | cons b bs ih =>
    rcases eq_or_ne b 0 with rfl | hb
    · exact ⟨0, by simp, by rw [List.cons_append, strlen, if_pos rfl]⟩
    · have hmem : 0 ∈ bs := (List.mem_cons.1 h).resolve_left (Ne.symm hb)
      obtain ⟨n, hn, hlen⟩ := ih hmem
      refine ⟨n + 1, by simpa using hn, ?_⟩
      rw [List.cons_append, strlen, if_neg hb, hlen]
      rfl

/-- The string an array holds. -/
def cstring (bs : List UInt8) : Option (List UInt8) := (strlen bs).map bs.take

theorem cstring_append_zero {bs : List UInt8} (h : 0 ∉ bs) (rest : List UInt8) :
    cstring (bs ++ 0 :: rest) = some bs := by
  unfold cstring
  rw [strlen_append_zero h, Option.map_some, List.take_left' rfl]

/-- The string is what stands before the first zero byte. -/
theorem cstring_eq_some_iff {bs s : List UInt8} :
    cstring bs = some s ↔ 0 ∉ s ∧ ∃ rest, bs = s ++ 0 :: rest := by
  constructor
  · induction bs generalizing s with
    | nil => exact fun h => absurd h (by simp [cstring, strlen])
    | cons b bs ih =>
      unfold cstring
      rw [strlen]
      split_ifs with hb
      · rintro h
        obtain rfl : [] = s := Option.some.inj h
        exact ⟨by simp, bs, by rw [hb]; rfl⟩
      · intro h
        obtain ⟨n, hn, rfl⟩ := Option.map_eq_some_iff.1 h
        obtain ⟨m, hm, rfl⟩ := Option.map_eq_some_iff.1 hn
        have htail : cstring bs = some (bs.take m) := by
          unfold cstring
          rw [hm, Option.map_some]
        obtain ⟨hzero, rest, hrest⟩ := ih htail
        refine ⟨?_, rest, ?_⟩
        · rw [List.take_succ_cons, List.mem_cons, not_or]
          exact ⟨Ne.symm hb, hzero⟩
        · rw [List.take_succ_cons, List.cons_append, ← hrest]
  · rintro ⟨hzero, rest, rfl⟩
    exact cstring_append_zero hzero rest

/-! ## Writing into an array -/

/-- The bytes `bs` written from position `pos` on; a write outside the array is `none`. -/
def store (buf : List UInt8) (pos : ℕ) (bs : List UInt8) : Option (List UInt8) :=
  if pos + bs.length ≤ buf.length then some (buf.take pos ++ bs ++ buf.drop (pos + bs.length))
  else none

/-- `strncpy(&buf[pos], src, n)`: exactly `n` bytes, zeros behind a shorter source. -/
def strncpy (buf : List UInt8) (pos : ℕ) (src : List UInt8) (n : ℕ) : Option (List UInt8) :=
  store buf pos (src.take n ++ List.replicate (n - src.length) 0)

/-- An array whose first bytes have been written. -/
def overwrite (bs buf : List UInt8) : List UInt8 := bs ++ buf.drop bs.length

theorem length_overwrite {bs buf : List UInt8} (h : bs.length ≤ buf.length) :
    (overwrite bs buf).length = buf.length := by
  unfold overwrite
  rw [List.length_append, List.length_drop]
  omega

theorem store_zero {bs buf : List UInt8} (h : bs.length ≤ buf.length) :
    store buf 0 bs = some (overwrite bs buf) := by
  unfold store overwrite
  rw [if_pos (by omega), List.take_zero, List.nil_append, Nat.zero_add]

/-- Writing on behind what has been written. -/
theorem store_overwrite {done bs buf : List UInt8} (h : done.length + bs.length ≤ buf.length) :
    store (overwrite done buf) done.length bs = some (overwrite (done ++ bs) buf) := by
  have hlen : (overwrite done buf).length = buf.length := length_overwrite (by omega)
  unfold store
  rw [if_pos (by omega)]
  unfold overwrite
  rw [List.take_left' rfl, ← List.drop_drop, List.drop_left' rfl, List.drop_drop,
    List.length_append]

/-- Behind a string without zero bytes the old content decides where the string ends. -/
theorem cstring_overwrite_iff {done more buf : List UInt8} (h : 0 ∉ done ++ more) :
    cstring (overwrite done buf) = some (done ++ more) ↔
      more ++ [0] <+: buf.drop done.length := by
  rw [cstring_eq_some_iff, and_iff_right h]
  unfold overwrite
  constructor
  · rintro ⟨rest, hrest⟩
    rw [List.append_assoc, List.append_cancel_left_eq] at hrest
    exact ⟨rest, by rw [hrest, List.append_assoc]; rfl⟩
  · rintro ⟨rest, hrest⟩
    refine ⟨rest, ?_⟩
    rw [← hrest, List.append_assoc, List.append_assoc]
    rfl

/-- Zeros from the end of the string on leave the string. -/
theorem strncpy_cstring {buf s : List UInt8} (h : cstring buf = some s) {n : ℕ}
    (hn : s.length + n = buf.length) :
    strncpy buf s.length [] n = some (s ++ List.replicate n 0) := by
  obtain ⟨hzero, rest, rfl⟩ := cstring_eq_some_iff.1 h
  unfold strncpy store
  rw [List.take_nil, List.nil_append, List.length_nil, Nat.sub_zero, List.length_replicate,
    if_pos (by omega), List.take_left' rfl, hn, List.drop_length, List.append_nil]

end Server6
