import Mathlib.Data.List.GetD
import Mathlib.Data.Nat.Bitwise
import Mathlib.Tactic.Common

/-!
# Bit strings and shift registers

A bit string is a list of bits, the most significant first. `bitsOf n x` is the low end of a number,
and `bits n vs` a list of numbers written with `n` bits each, which determines them (`bits_inj`).
`groups n bs` cuts a bit string into groups of `n` bits, the last one filled up with zeros.

A codec between two group sizes keeps the bits it has read and not yet written at the low end of a
register that is never cleared: `bitsOf_shift_or` is what shifting a group in does to them, and
`bitsOf_add` what taking a group out at the top does.
-/

namespace Server6

/-- The lowest `n` bits of `x`. -/
def bitsOf : ℕ → ℕ → List Bool
  | 0, _ => []
  | n + 1, x => x.testBit n :: bitsOf n x

@[simp] theorem length_bitsOf (n x : ℕ) : (bitsOf n x).length = n := by
  induction n with
  | zero => rfl
  | succ n ih => rw [bitsOf, List.length_cons, ih]

theorem getElem?_bitsOf {n i : ℕ} (h : i < n) (x : ℕ) :
    (bitsOf n x)[i]? = some (x.testBit (n - 1 - i)) := by
  induction n generalizing i with
  | zero => omega
  | succ n ih =>
    rcases i with _ | i
    · rfl
    · rw [bitsOf, List.getElem?_cons_succ, ih (by omega)]
      congr 2
      omega

/-- Only the lowest bits count. -/
theorem bitsOf_congr {n x y : ℕ} (h : ∀ i < n, x.testBit i = y.testBit i) :
    bitsOf n x = bitsOf n y := by
  induction n with
  | zero => rfl
  | succ n ih => rw [bitsOf, bitsOf, h n (by omega), ih fun i hi => h i (by omega)]

/-- The upper and the lower part of a low end. -/
theorem bitsOf_add (m n x : ℕ) : bitsOf (m + n) x = bitsOf m (x >>> n) ++ bitsOf n x := by
  induction m with
  | zero => rw [Nat.zero_add]; rfl
  | succ m ih =>
    rw [Nat.add_right_comm, bitsOf, ih, bitsOf, Nat.testBit_shiftRight, Nat.add_comm n m]
    rfl

theorem bitsOf_mod (n x : ℕ) : bitsOf n (x % 2 ^ n) = bitsOf n x := by
  apply bitsOf_congr
  intro i hi
  rw [Nat.testBit_mod_two_pow, decide_eq_true hi, Bool.true_and]

theorem bitsOf_zero (n : ℕ) : bitsOf n 0 = List.replicate n false := by
  induction n with
  | zero => rfl
  | succ n ih => rw [bitsOf, ih, Nat.zero_testBit, List.replicate_succ]

/-- Numbers of `n` bits are determined by them. -/
theorem bitsOf_inj {n x y : ℕ} (hx : x < 2 ^ n) (hy : y < 2 ^ n) (h : bitsOf n x = bitsOf n y) :
    x = y := by
  apply Nat.eq_of_testBit_eq
  intro i
  by_cases hi : i < n
  · have hget := congrArg (·[n - 1 - i]?) h
    simp only [getElem?_bitsOf (show n - 1 - i < n by omega), Option.some.injEq] at hget
    rwa [show n - 1 - (n - 1 - i) = i by omega] at hget
  · rw [Nat.testBit_lt_two_pow (hx.trans_le (Nat.pow_le_pow_right (by omega) (by omega))),
      Nat.testBit_lt_two_pow (hy.trans_le (Nat.pow_le_pow_right (by omega) (by omega)))]

/-! ## Lists of numbers -/

/-- Numbers written with `n` bits each. -/
def bits (n : ℕ) (vs : List ℕ) : List Bool := vs.flatMap (bitsOf n)

@[simp] theorem bits_nil (n : ℕ) : bits n [] = [] := rfl

theorem bits_cons (n v : ℕ) (vs : List ℕ) : bits n (v :: vs) = bitsOf n v ++ bits n vs :=
  List.flatMap_cons

theorem bits_append (n : ℕ) (vs ws : List ℕ) : bits n (vs ++ ws) = bits n vs ++ bits n ws :=
  List.flatMap_append

theorem bits_singleton (n v : ℕ) : bits n [v] = bitsOf n v := by
  rw [bits_cons, bits_nil, List.append_nil]

@[simp] theorem length_bits (n : ℕ) (vs : List ℕ) : (bits n vs).length = n * vs.length := by
  induction vs with
  | nil => rfl
  | cons v vs ih =>
    rw [bits_cons, List.length_append, length_bitsOf, ih, List.length_cons, Nat.mul_succ]
    omega

/-- A bit string that continues a list of numbers of `n` bits determines them. -/
theorem bits_inj {n : ℕ} {vs ws : List ℕ} {cs ds : List Bool} (hlen : vs.length = ws.length)
    (hvs : ∀ v ∈ vs, v < 2 ^ n) (hws : ∀ w ∈ ws, w < 2 ^ n)
    (h : bits n vs ++ cs = bits n ws ++ ds) : vs = ws ∧ cs = ds := by
  induction vs generalizing ws with
  | nil =>
    obtain rfl := List.length_eq_zero_iff.1 hlen.symm
    exact ⟨rfl, h⟩
  | cons v vs ih =>
    obtain ⟨w, ws, rfl⟩ := List.exists_cons_of_length_eq_add_one hlen.symm
    rw [bits_cons, bits_cons, List.append_assoc, List.append_assoc] at h
    obtain ⟨hhead, htail⟩ := List.append_inj h (by rw [length_bitsOf, length_bitsOf])
    obtain rfl := bitsOf_inj (hvs v (by simp)) (hws w (by simp)) hhead
    obtain ⟨rfl, hrest⟩ := ih (by simpa using hlen) (fun v' hv' => hvs v' (by simp [hv']))
      (fun w' hw' => hws w' (by simp [hw'])) htail
    exact ⟨rfl, hrest⟩

theorem getD_bits {n i j : ℕ} {vs : List ℕ} (hi : i < vs.length) (hj : j < n) :
    (bits n vs)[n * i + j]? = some (vs[i].testBit (n - 1 - j)) := by
  induction vs generalizing i with
  | nil => exact absurd hi (by simp)
  | cons v vs ih =>
    rw [bits_cons]
    rcases i with _ | i
    · rw [Nat.mul_zero, Nat.zero_add, List.getElem?_append_left (by rwa [length_bitsOf]),
        getElem?_bitsOf hj]
      rfl
    · have hle : n ≤ n * (i + 1) + j := by
        rw [Nat.mul_succ]
        omega
      have hsub : n * (i + 1) + j - n = n * i + j := by
        rw [Nat.mul_succ]
        omega
      rw [List.getElem?_append_right (by rwa [length_bitsOf]), length_bitsOf, hsub,
        ih (by simpa using hi)]
      rfl

/-- The bits of one number of a list. -/
theorem take_drop_bits {n j : ℕ} {vs : List ℕ} (hj : j < vs.length) (rest : List Bool) :
    ((bits n vs ++ rest).drop (n * j)).take n = bitsOf n vs[j] := by
  have hfront : (bits n (vs.take j)).length = n * j := by
    rw [length_bits, List.length_take_of_le hj.le]
  have hsplit : bits n vs = bits n (vs.take j) ++ (bitsOf n vs[j] ++ bits n (vs.drop (j + 1))) := by
    rw [← bits_cons, ← List.drop_eq_getElem_cons hj, ← bits_append, List.take_append_drop]
  rw [hsplit, List.append_assoc, List.drop_left' hfront, List.append_assoc,
    List.take_left' (length_bitsOf _ _)]

/-! ## Groups -/

/-- The number a bit string denotes. -/
def ofBits (bs : List Bool) : ℕ := bs.foldl (fun x b => 2 * x + b.toNat) 0

/-- The groups of `n` bits of a bit string; zeros fill up the last one. -/
def groups (n : ℕ) (bs : List Bool) : List (List Bool) :=
  (List.range ((bs.length + n - 1) / n)).map fun i =>
    (List.range n).map fun j => bs.getD (n * i + j) false

theorem foldl_bits (bs : List Bool) (x : ℕ) :
    bs.foldl (fun x b => 2 * x + b.toNat) x = x * 2 ^ bs.length + ofBits bs := by
  induction bs generalizing x with
  | nil => simp [ofBits]
  | cons b bs ih =>
    have hcons : ofBits (b :: bs) = b.toNat * 2 ^ bs.length + ofBits bs := by
      show bs.foldl _ (2 * 0 + b.toNat) = _
      rw [ih, Nat.mul_zero, Nat.zero_add]
    rw [List.foldl_cons, ih, hcons, List.length_cons, Nat.pow_succ, Nat.add_mul, Nat.mul_comm 2 x,
      Nat.mul_assoc, Nat.mul_comm 2, Nat.add_assoc]

/-- A number of `n` bits is read back from them. -/
theorem ofBits_bitsOf (n x : ℕ) : ofBits (bitsOf n x) = x % 2 ^ n := by
  induction n with
  | zero => rw [Nat.pow_zero, Nat.mod_one]; rfl
  | succ n ih =>
    show (bitsOf n x).foldl _ (2 * 0 + (x.testBit n).toNat) = _
    rw [foldl_bits, ih, length_bitsOf, Nat.mod_pow_succ, Nat.toNat_testBit, Nat.mul_zero,
      Nat.zero_add, Nat.mul_comm, Nat.add_comm]

/-- **The groups of a bit string** are the numbers that it is written with when at most some zeros of
the last group are missing. -/
theorem groups_eq {n pad : ℕ} {bs : List Bool} {vs : List ℕ} (hpad : pad < n)
    (h : bits n vs = bs ++ List.replicate pad false) : groups n bs = vs.map (bitsOf n) := by
  have hlen : n * vs.length = bs.length + pad := by
    rw [← length_bits, h, List.length_append, List.length_replicate]
  have hcount : (bs.length + n - 1) / n = vs.length := by
    apply Nat.div_eq_of_lt_le
    · rw [Nat.mul_comm]
      omega
    · rw [Nat.succ_mul, Nat.mul_comm]
      omega
  unfold groups
  rw [hcount]
  apply List.ext_getElem
  · simp
  · intro i hi hi'
    have hi : i < vs.length := by simpa using hi
    rw [List.getElem_map, List.getElem_map, List.getElem_range]
    apply List.ext_getElem?
    intro j
    by_cases hj : j < n
    · have hbit : bs.getD (n * i + j) false = vs[i].testBit (n - 1 - j) := by
        have hget := getD_bits hi hj
        rw [h] at hget
        rw [List.getD_eq_getElem?_getD]
        by_cases hin : n * i + j < bs.length
        · rw [List.getElem?_append_left hin] at hget
          rw [hget, Option.getD_some]
        · rw [List.getElem?_append_right (Nat.le_of_not_lt hin), List.getElem?_replicate] at hget
          rw [List.getElem?_eq_none (Nat.le_of_not_lt hin), Option.getD_none]
          split_ifs at hget
          exact Option.some.inj hget
      rw [List.getElem?_map, List.getElem?_range hj, getElem?_bitsOf hj, Option.map_some, hbit]
    · rw [List.getElem?_eq_none (by simpa using hj), List.getElem?_eq_none (by simpa using hj)]

/-! ## The shift register -/

/-- **Shifting in**: a number of `k` bits goes behind the bits that are there. -/
theorem bitsOf_shift_or {w n k : ℕ} (x d : BitVec w) (hw : n + k ≤ w) (hd : d.toNat < 2 ^ k) :
    bitsOf (n + k) (x <<< k ||| d).toNat = bitsOf n x.toNat ++ bitsOf k d.toNat := by
  rw [bitsOf_add]
  congr 1
  · apply bitsOf_congr
    intro i hi
    have hhigh : d.toNat.testBit (k + i) = false :=
      Nat.testBit_lt_two_pow (hd.trans_le (Nat.pow_le_pow_right (by omega) (by omega)))
    rw [Nat.testBit_shiftRight, BitVec.toNat_or, Nat.testBit_or, hhigh, Bool.or_false,
      BitVec.testBit_toNat, BitVec.testBit_toNat, BitVec.getLsbD_shiftLeft]
    simp only [show k + i < w by omega, show ¬ k + i < k by omega, decide_true, decide_false,
      Bool.not_false, Bool.true_and, Nat.add_sub_cancel_left]
  · apply bitsOf_congr
    intro i hi
    rw [BitVec.toNat_or, Nat.testBit_or, BitVec.testBit_toNat, BitVec.getLsbD_shiftLeft]
    simp only [hi, decide_true, Bool.not_true, Bool.and_false, Bool.false_and, Bool.false_or]

/-- Shifting zeros in. -/
theorem bitsOf_shift {w n k : ℕ} (x : BitVec w) (hw : n + k ≤ w) :
    bitsOf (n + k) (x <<< k).toNat = bitsOf n x.toNat ++ List.replicate k false := by
  have h := bitsOf_shift_or x 0#w hw (Nat.two_pow_pos k)
  rwa [BitVec.or_zero, BitVec.toNat_ofNat, Nat.zero_mod, bitsOf_zero] at h

/-- **Taking out**: an arithmetic shift brings the upper bits of a low end down unchanged. -/
theorem bitsOf_sshiftRight {w k n : ℕ} (x : BitVec w) (hw : k + n ≤ w) :
    bitsOf k (x.sshiftRight n).toNat = bitsOf k (x.toNat >>> n) := by
  apply bitsOf_congr
  intro i hi
  rw [BitVec.testBit_toNat, BitVec.getLsbD_sshiftRight, Nat.testBit_shiftRight,
    BitVec.testBit_toNat]
  simp only [show n + i < w by omega, show ¬ w ≤ i by omega, decide_false, Bool.not_false,
    Bool.true_and, if_true]

end Server6
