import Server6.SymCipher.Runtime

/-!
# Base64 back and forth

`fromBase64String_toBase64String`: what `Convert.ToBase64String` writes, `Convert.FromBase64String`
reads back.
-/

namespace Server6

theorem base64Value_base64Digit : ∀ n < 64, base64Value (base64Digit n) = some n := by
  decide

/-- A digit is neither padding nor white space. -/
theorem base64Digit_spec : ∀ n < 64, base64Digit n ≠ 61 ∧
    (!(base64Digit n == 32 || base64Digit n == 9 || base64Digit n == 10 ||
      base64Digit n == 13)) = true := by
  decide

/-- A group of four digits is three bytes. -/
theorem base64Groups_cons {x y z w : ℕ} (hx : x < 64) (hy : y < 64) (hz : z < 64) (hw : w < 64)
    (cs : Utf16) :
    base64Groups (base64Digit x :: base64Digit y :: base64Digit z :: base64Digit w :: cs) =
      (base64Groups cs).map fun bs =>
        UInt8.ofNat (x * 4 + y / 16) :: UInt8.ofNat (y % 16 * 16 + z / 4) ::
          UInt8.ofNat (z % 4 * 64 + w) :: bs := by
  have hz61 := (base64Digit_spec z hz).1
  have hw61 := (base64Digit_spec w hw).1
  cases cs with
  | nil =>
    simp [base64Groups, base64Value_base64Digit x hx, base64Value_base64Digit y hy,
      base64Value_base64Digit z hz, base64Value_base64Digit w hw, hz61, hw61]
  | cons c cs =>
    rw [base64Groups, base64Value_base64Digit x hx, base64Value_base64Digit y hy,
      base64Value_base64Digit z hz, base64Value_base64Digit w hw]
    · cases base64Groups (c :: cs) <;> rfl
    · simp

theorem ofNat_eq_of_toNat {n : ℕ} {b : UInt8} (h : n = b.toNat) : UInt8.ofNat n = b := by
  rw [h, UInt8.ofNat_toNat]

/-- The groups that are written are the bytes. -/
theorem base64Groups_toBase64String (bs : Bytes) : base64Groups (toBase64String bs) = some bs := by
  induction bs using toBase64String.induct with
  | case1 => rfl
  | case2 a =>
    have ha := a.toNat_lt
    rw [toBase64String, base64Groups, base64Value_base64Digit _ (by omega),
      base64Value_base64Digit _ (by omega)]
    simp only [Option.bind_eq_bind, Option.bind_some, and_self, if_true]
    rw [ofNat_eq_of_toNat (b := a) (by omega)]
    rfl
  | case3 a b =>
    have ha := a.toNat_lt
    have hb := b.toNat_lt
    rw [toBase64String, base64Groups, base64Value_base64Digit _ (by omega),
      base64Value_base64Digit _ (by omega), base64Value_base64Digit _ (by omega)]
    simp only [Option.bind_eq_bind, Option.bind_some, and_true, if_true]
    rw [if_neg (base64Digit_spec _ (by omega)).1, ofNat_eq_of_toNat (b := a) (by omega),
      ofNat_eq_of_toNat (b := b) (by omega)]
    rfl
  | case4 a b c bs ih =>
    have ha := a.toNat_lt
    have hb := b.toNat_lt
    have hc := c.toNat_lt
    rw [toBase64String, base64Groups_cons (by omega) (by omega) (by omega) (by omega), ih,
      Option.map_some, ofNat_eq_of_toNat (b := a) (by omega),
      ofNat_eq_of_toNat (b := b) (by omega), ofNat_eq_of_toNat (b := c) (by omega)]

/-- No white space is written. -/
theorem filter_toBase64String (bs : Bytes) :
    (toBase64String bs).filter (fun c => !(c == 32 || c == 9 || c == 10 || c == 13)) =
      toBase64String bs := by
  rw [List.filter_eq_self]
  induction bs using toBase64String.induct with
  | case1 => simp [toBase64String]
  | case2 a =>
    have ha := a.toNat_lt
    rw [toBase64String]
    simp only [List.forall_mem_cons]
    exact ⟨(base64Digit_spec _ (by omega)).2, (base64Digit_spec _ (by omega)).2, by decide,
      by decide, by simp⟩
  | case3 a b =>
    have ha := a.toNat_lt
    have hb := b.toNat_lt
    rw [toBase64String]
    simp only [List.forall_mem_cons]
    exact ⟨(base64Digit_spec _ (by omega)).2, (base64Digit_spec _ (by omega)).2,
      (base64Digit_spec _ (by omega)).2, by decide, by simp⟩
  | case4 a b c bs ih =>
    have ha := a.toNat_lt
    have hb := b.toNat_lt
    have hc := c.toNat_lt
    rw [toBase64String]
    simp only [List.forall_mem_cons]
    exact ⟨(base64Digit_spec _ (by omega)).2, (base64Digit_spec _ (by omega)).2,
      (base64Digit_spec _ (by omega)).2, (base64Digit_spec _ (by omega)).2, ih⟩

/-- **The round trip of base64.** -/
theorem fromBase64String_toBase64String (bs : Bytes) :
    fromBase64String (toBase64String bs) = .ok bs := by
  unfold fromBase64String
  rw [filter_toBase64String, base64Groups_toBase64String]

end Server6
