import Mathlib.Data.Nat.Digits.Defs
import Server6.CServer.Client6

/-!
# The port argument

`main` of the servers and of `client6` read the port from `argv[2]` with the same expression: `atol`,
cut to 16 bits, and the default port where less than 2 is left.

* `atol_decimal` is the value of a text that begins with a decimal number, which is limited to the
  range of a `long`.
* `tcp6port_decimal` is the port of such a text, and when it is the number that the text names.
-/

namespace Server6

namespace CServer

/-- The default port. -/
def TCPv6_PORT : ℕ := 7777

/-- The largest `long`. -/
def LONG_MAX : ℕ := 2 ^ 63 - 1

def isspace (c : UInt8) : Bool := c = 32 || (9 ≤ c && c ≤ 13)

def isdigit (c : UInt8) : Bool := 48 ≤ c && c ≤ 57

/-- The number that the digits up to the first other character go on with, after `v`. -/
def digits (v : ℕ) : List UInt8 → ℕ
  | [] => v
  | c :: cs => if isdigit c then digits (10 * v + (c.toNat - 48)) cs else v

/-- `atol`: white space, a sign, and digits. A number out of range gives the nearest `long`. -/
def atol (text : List UInt8) : Int :=
  match text.dropWhile isspace with
  | 45 :: cs => -(min (digits 0 cs) (LONG_MAX + 1) : ℕ)
  | 43 :: cs => (min (digits 0 cs) LONG_MAX : ℕ)
  | cs => (min (digits 0 cs) LONG_MAX : ℕ)

/-- A `long` as a `uint16_t`, or the default port. -/
def portOf (v : Int) : ℕ :=
  let port := (v % 65536).toNat
  if port < 2 then TCPv6_PORT else port

/-- `tcp6port`, once `main` has read its arguments. -/
def tcp6port (argv : List Client6.CStr) : ℕ :=
  match argv[2]? with
  | some text => portOf (atol text.val)
  | none => TCPv6_PORT

/-! ## Decimal numbers -/

/-- The digits of a number, the first one first. -/
def decimal (n : ℕ) : List UInt8 := (Nat.digits 10 n).reverse.map fun d => UInt8.ofNat (d + 48)

theorem toNat_digit {d : ℕ} (h : d < 10) : (UInt8.ofNat (d + 48)).toNat = d + 48 := by
  rw [UInt8.toNat_ofNat', Nat.mod_eq_of_lt (by omega)]

theorem isdigit_digit {d : ℕ} (h : d < 10) : isdigit (UInt8.ofNat (d + 48)) = true := by
  simp only [isdigit, Bool.and_eq_true, decide_eq_true_eq, UInt8.le_iff_toNat_le, toNat_digit h]
  simp only [UInt8.reduceToNat]
  omega

/-- Digits are read from the left. -/
theorem digits_map {ds : List ℕ} (hds : ∀ d ∈ ds, d < 10) {rest : List UInt8}
    (hrest : ∀ c ∈ rest.head?, isdigit c = false) (v : ℕ) :
    digits v (ds.map (fun d => UInt8.ofNat (d + 48)) ++ rest) =
      ds.foldl (fun v d => 10 * v + d) v := by
  induction ds generalizing v with
  | nil =>
    cases rest with
    | nil => rfl
    | cons c cs =>
      have hc : isdigit c = false := hrest c rfl
      simp [digits, hc]
  | cons d ds ih =>
    have hd : d < 10 := hds d (by simp)
    rw [List.map_cons, List.cons_append, digits, if_pos (isdigit_digit hd), toNat_digit hd,
      Nat.add_sub_cancel, ih fun e he => hds e (by simp [he])]
    rfl

theorem foldl_digits (n : ℕ) : (Nat.digits 10 n).reverse.foldl (fun v d => 10 * v + d) 0 = n := by
  rw [List.foldl_reverse]
  have hfoldr : ∀ ds : List ℕ, ds.foldr (fun d v => 10 * v + d) 0 = Nat.ofDigits 10 ds := by
    intro ds
    induction ds with
    | nil => rfl
    | cons d ds ih =>
      rw [List.foldr_cons, ih, Nat.ofDigits_cons]
      exact Nat.add_comm _ _
  rw [hfoldr, Nat.ofDigits_digits]

theorem digits_zeros (zeros : ℕ) (cs : List UInt8) :
    digits 0 (List.replicate zeros 48 ++ cs) = digits 0 cs := by
  induction zeros with
  | zero => rfl
  | succ zeros ih =>
    rw [List.replicate_succ, List.cons_append, digits]
    exact ih

/-- A decimal number, with or without leading zeros. -/
theorem digits_decimal (zeros n : ℕ) {rest : List UInt8}
    (hrest : ∀ c ∈ rest.head?, isdigit c = false) :
    digits 0 (List.replicate zeros 48 ++ (decimal n ++ rest)) = n := by
  rw [digits_zeros, decimal, digits_map _ hrest, foldl_digits]
  intro d hd
  exact Nat.digits_lt_base (by decide) (List.mem_reverse.1 hd)

/-! ## What is read of a text -/

/-- The sign before a number. -/
inductive Sign
  | none
  | plus
  | minus
  deriving DecidableEq, Repr

namespace Sign

def text : Sign → List UInt8
  | .none => []
  | .plus => [43]
  | .minus => [45]

/-- A number with this sign, in the range of a `long`. -/
def long (n : ℕ) : Sign → Int
  | .none => (min n LONG_MAX : ℕ)
  | .plus => (min n LONG_MAX : ℕ)
  | .minus => -(min n (LONG_MAX + 1) : ℕ)

end Sign

/-- A text that begins with a decimal number: white space, a sign, leading zeros, the digits of
`n`, and anything that is not a digit. -/
structure Decimal where
  space : List UInt8
  sign : Sign
  zeros : ℕ
  n : ℕ
  rest : List UInt8
  isspace : ∀ c ∈ space, CServer.isspace c
  digit : 0 < zeros ∨ 0 < n
  ends : ∀ c ∈ rest.head?, isdigit c = false

namespace Decimal

variable (t : Decimal)

/-- The number and what follows. -/
def number : List UInt8 := List.replicate t.zeros 48 ++ (decimal t.n ++ t.rest)

def text : List UInt8 := t.space ++ (t.sign.text ++ t.number)

theorem head_number : ∃ c cs, t.number = c :: cs ∧ isdigit c = true := by
  rcases Nat.eq_zero_or_pos t.zeros with hzeros | hzeros
  · have hn : 0 < t.n := t.digit.resolve_left (by omega)
    have hne : (Nat.digits 10 t.n).reverse ≠ [] := by
      simpa [Nat.digits_eq_nil_iff_eq_zero] using Nat.ne_of_gt hn
    obtain ⟨d, ds, hds⟩ := List.exists_cons_of_ne_nil hne
    have hd : d < 10 := Nat.digits_lt_base (by decide) (List.mem_reverse.1 (hds ▸ List.mem_cons_self))
    exact ⟨_, _, by rw [number, hzeros, decimal, hds]; rfl, isdigit_digit hd⟩
  · obtain ⟨m, hm⟩ := Nat.exists_eq_succ_of_ne_zero (Nat.ne_of_gt hzeros)
    exact ⟨48, _, by rw [number, hm, List.replicate_succ]; rfl, by decide⟩

theorem notSpace_of_isdigit {c : UInt8} (h : isdigit c = true) : CServer.isspace c = false := by
  simp only [isdigit, CServer.isspace, Bool.and_eq_true, decide_eq_true_eq, Bool.or_eq_false_iff,
    Bool.and_eq_false_imp, decide_eq_false_iff_not, UInt8.le_iff_toNat_le,
    ← UInt8.toNat_inj] at h ⊢
  simp only [UInt8.reduceToNat] at h ⊢
  omega

/-- The white space is skipped. -/
theorem dropWhile_text : t.text.dropWhile CServer.isspace = t.sign.text ++ t.number := by
  obtain ⟨c, cs, hnumber, hdigit⟩ := t.head_number
  have hstop : ∀ c cs, CServer.isspace c = false →
      (t.space ++ c :: cs).dropWhile CServer.isspace = c :: cs := by
    intro c cs hc
    rw [List.dropWhile_append_of_pos t.isspace, List.dropWhile_cons_of_neg (by simp [hc])]
  cases hsign : t.sign with
  | none =>
    rw [text, hsign, hnumber]
    exact hstop c cs (notSpace_of_isdigit hdigit)
  | plus =>
    rw [text, hsign]
    exact hstop 43 _ (by decide)
  | minus =>
    rw [text, hsign]
    exact hstop 45 _ (by decide)

theorem digits_number : digits 0 t.number = t.n := digits_decimal t.zeros t.n t.ends

/-- **The value of a text.** -/
theorem atol_decimal : atol t.text = t.sign.long t.n := by
  unfold atol
  rw [t.dropWhile_text]
  cases hsign : t.sign with
  | none =>
    obtain ⟨c, cs, hnumber, hdigit⟩ := t.head_number
    have hplus : c ≠ 43 := by
      rintro rfl
      cases hdigit
    have hminus : c ≠ 45 := by
      rintro rfl
      cases hdigit
    have hvalue := t.digits_number
    rw [hnumber] at hvalue
    show (match ([] ++ t.number : List UInt8) with | 45 :: cs => _ | 43 :: cs => _ | cs => _) = _
    rw [List.nil_append, hnumber]
    simp only [Sign.long]
    split
    · rename_i heq
      exact absurd (List.cons.inj heq).1 hminus
    · rename_i heq
      exact absurd (List.cons.inj heq).1 hplus
    · rw [hvalue]
  | plus =>
    show ((min (digits 0 t.number) LONG_MAX : ℕ) : Int) = _
    rw [t.digits_number]
    rfl
  | minus =>
    show -((min (digits 0 t.number) (LONG_MAX + 1) : ℕ) : Int) = _
    rw [t.digits_number]
    rfl

end Decimal

/-! ## The port -/

/-- A port is never 0 or 1. -/
theorem portOf_range (v : Int) : 2 ≤ portOf v ∧ portOf v < 65536 := by
  have hnonneg := Int.emod_nonneg v (b := 65536) (by decide)
  have hlt := Int.emod_lt_of_pos v (b := 65536) (by decide)
  simp only [portOf, TCPv6_PORT]
  split_ifs with h
  · omega
  · omega

/-- A number without a minus is its own port exactly if it is in the range of ports. -/
theorem portOf_eq_iff (n : ℕ) :
    portOf (min n LONG_MAX : ℕ) = n ↔ 2 ≤ n ∧ n < 65536 := by
  have hrange := portOf_range (min n LONG_MAX : ℕ)
  constructor
  · intro h
    rwa [h] at hrange
  · rintro ⟨hle, hlt⟩
    have hmin : min n LONG_MAX = n := Nat.min_eq_left (by unfold LONG_MAX; omega)
    have hmod : ((n : Int) % 65536).toNat = n := by omega
    rw [hmin]
    unfold portOf
    rw [hmod, if_neg (by omega)]

theorem portOf_long_max {n : ℕ} (h : LONG_MAX ≤ n) : portOf (min n LONG_MAX : ℕ) = 65535 := by
  rw [Nat.min_eq_right h]
  rfl

/-- **The port of a decimal number**: its value modulo 2^16, or the default port where less than 2 is
left, so that it is never 0 or 1. It is the number itself exactly if that is from 2 to 65535, and
65535 for every number from the largest `long` on. -/
theorem tcp6port_decimal (t : Decimal) (argv : List Client6.CStr)
    (h : (argv[2]?).map Subtype.val = some t.text) :
    tcp6port argv = portOf (t.sign.long t.n) ∧ 2 ≤ tcp6port argv ∧ tcp6port argv < 65536 ∧
      (t.sign ≠ .minus → (tcp6port argv = t.n ↔ 2 ≤ t.n ∧ t.n < 65536) ∧
        (LONG_MAX ≤ t.n → tcp6port argv = 65535)) := by
  obtain ⟨arg, harg, htext⟩ := Option.map_eq_some_iff.1 h
  have hport : tcp6port argv = portOf (t.sign.long t.n) := by
    rw [tcp6port, harg, ← t.atol_decimal, ← htext]
  rw [hport]
  obtain ⟨hle, hlt⟩ := portOf_range (t.sign.long t.n)
  refine ⟨rfl, hle, hlt, fun hsign => ?_⟩
  have hlong : t.sign.long t.n = (min t.n LONG_MAX : ℕ) := by
    cases hs : t.sign with
    | none => rfl
    | plus => rfl
    | minus => exact absurd hs hsign
  rw [hlong]
  exact ⟨portOf_eq_iff t.n, portOf_long_max⟩

/-- The argument `65616`, which is 80 more than the number of ports. -/
theorem tcp6port_decimal_65616 :
    tcp6port [⟨[], by decide⟩, ⟨[], by decide⟩, ⟨[54, 53, 54, 49, 54], by decide⟩] = 80 := by
  have htext : Decimal.text ⟨[], .none, 0, 65616, [], by simp, by simp, by simp⟩ =
      [54, 53, 54, 49, 54] := by
    simp [Decimal.text, Decimal.number, Sign.text, decimal]
  exact (tcp6port_decimal ⟨[], .none, 0, 65616, [], by simp, by simp, by simp⟩
    [⟨[], by decide⟩, ⟨[], by decide⟩, ⟨[54, 53, 54, 49, 54], by decide⟩]
    (congrArg some htext.symm)).1

end CServer

end Server6
