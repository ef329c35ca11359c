import Mathlib.Data.List.Basic
import Mathlib.Tactic.Common

/-!
# Descriptor tables

The open descriptors of a process: cell `n` holds what descriptor `n` refers to. A new descriptor
is the lowest number not in use. Everything is stated through `lookup`, the referent of a number.
-/

namespace Server6

/-- The descriptors of a process. -/
abbrev DescriptorTable (δ : Type) := List (Option δ)

namespace DescriptorTable

variable {δ : Type}

/-- What descriptor `n` refers to, if it is open. -/
def lookup (t : DescriptorTable δ) (n : ℕ) : Option δ := t.getD n none

/-- The lowest number not in use. -/
def lowestFree : DescriptorTable δ → ℕ
  | [] => 0
  | none :: _ => 0
  | some _ :: t => lowestFree t + 1

/-- The table with `d` under the lowest number not in use. -/
def opened (d : δ) : DescriptorTable δ → DescriptorTable δ
  | [] => [some d]
  | none :: t => some d :: t
  | some e :: t => some e :: opened d t

/-- The table without descriptor `n`. -/
def closed (n : ℕ) (t : DescriptorTable δ) : DescriptorTable δ := t.set n none

@[simp] theorem lookup_nil (n : ℕ) : lookup ([] : DescriptorTable δ) n = none := rfl

@[simp] theorem lookup_cons_zero (o : Option δ) (t : DescriptorTable δ) : lookup (o :: t) 0 = o :=
  rfl

@[simp] theorem lookup_cons_succ (o : Option δ) (t : DescriptorTable δ) (n : ℕ) :
    lookup (o :: t) (n + 1) = lookup t n :=
  rfl

theorem lookup_lowestFree (t : DescriptorTable δ) : t.lookup t.lowestFree = none := by
  induction t with
  | nil => rfl
  | cons o t ih => cases o <;> simp [lowestFree, ih]

/-- Every number below it is in use. -/
theorem lookup_ne_none_of_lt {t : DescriptorTable δ} {n : ℕ} (h : n < t.lowestFree) :
    t.lookup n ≠ none := by
  induction t generalizing n with
  | nil => exact absurd h (Nat.not_lt_zero n)
  | cons o t ih =>
    cases o with
    | none => exact absurd h (Nat.not_lt_zero n)
    | some e =>
      cases n with
      | zero => exact Option.some_ne_none e
      | succ n => exact ih (Nat.lt_of_succ_lt_succ h)

/-- Opening adds one descriptor. -/
theorem lookup_opened (d : δ) (t : DescriptorTable δ) (n : ℕ) :
    (t.opened d).lookup n = if n = t.lowestFree then some d else t.lookup n := by
  induction t generalizing n with
  | nil => cases n <;> simp [opened, lowestFree]
  | cons o t ih => cases o <;> cases n <;> simp [opened, lowestFree, ih]

/-- Closing removes one. -/
theorem lookup_closed (n : ℕ) (t : DescriptorTable δ) (m : ℕ) :
    (t.closed n).lookup m = if m = n then none else t.lookup m := by
  simp only [lookup, closed, List.getD_eq_getElem?_getD, List.getElem?_set]
  by_cases h : n = m
  · subst h
    by_cases hlt : n < t.length <;> simp [hlt]
  · simp [h, Ne.symm h]

/-- A number in use is not the next one given out. -/
theorem ne_lowestFree {t : DescriptorTable δ} {n : ℕ} {d : δ} (h : t.lookup n = some d) :
    n ≠ t.lowestFree := by
  rintro rfl
  rw [lookup_lowestFree] at h
  cases h

/-- How many open descriptors refer to something of the kind `p`. -/
def countOpen (p : δ → Bool) (t : DescriptorTable δ) : ℕ := t.countP fun o => o.any p

theorem countOpen_opened (p : δ → Bool) (d : δ) (t : DescriptorTable δ) :
    (t.opened d).countOpen p = t.countOpen p + if p d then 1 else 0 := by
  unfold countOpen
  induction t with
  | nil => simp [opened, List.countP_cons]
  | cons o t ih =>
    cases o with
    | none => simp [opened, List.countP_cons]
    | some e =>
      rw [opened, List.countP_cons, ih, List.countP_cons]
      omega

theorem countOpen_closed (p : δ → Bool) {t : DescriptorTable δ} {n : ℕ} {d : δ}
    (h : t.lookup n = some d) :
    (t.closed n).countOpen p + (if p d then 1 else 0) = t.countOpen p := by
  unfold countOpen closed
  induction t generalizing n with
  | nil => cases h
  | cons o t ih =>
    cases n with
    | zero =>
      obtain rfl : o = some d := h
      simp [List.countP_cons]
    | succ n =>
      rw [lookup_cons_succ] at h
      rw [List.set_cons_succ, List.countP_cons, List.countP_cons, ← ih h]
      omega

/-- No number below one in use is free. -/
def Gapless (t : DescriptorTable δ) : Prop := ∀ n, t.lookup n = none ↔ t.lowestFree ≤ n

theorem gapless_of_lookup {t : DescriptorTable δ} {k : ℕ} (h : ∀ n, t.lookup n = none ↔ k ≤ n) :
    t.lowestFree = k ∧ t.Gapless := by
  have hfree : t.lowestFree = k := by
    have hle := (h _).1 t.lookup_lowestFree
    by_contra hne
    exact lookup_ne_none_of_lt (by omega) ((h k).2 (Nat.le_refl k))
  exact ⟨hfree, fun n => by rw [h, hfree]⟩

/-- Opening uses the next number. -/
theorem Gapless.opened {t : DescriptorTable δ} (h : t.Gapless) (d : δ) :
    (t.opened d).lowestFree = t.lowestFree + 1 ∧ (t.opened d).Gapless := by
  refine gapless_of_lookup fun n => ?_
  rw [lookup_opened]
  split_ifs with hn
  · simp [hn]
  · rw [h n]
    omega

/-- Closing the highest one gives it back. -/
theorem Gapless.closed {t : DescriptorTable δ} (h : t.Gapless) {n : ℕ} (hn : n + 1 = t.lowestFree) :
    (t.closed n).lowestFree = n ∧ (t.closed n).Gapless := by
  refine gapless_of_lookup fun m => ?_
  rw [lookup_closed]
  split_ifs with hm
  · simp [hm]
  · rw [h m]
    omega

end DescriptorTable

end Server6
