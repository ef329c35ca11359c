import Mathlib.Data.List.Nodup
import Server6.Foundations.Memory

/-!
# Scattered bytes

Bytes of a memory by the list of their addresses, in the order in which they are visited: read
(`gather`), written (`scatter`), and cut into words (`wordsAt`).
-/

namespace Server6

namespace Memory

variable {mem mem' : Memory} {as bs : List ℕ} {m q : ℕ} {xs : List UInt8}

/-- The bytes at the addresses. -/
def gather (mem : Memory) (as : List ℕ) : List UInt8 := as.map mem

/-- The bytes written to the addresses. -/
def scatter (mem : Memory) : List ℕ → List UInt8 → Memory
  | a :: as, x :: xs => scatter (Function.update mem a x) as xs
  | _, _ => mem

theorem gather_congr (h : ∀ a ∈ as, mem' a = mem a) : gather mem' as = gather mem as :=
  List.map_congr_left h

theorem eq_of_gather (h : gather mem' as = gather mem as) {a : ℕ} (ha : a ∈ as) : mem' a = mem a :=
  List.map_inj_left.1 h a ha

theorem scatter_of_notMem {a : ℕ} (h : a ∉ as) : scatter mem as xs a = mem a := by
  induction as generalizing mem xs with
  | nil => rfl
  | cons b as ih =>
    cases xs with
    | nil => rfl
    | cons x xs =>
      rw [scatter, ih (List.not_mem_of_not_mem_cons h),
        Function.update_of_ne (List.ne_of_not_mem_cons h)]

/-- What was written is read, if no address comes twice. -/
theorem gather_scatter (mem : Memory) (hnodup : as.Nodup) (h : xs.length = as.length) :
    gather (scatter mem as xs) as = xs := by
  induction as generalizing mem xs with
  | nil => exact (List.length_eq_zero_iff.1 h).symm
  | cons a as ih =>
    cases xs with
    | nil => cases h
    | cons x xs =>
      obtain ⟨hnotMem, hnodup⟩ := List.nodup_cons.1 hnodup
      have htail := ih (Function.update mem a x) hnodup (Nat.succ.inj h)
      have hhead : scatter (Function.update mem a x) as xs a = x := by
        rw [scatter_of_notMem hnotMem, Function.update_self]
      exact congrArg₂ List.cons hhead htail

/-! ## Words -/

/-- The `q` words of `m` bytes at the first addresses. -/
def wordsAt (mem : Memory) (m : ℕ) : ℕ → List ℕ → List (List UInt8)
  | 0, _ => []
  | q + 1, as => gather mem (as.take m) :: wordsAt mem m q (as.drop m)

theorem wordsAt_congr (h : ∀ a ∈ as.take (m * q), mem' a = mem a) :
    wordsAt mem' m q as = wordsAt mem m q as := by
  induction q generalizing as with
  | zero => rfl
  | succ q ih =>
    rw [Nat.mul_succ, Nat.add_comm, List.take_add] at h
    rw [wordsAt, wordsAt, ih fun a ha => h a (List.mem_append_right _ ha),
      gather_congr fun a ha => h a (List.mem_append_left _ ha)]

/-- The last word by itself. -/
theorem wordsAt_succ (mem : Memory) (m q : ℕ) (as : List ℕ) :
    wordsAt mem m (q + 1) as = wordsAt mem m q as ++ [gather mem ((as.drop (m * q)).take m)] := by
  induction q generalizing as with
  | zero => rfl
  | succ q ih =>
    rw [wordsAt, ih, wordsAt, List.drop_drop, Nat.mul_succ, Nat.add_comm m, List.cons_append]

theorem length_wordsAt (mem : Memory) (m q : ℕ) (as : List ℕ) : (wordsAt mem m q as).length = q := by
  induction q generalizing as with
  | zero => rfl
  | succ q ih => rw [wordsAt, List.length_cons, ih]

theorem length_of_mem_wordsAt (h : m * q ≤ as.length) (hx : xs ∈ wordsAt mem m q as) :
    xs.length = m := by
  induction q generalizing as with
  | zero => cases hx
  | succ q ih =>
    rw [Nat.mul_succ] at h
    rcases List.mem_cons.1 hx with rfl | hx
    · rw [gather, List.length_map, List.length_take]
      omega
    · refine ih ?_ hx
      rw [List.length_drop]
      omega

/-- The words are the bytes. -/
theorem flatten_wordsAt (mem : Memory) (m q : ℕ) (as : List ℕ) :
    (wordsAt mem m q as).flatten = gather mem (as.take (m * q)) := by
  induction q generalizing as with
  | zero => simp [wordsAt, gather]
  | succ q ih =>
    rw [wordsAt, List.flatten_cons, ih, Nat.mul_succ, Nat.add_comm (m * q), List.take_add, gather,
      gather, gather, List.map_append]

end Memory

end Server6
