import Mathlib.Data.List.GetD
import Mathlib.Order.Basic

/-!
# A flat memory

A memory gives every address its byte. Words of bytes are read and written at an address, and what a
write leaves of the rest is said once, for addresses (`assign_of_outside`) and for words
(`load_assign_of_apart`).

`words` reads a number of words of one length that lie one behind the other.
-/

namespace Server6

/-- The byte at each address. -/
abbrev Memory := ℕ → UInt8

namespace Memory

variable {mem mem' : Memory} {p q m n : ℕ} {bs : List UInt8}

/-- The `n` bytes from `p` on. -/
def load (mem : Memory) (p n : ℕ) : List UInt8 := (List.range n).map fun i => mem (p + i)

/-- The bytes `bs` written from `p` on. -/
def assign (mem : Memory) (p : ℕ) (bs : List UInt8) : Memory := fun a =>
  if p ≤ a ∧ a < p + bs.length then bs.getD (a - p) 0 else mem a

/-- Two regions, of `m` bytes from `p` on and of `n` bytes from `q` on, have no byte in common. -/
def Apart (p m q n : ℕ) : Prop := p + m ≤ q ∨ q + n ≤ p

theorem Apart.symm (h : Apart p m q n) : Apart q n p m := Or.symm h

@[simp] theorem length_load (mem : Memory) (p n : ℕ) : (load mem p n).length = n := by
  simp [load]

theorem load_congr (h : ∀ a, p ≤ a → a < p + n → mem' a = mem a) : load mem' p n = load mem p n := by
  refine List.map_congr_left fun i hi => ?_
  exact h _ (Nat.le_add_right _ _) (Nat.add_lt_add_left (List.mem_range.1 hi) _)

theorem load_add (mem : Memory) (p m n : ℕ) :
    load mem p (m + n) = load mem p m ++ load mem (p + m) n := by
  simp [load, List.range_add, Nat.add_assoc]

theorem assign_of_outside {a : ℕ} (h : a < p ∨ p + bs.length ≤ a) : assign mem p bs a = mem a := by
  refine if_neg ?_
  omega

/-- What was written is read. -/
theorem load_assign (mem : Memory) (h : bs.length = n) : load (assign mem p bs) p n = bs := by
  subst h
  apply List.ext_getElem
  · simp
  · intro i hi hi'
    have hin : p ≤ p + i ∧ p + i < p + bs.length := by omega
    simp only [load, List.getElem_map, List.getElem_range, assign]
    rw [if_pos hin, Nat.add_sub_cancel_left, List.getD_eq_getElem _ _ hi']

/-- What lies apart stays. -/
theorem load_assign_of_apart (mem : Memory) (h : Apart p bs.length q n) :
    load (assign mem p bs) q n = load mem q n := by
  refine load_congr fun a ha ha' => assign_of_outside ?_
  rcases h with h | h
  · exact .inr (by omega)
  · exact .inl (by omega)

/-- What is put back in its place. -/
theorem assign_load_apply {a : ℕ} (mem mem' : Memory) (h : p ≤ a ∧ a < p + n) :
    assign mem' p (load mem p n) a = mem a := by
  have hin : p ≤ a ∧ a < p + (load mem p n).length := by rwa [length_load]
  rw [assign, if_pos hin, List.getD_eq_getElem _ _ (by omega)]
  simp only [load, List.getElem_map, List.getElem_range]
  rw [Nat.add_sub_cancel' h.1]

/-- Writing back what is there changes nothing. -/
theorem assign_load (mem : Memory) (p n : ℕ) : assign mem p (load mem p n) = mem := by
  funext a
  by_cases h : p ≤ a ∧ a < p + n
  · exact assign_load_apply mem mem h
  · exact assign_of_outside (by rw [length_load]; omega)

theorem assign_assign (mem : Memory) (p : ℕ) {xs ys : List UInt8} (h : xs.length = ys.length) :
    assign (assign mem p xs) p ys = assign mem p ys := by
  funext a
  by_cases ha : p ≤ a ∧ a < p + ys.length
  · simp only [assign, if_pos ha]
  · rw [assign_of_outside (by omega), assign_of_outside (by omega), assign_of_outside (by omega)]

/-! ## Words -/

/-- The `q` words of `m` bytes from `p` on. -/
def words (mem : Memory) (p m : ℕ) : ℕ → List (List UInt8)
  | 0 => []
  | q + 1 => load mem p m :: words mem (p + m) m q

theorem length_of_mem_words {w : List UInt8} (h : w ∈ words mem p m q) : w.length = m := by
  induction q generalizing p with
  | zero => cases h
  | succ q ih =>
    rcases List.mem_cons.1 h with rfl | h
    · exact length_load ..
    · exact ih h

theorem words_add (mem : Memory) (p m q n : ℕ) :
    words mem p m (q + n) = words mem p m q ++ words mem (p + m * q) m n := by
  induction q generalizing p with
  | zero => simp [words]
  | succ q ih =>
    rw [Nat.succ_add, words, words, ih, List.cons_append, Nat.mul_succ, Nat.add_assoc p,
      Nat.add_comm m]

theorem words_one (mem : Memory) (p m : ℕ) : words mem p m 1 = [load mem p m] := rfl

/-- The words are the bytes. -/
theorem flatten_words (mem : Memory) (p m q : ℕ) : (words mem p m q).flatten = load mem p (m * q) := by
  induction q generalizing p with
  | zero => simp [words, load]
  | succ q ih => rw [words, List.flatten_cons, ih, Nat.mul_succ, Nat.add_comm (m * q), load_add]

theorem words_congr (h : ∀ a, p ≤ a → a < p + m * q → mem' a = mem a) :
    words mem' p m q = words mem p m q := by
  induction q generalizing p with
  | zero => rfl
  | succ q ih =>
    rw [Nat.mul_succ] at h
    rw [words, words, ih fun a ha ha' => h a (by omega) (by omega),
      load_congr fun a ha ha' => h a ha (by omega)]

end Memory

end Server6
