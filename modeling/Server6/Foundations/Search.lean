import Mathlib.Data.List.Basic
import Mathlib.Data.List.Range
import Mathlib.Tactic.Common

/-!
# Occurrences of a word

Where a word occurs in a text (`OccursAt`, cell by cell in `occursAt_iff` and `occursAt_take_iff`),
and the first of the indices below a bound that have a property (`firstBelow`), which is what a
search loop that tries one index after the other returns.
-/

namespace Server6

variable {α : Type*}

/-- The slice of the text at index `i` is the word. -/
def OccursAt (word text : List α) (i : ℕ) : Prop := (text.drop i).take word.length = word

instance [DecidableEq α] (word text : List α) (i : ℕ) : Decidable (OccursAt word text i) :=
  inferInstanceAs (Decidable (_ = _))

variable {word text : List α} {i m n : ℕ}

theorem occursAt_iff : OccursAt word text i ↔ ∀ k < word.length, text[i + k]? = word[k]? := by
  unfold OccursAt
  rw [List.ext_getElem?_iff]
  refine forall_congr' fun k => ?_
  by_cases hk : k < word.length
  · rw [List.getElem?_take_of_lt hk, List.getElem?_drop]
    exact ⟨fun h _ => h, fun h => h hk⟩
  · have hword : word[k]? = none := List.getElem?_eq_none (Nat.le_of_not_lt hk)
    have htake : ((text.drop i).take word.length)[k]? = none := by
      refine List.getElem?_eq_none ?_
      rw [List.length_take]
      omega
    exact ⟨fun _ h => absurd h hk, fun _ => htake.trans hword.symm⟩

/-- A word that is not empty occurs inside the text. -/
theorem OccursAt.add_length_le (h : OccursAt word text i) (hword : word ≠ []) :
    i + word.length ≤ text.length := by
  have hlen := congrArg List.length h
  have hpos := List.length_pos_of_ne_nil hword
  rw [List.length_take, List.length_drop] at hlen
  omega

theorem occursAt_take_iff (hn : n ≤ word.length) :
    OccursAt (word.take n) text i ↔ ∀ k < n, text[i + k]? = word[k]? := by
  rw [occursAt_iff, List.length_take_of_le hn]
  refine forall_congr' fun k => imp_congr_right fun hk => ?_
  rw [List.getElem?_take_of_lt hk]

/-- Where a longer beginning of the word occurs, a shorter one does. -/
theorem OccursAt.take_of_le (h : OccursAt (word.take n) text i) (hmn : m ≤ n)
    (hn : n ≤ word.length) : OccursAt (word.take m) text i := by
  rw [occursAt_take_iff (hmn.trans hn)]
  exact fun k hk => (occursAt_take_iff hn).1 h k (hk.trans_le hmn)

/-! ## The first index -/

variable {p : ℕ → Prop} [DecidablePred p]

/-- The first index below `n` that has the property. -/
def firstBelow (p : ℕ → Prop) [DecidablePred p] (n : ℕ) : Option ℕ :=
  (List.range n).find? fun i => decide (p i)

theorem firstBelow_eq_some_iff : firstBelow p n = some i ↔ i < n ∧ p i ∧ ∀ j < i, ¬ p j := by
  unfold firstBelow
  rw [List.find?_range_eq_some]
  simp only [decide_eq_true_eq, List.mem_range, Bool.not_eq_eq_eq_not, Bool.not_true,
    decide_eq_false_iff_not]
  exact and_left_comm

theorem firstBelow_eq_none_iff : firstBelow p n = none ↔ ∀ i < n, ¬ p i := by
  unfold firstBelow
  rw [List.find?_range_eq_none]
  simp only [Bool.not_eq_eq_eq_not, Bool.not_true, decide_eq_false_iff_not]

end Server6
