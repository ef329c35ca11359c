import Mathlib.Data.List.GetD
import Mathlib.Tactic.Common

/-!
# Repeating a word

The first cells of the endless repetition of a word (`cycled`). A word and its double repeat alike
(`cycled_append_self`), and a word followed by another is that other word's continuation exactly if
it begins like its repetition (`take_append_eq_take_iff`).
-/

namespace Server6

variable {α : Type*} {n : ℕ} {d : α} {a b : List α}

/-- The first `n` cells of the endless repetition of a list. -/
def cycled (n : ℕ) (d : α) (l : List α) : List α :=
  (List.range n).map fun i => l.getD (i % l.length) d

@[simp] theorem length_cycled (n : ℕ) (d : α) (l : List α) : (cycled n d l).length = n := by
  simp [cycled]

theorem take_cycled {m : ℕ} (h : m ≤ n) (d : α) (l : List α) :
    (cycled n d l).take m = cycled m d l := by
  rw [cycled, ← List.map_take, List.take_range, Nat.min_eq_left h, cycled]

theorem getElem?_cycled {i : ℕ} {l : List α} (hl : l ≠ []) (hi : i < n) :
    (cycled n d l)[i]? = l[i % l.length]? := by
  have hmod : i % l.length < l.length := Nat.mod_lt _ (List.length_pos_iff.2 hl)
  rw [cycled, List.getElem?_map, List.getElem?_range hi, Option.map_some,
    List.getD_eq_getElem _ _ hmod, List.getElem?_eq_getElem hmod]

/-- A list that is long enough is cut. -/
theorem cycled_of_le {l : List α} (h : n ≤ l.length) : cycled n d l = l.take n := by
  apply List.ext_getElem
  · simp [h]
  · intro i hi _
    have hi : i < n := by simpa using hi
    have hmod : i % l.length = i := Nat.mod_eq_of_lt (by omega)
    simp only [cycled, List.getElem_map, List.getElem_range, List.getElem_take]
    rw [hmod, List.getD_eq_getElem _ _ (by omega)]

/-- A word is followed by its first part again. -/
theorem cycled_append (h : n ≤ a.length + b.length + a.length) :
    cycled n d (a ++ b) = (a ++ b ++ a).take n := by
  have hlen : (a ++ b).length = a.length + b.length := List.length_append
  rcases Nat.lt_or_ge (a ++ b).length n with hn | hn
  · apply List.ext_getElem?
    intro i
    rcases Nat.lt_or_ge i n with hi | hi
    · have hne : a ++ b ≠ [] := by
        intro hnil
        rw [hnil, List.length_nil] at hlen
        omega
      rw [getElem?_cycled hne hi, List.getElem?_take_of_lt hi]
      rcases Nat.lt_or_ge i (a ++ b).length with hlt | hge
      · rw [Nat.mod_eq_of_lt hlt, List.getElem?_append_left hlt]
      · rw [List.getElem?_append_right hge, Nat.mod_eq_sub_mod hge, Nat.mod_eq_of_lt (by omega),
          List.getElem?_append_left (by omega)]
    · rw [List.getElem?_eq_none (by simpa using hi), List.getElem?_take_eq_none hi]
  · rw [cycled_of_le hn, List.take_append_of_le_length hn]

/-- Writing a word twice does not change its repetition. -/
theorem cycled_append_self (n : ℕ) (d : α) (l : List α) : cycled n d (l ++ l) = cycled n d l := by
  refine List.map_congr_left fun i _ => ?_
  rcases eq_or_ne l [] with rfl | hl
  · rfl
  have hpos := List.length_pos_iff.2 hl
  have hmod : i % (l.length + l.length) % l.length = i % l.length :=
    Nat.mod_mod_of_dvd i ⟨2, by omega⟩
  have hlt := Nat.mod_lt i (show 0 < l.length + l.length by omega)
  rw [List.length_append, ← hmod]
  generalize i % (l.length + l.length) = j at hlt
  rcases Nat.lt_or_ge j l.length with hj | hj
  · rw [List.getD_append _ _ _ _ hj, Nat.mod_eq_of_lt hj]
  · rw [List.getD_append_right _ _ _ _ hj, Nat.mod_eq_sub_mod hj, Nat.mod_eq_of_lt (by omega)]

theorem take_eq_take_iff_getElem? {x y : List α} :
    x.take n = y.take n ↔ ∀ i < n, x[i]? = y[i]? := by
  rw [List.ext_getElem?_iff]
  refine forall_congr' fun i => ?_
  rcases Nat.lt_or_ge i n with hi | hi
  · rw [List.getElem?_take_of_lt hi, List.getElem?_take_of_lt hi]
    exact ⟨fun h _ => h, fun h => h hi⟩
  · rw [List.getElem?_take_eq_none hi, List.getElem?_take_eq_none hi]
    exact iff_of_true rfl fun hlt => absurd hi (Nat.not_le.2 hlt)

/-- **A word behind another one begins as it does itself** exactly if it begins like the endless
repetition of the other. -/
theorem take_append_eq_take_iff (hb : b ≠ []) :
    (b ++ a).take n = a.take n ↔ cycled n d b = a.take n := by
  have hpos := List.length_pos_iff.2 hb
  rw [← take_cycled (Nat.le_refl n), take_eq_take_iff_getElem?, take_eq_take_iff_getElem?]
  constructor
  · intro h i hi
    rw [getElem?_cycled hb hi]
    -- from one copy of the other word to the next
    induction i using Nat.strongRecOn with
    | _ i ih =>
      rw [← h i hi]
      rcases Nat.lt_or_ge i b.length with hlt | hge
      · rw [Nat.mod_eq_of_lt hlt, List.getElem?_append_left hlt]
      · rw [Nat.mod_eq_sub_mod hge, ih _ (by omega) (by omega), List.getElem?_append_right hge]
  · intro h i hi
    rw [← h i hi, getElem?_cycled hb hi]
    rcases Nat.lt_or_ge i b.length with hlt | hge
    · rw [List.getElem?_append_left hlt, Nat.mod_eq_of_lt hlt]
    · have hprev := h (i - b.length) (by omega)
      rw [getElem?_cycled hb (by omega)] at hprev
      rw [List.getElem?_append_right hge, ← hprev, ← Nat.mod_eq_sub_mod hge]

/-- Two words that begin alike repeat alike, up to another such beginning, if what stands behind it is
alike: in the first word its end, and then its beginning once more. -/
theorem cycled_append_eq_iff (d : α) {a : List α} (b b' : List α) {c c' : List α}
    (hc : c.length = c'.length) (hb : b'.length = a.length) (hn : n ≤ a.length) :
    cycled (a.length + (c.length + n)) d (a ++ (c ++ b)) =
        cycled (a.length + (c.length + n)) d (a ++ (c' ++ b')) ↔
      c = c' ∧ (b ++ a).take n = b'.take n := by
  have hfirst : cycled (a.length + (c.length + n)) d (a ++ (c ++ b)) =
      a ++ (c ++ (b ++ a).take n) := by
    rw [cycled_append (by simp; omega), List.append_assoc, List.append_assoc,
      List.take_length_add_append, List.take_length_add_append]
  have hsecond : cycled (a.length + (c.length + n)) d (a ++ (c' ++ b')) =
      a ++ (c' ++ b'.take n) := by
    rw [cycled_of_le (by simp; omega), List.take_length_add_append, hc,
      List.take_length_add_append]
  rw [hfirst, hsecond, List.append_cancel_left_eq]
  constructor
  · exact fun h => List.append_inj h hc
  · rintro ⟨rfl, h⟩
    rw [h]

/-- **A word with another behind it repeats like the word itself**, up to its own length, exactly if
it begins like the repetition of the other. -/
theorem cycled_append_eq_append_self_iff (d : α) (hb : b ≠ []) (hn : n ≤ a.length) :
    cycled (a.length + n) d (a ++ b) = cycled (a.length + n) d (a ++ a) ↔
      cycled n d b = cycled n d a := by
  have hcut := cycled_append_eq_iff d b a (show ([] : List α).length = [].length from rfl) rfl hn
  simp only [List.length_nil, Nat.zero_add, List.nil_append, true_and] at hcut
  rw [hcut, take_append_eq_take_iff hb, cycled_of_le hn]

end Server6
