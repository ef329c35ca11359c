import Mathlib.Data.List.Infix
import Mathlib.Tactic.Common

/-!
# Replacing a word

`replace word new text` puts `new` for every occurrence of the word that a search from the left
finds, each search starting behind the occurrence before. What it has written is not searched again.
-/

namespace Server6

variable {α : Type*} [DecidableEq α]

/-- Replace the word, with `skip` cells of an occurrence still to be passed over. -/
def replaceFrom (word new : List α) : ℕ → List α → List α
  | _, [] => []
  | skip + 1, _ :: text => replaceFrom word new skip text
  | 0, c :: text =>
    if word <+: c :: text then new ++ replaceFrom word new (word.length - 1) text
    else c :: replaceFrom word new 0 text

/-- Replace the word from the left. -/
def replace (word new text : List α) : List α := replaceFrom word new 0 text

variable {word new text : List α} {c : α}

@[simp] theorem replace_nil : replace word new [] = [] := rfl

/-- Where no occurrence begins a cell is kept. -/
theorem replace_cons_of_not_here (h : ¬ word <+: c :: text) :
    replace word new (c :: text) = c :: replace word new text := if_neg h

theorem replaceFrom_append (word new s text : List α) :
    replaceFrom word new s.length (s ++ text) = replace word new text := by
  induction s with
  | nil => rfl
  | cons c s ih => exact ih

/-- An occurrence is replaced, and the search goes on behind it. -/
theorem replace_append (hword : word ≠ []) (new text : List α) :
    replace word new (word ++ text) = new ++ replace word new text := by
  obtain ⟨c, w, rfl⟩ := List.exists_cons_of_ne_nil hword
  have hprefix : c :: w <+: c :: (w ++ text) := List.prefix_append (c :: w) text
  rw [← replaceFrom_append (c :: w) new w text]
  exact if_pos hprefix

/-- A text with no occurrence stays. -/
theorem replace_eq_self (h : ¬ word <:+: text) : replace word new text = text := by
  induction text with
  | nil => rfl
  | cons c text ih =>
    rw [replace_cons_of_not_here fun hp => h hp.isInfix, ih fun hi => h (hi.trans ?_)]
    exact (List.suffix_cons c text).isInfix

/-- A part without the first letter of the word stays. -/
theorem replace_append_of_notMem {a : α} {p : List α} (h : a ∉ p) (w new text : List α) :
    replace (a :: w) new (p ++ text) = p ++ replace (a :: w) new text := by
  induction p with
  | nil => rfl
  | cons c p ih =>
    rw [List.mem_cons, not_or] at h
    rw [List.cons_append, replace_cons_of_not_here, ih h.2, List.cons_append]
    rintro ⟨t, ht⟩
    exact h.1 (List.cons.inj ht).1

omit [DecidableEq α] in
/-- An occurrence that begins in front of a letter that is not in the word ends in front of it. -/
theorem isPrefix_of_isPrefix_append_cons (h : c ∉ word) {s text : List α}
    (hp : word <+: s ++ c :: text) : word <+: s := by
  rcases List.prefix_or_prefix_of_prefix hp (List.prefix_append s (c :: text)) with hs | hs
  · exact hs
  · obtain ⟨x, rfl⟩ := hs
    rw [List.prefix_append_right_inj] at hp
    cases x with
    | nil => rw [List.append_nil]
    | cons d x => exact absurd (by simp [(List.cons_prefix_cons.1 hp).1]) h

omit [DecidableEq α] in
/-- The word occurs on one side of a letter that is not in it. -/
theorem isInfix_append_cons_of_notMem (hword : word ≠ []) (h : c ∉ word) {s text : List α}
    (hi : word <:+: s ++ c :: text) : word <:+: s ∨ word <:+: text := by
  induction s with
  | nil =>
    rcases List.infix_cons_iff.1 hi with hp | hi
    · exact absurd (List.prefix_nil.1 (isPrefix_of_isPrefix_append_cons (s := []) h hp)) hword
    · exact .inr hi
  | cons d s ih =>
    rcases List.infix_cons_iff.1 hi with hp | hi
    · exact .inl (isPrefix_of_isPrefix_append_cons (s := d :: s) h hp).isInfix
    · rcases ih hi with hs | ht
      · exact .inl (List.infix_cons_iff.2 (.inr hs))
      · exact .inr ht

/-- A letter that is not in the word separates what is in front of it from what is behind. -/
theorem replace_append_cons_of_notMem (hword : word ≠ []) (h : c ∉ word) (new s text : List α) :
    replace word new (s ++ c :: text) = replace word new s ++ c :: replace word new text := by
  induction hn : s.length using Nat.strongRecOn generalizing s with
  | _ n ih =>
    by_cases hp : word <+: s
    · obtain ⟨t, rfl⟩ := hp
      rw [List.length_append] at hn
      have hpos := List.length_pos_iff.2 hword
      rw [List.append_assoc, replace_append hword, replace_append hword,
        ih t.length (by omega) t rfl, List.append_assoc]
    · cases s with
      | nil =>
        rw [List.nil_append, replace_nil, List.nil_append, replace_cons_of_not_here]
        exact fun hp' => hp (isPrefix_of_isPrefix_append_cons (s := []) h hp')
      | cons d s =>
        rw [List.length_cons] at hn
        have hp' : ¬ word <+: d :: (s ++ c :: text) := fun hp' =>
          hp (isPrefix_of_isPrefix_append_cons (s := d :: s) h hp')
        rw [List.cons_append, replace_cons_of_not_here hp', replace_cons_of_not_here hp,
          ih s.length (by omega) s rfl, List.cons_append]

/-- What the text begins with after replacing, it began with before, if neither the word nor what is
put for it begins with a letter of it. -/
theorem isPrefix_of_replace {a b : α} {w new p : List α} (ha : a ∉ p) (hb : b ∉ p) {text : List α}
    (h : p <+: replace (a :: w) (b :: new) text) : p <+: text := by
  induction p generalizing text with
  | nil => exact List.nil_prefix
  | cons c p ih =>
    rw [List.mem_cons, not_or] at ha hb
    cases text with
    | nil => exact absurd (List.prefix_nil.1 h) (List.cons_ne_nil c p)
    | cons d text =>
      by_cases hp : a :: w <+: d :: text
      · obtain ⟨t, ht⟩ := hp
        rw [← ht, replace_append (List.cons_ne_nil a w), List.cons_append,
          List.cons_prefix_cons] at h
        exact absurd h.1.symm hb.1
      · rw [replace_cons_of_not_here hp, List.cons_prefix_cons] at h
        rw [List.cons_prefix_cons]
        exact ⟨h.1, ih ha.2 hb.2 h.2⟩

/-- Deleting the word makes the text shorter by its length at least, if it occurs. -/
theorem length_replace_nil_le (hword : word ≠ []) (text : List α) :
    (replace word [] text).length ≤ text.length ∧
      (word <:+: text → (replace word [] text).length + word.length ≤ text.length) := by
  induction hn : text.length using Nat.strongRecOn generalizing text with
  | _ n ih =>
    cases text with
    | nil =>
      refine ⟨Nat.zero_le _, fun h => absurd (List.infix_nil.1 h) hword⟩
    | cons c text =>
      by_cases hp : word <+: c :: text
      · obtain ⟨t, ht⟩ := hp
        rw [← ht, replace_append hword, List.nil_append]
        rw [← ht, List.length_append] at hn
        have hpos := List.length_pos_iff.2 hword
        have hle := (ih t.length (by omega) t rfl).1
        exact ⟨by omega, fun _ => by omega⟩
      · rw [replace_cons_of_not_here hp, List.length_cons]
        rw [List.length_cons] at hn
        obtain ⟨hle, hinfix⟩ := ih text.length (by omega) text rfl
        refine ⟨by omega, fun h => ?_⟩
        rcases List.infix_cons_iff.1 h with h | h
        · exact absurd h hp
        · have hshort := hinfix h
          omega

/-- Deleting a single letter is a filter. -/
theorem replace_singleton_nil (a : α) (text : List α) :
    replace [a] [] text = text.filter fun c => c ≠ a := by
  induction text with
  | nil => rfl
  | cons c text ih =>
    by_cases hc : c = a
    · subst hc
      have hfirst := replace_append (List.cons_ne_nil c []) [] text
      rw [List.singleton_append, List.nil_append, ih] at hfirst
      rw [hfirst, List.filter_cons_of_neg]
      simp
    · rw [replace_cons_of_not_here, ih, List.filter_cons_of_pos]
      · simpa using hc
      · rintro ⟨t, ht⟩
        exact hc (List.cons.inj ht).1.symm

end Server6
