import Mathlib.Data.List.Induction
import Mathlib.Data.List.Nodup
import Mathlib.Tactic.Common

/-!
# Collecting without repetition

A list that grows by what it does not contain yet (`distinct`) ends with the elements of the other
list, each once and in the order in which they first occur (`FirstOccurrences`).
-/

namespace Server6

variable {α : Type*} [DecidableEq α]

/-- Append an element that is not there. -/
def addNew (xs : List α) (x : α) : List α := if x ∈ xs then xs else xs ++ [x]

/-- The elements of a list, collected one after the other. -/
def distinct (xs : List α) : List α := xs.foldl addNew []

/-- The second list has the elements of the first, once each, in the order of their first
occurrence. -/
structure FirstOccurrences (xs ys : List α) : Prop where
  nodup : ys.Nodup
  mem_iff : ∀ x, x ∈ ys ↔ x ∈ xs
  ordered : ys.Pairwise fun a b => xs.idxOf a < xs.idxOf b

theorem addNew_of_mem {xs : List α} {x : α} (h : x ∈ xs) : addNew xs x = xs := if_pos h

theorem addNew_of_notMem {xs : List α} {x : α} (h : x ∉ xs) : addNew xs x = xs ++ [x] := if_neg h

@[simp] theorem distinct_nil : distinct ([] : List α) = [] := rfl

theorem distinct_append (xs ys : List α) : distinct (xs ++ ys) = ys.foldl addNew (distinct xs) :=
  List.foldl_append

theorem distinct_concat (xs : List α) (x : α) : distinct (xs ++ [x]) = addNew (distinct xs) x :=
  distinct_append xs [x]

/-- An element that is left out. -/
theorem distinct_filterMap_none {β : Type*} {f : β → Option α} {b : β} (h : f b = none)
    (bs : List β) : distinct ((bs ++ [b]).filterMap f) = distinct (bs.filterMap f) := by
  rw [List.filterMap_append, List.filterMap_cons_none h, List.filterMap_nil, List.append_nil]

/-- An element that is taken. -/
theorem distinct_filterMap_some {β : Type*} {f : β → Option α} {b : β} {a : α} (h : f b = some a)
    (bs : List β) : distinct ((bs ++ [b]).filterMap f) = addNew (distinct (bs.filterMap f)) a := by
  rw [List.filterMap_append, List.filterMap_cons_some h, List.filterMap_nil, distinct_concat]

theorem firstOccurrences_nil : FirstOccurrences ([] : List α) [] :=
  ⟨List.nodup_nil, fun _ => Iff.rfl, List.Pairwise.nil⟩

/-- One more element. -/
theorem FirstOccurrences.concat {xs ys : List α} (h : FirstOccurrences xs ys) (x : α) :
    FirstOccurrences (xs ++ [x]) (addNew ys x) := by
  have hidx : ∀ a ∈ ys, (xs ++ [x]).idxOf a = xs.idxOf a := fun a ha =>
    List.idxOf_append_of_mem ((h.mem_iff a).1 ha)
  have hordered : ys.Pairwise fun a b => (xs ++ [x]).idxOf a < (xs ++ [x]).idxOf b := by
    apply h.ordered.imp_of_mem
    intro a b ha hb hab
    rwa [hidx a ha, hidx b hb]
  by_cases hx : x ∈ ys
  · rw [addNew_of_mem hx]
    refine ⟨h.nodup, fun a => ?_, hordered⟩
    rw [h.mem_iff, List.mem_append, List.mem_singleton]
    refine ⟨.inl, ?_⟩
    rintro (ha | rfl)
    · exact ha
    · exact (h.mem_iff a).1 hx
  · rw [addNew_of_notMem hx]
    have hlast : (xs ++ [x]).idxOf x = xs.length := by
      rw [List.idxOf_append_of_notMem (mt (h.mem_iff x).2 hx), List.idxOf_cons_self, Nat.add_zero]
    refine ⟨?_, fun a => ?_, ?_⟩
    · rw [List.nodup_append]
      refine ⟨h.nodup, List.nodup_singleton x, fun a ha b hb => ?_⟩
      rw [List.mem_singleton.1 hb]
      rintro rfl
      exact hx ha
    · rw [List.mem_append, List.mem_append, h.mem_iff]
    · rw [List.pairwise_append]
      refine ⟨hordered, List.pairwise_singleton _ x, fun a ha b hb => ?_⟩
      rw [List.mem_singleton.1 hb, hlast, hidx a ha]
      exact List.idxOf_lt_length_of_mem ((h.mem_iff a).1 ha)

/-- **What is collected.** -/
theorem firstOccurrences_distinct (xs : List α) : FirstOccurrences xs (distinct xs) := by
  induction xs using List.reverseRecOn with
  | nil => exact firstOccurrences_nil
  | append_singleton xs x ih =>
    rw [distinct_concat]
    exact ih.concat x

end Server6
