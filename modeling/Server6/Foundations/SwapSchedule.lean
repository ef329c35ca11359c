import Mathlib.GroupTheory.Perm.Basic
import Mathlib.Data.Fintype.Card
import Mathlib.Data.List.FinRange
import Mathlib.Data.List.Induction
import Mathlib.Tactic.Common
import Server6.Foundations.Distinct

/-!
# Products of scheduled transpositions

A schedule is a list of pairs `(a, i)` whose times `i` increase and whose positions `a` are
distinct; its permutation is the product of the transpositions `swap a i` in order of time.
`swapProd_eq_one_iff`: the permutation is the identity if and only if the schedule is symmetric,
that is, `(i, a)` is in it whenever `(a, i)` is.

The point of the proof is `exists_touch_of_moved`: under the product, which applies the latest
transposition first, a point that moves from `x` to `y` leaves `x` no earlier than it arrives
at `y`. If the whole product is the identity, the earliest transposition `swap j i` undoes the rest,
so the rest moves both `i` to `j` and `j` to `i`; each touches the other's only remaining
transposition, and the two times must be one.

`firstSeen` lists the first occurrences in a word, and `scheduleOf` is the schedule that gives the
`n`-th of them time `n`.
-/

namespace Server6

open Equiv

variable {α : Type*} [LinearOrder α]

/-- The product of the transpositions of a list of pairs. -/
def swapProd (L : List (α × α)) : Perm α := (L.map fun p => swap p.1 p.2).prod

@[simp] theorem swapProd_nil : swapProd ([] : List (α × α)) = 1 := rfl

@[simp] theorem swapProd_cons (p : α × α) (L : List (α × α)) :
    swapProd (p :: L) = swap p.1 p.2 * swapProd L := by
  simp [swapProd]

@[simp] theorem swapProd_append (L M : List (α × α)) :
    swapProd (L ++ M) = swapProd L * swapProd M := by
  simp [swapProd]

/-- A list of pairs with distinct positions at increasing times. -/
structure IsSchedule (L : List (α × α)) : Prop where
  positions_nodup : (L.map Prod.fst).Nodup
  times_lt : L.Pairwise fun p q => p.2 < q.2

/-- A list of pairs closed under exchanging position and time. -/
def IsSymmetric (L : List (α × α)) : Prop := ∀ p ∈ L, p.swap ∈ L

namespace IsSchedule

variable {p q : α × α} {L M : List (α × α)}

theorem tail (h : IsSchedule (p :: L)) : IsSchedule L :=
  ⟨(List.nodup_cons.1 h.positions_nodup).2, (List.pairwise_cons.1 h.times_lt).2⟩

theorem sublist (h : IsSchedule M) (hs : L.Sublist M) : IsSchedule L :=
  ⟨h.positions_nodup.sublist (hs.map _), h.times_lt.sublist hs⟩

theorem head_lt (h : IsSchedule (p :: L)) (hq : q ∈ L) : p.2 < q.2 :=
  (List.pairwise_cons.1 h.times_lt).1 q hq

theorem head_position_ne (h : IsSchedule (p :: L)) (hq : q ∈ L) : q.1 ≠ p.1 := fun he =>
  (List.nodup_cons.1 h.positions_nodup).1 (List.mem_map.2 ⟨q, hq, he⟩)

/-- A position has one time only. -/
theorem eq_of_position_eq (h : IsSchedule L) (hp : p ∈ L) (hq : q ∈ L) (he : p.1 = q.1) : p = q :=
  List.inj_on_of_nodup_map h.positions_nodup hp hq he

end IsSchedule

/-- A point the product moves from `x` to `y` leaves `x` no earlier than it arrives at `y`. -/
theorem exists_touch_of_moved {L : List (α × α)} (hL : L.Pairwise fun p q => p.2 < q.2) {x y : α}
    (hxy : swapProd L x = y) (hne : y ≠ x) :
    ∃ p ∈ L, ∃ q ∈ L, (x = p.1 ∨ x = p.2) ∧ (y = q.1 ∨ y = q.2) ∧ q.2 ≤ p.2 := by
  induction L generalizing y with
  | nil => exact absurd hxy.symm hne
  | cons r L ih =>
    obtain ⟨hr, hL⟩ := List.pairwise_cons.1 hL
    rw [swapProd_cons, Perm.mul_apply] at hxy
    have touch : ∀ z, swap r.1 r.2 z ≠ z → (z = r.1 ∨ z = r.2) ∧
        (swap r.1 r.2 z = r.1 ∨ swap r.1 r.2 z = r.2) := by
      intro z hz
      rcases eq_or_ne z r.1 with rfl | h1
      · exact ⟨.inl rfl, .inr (swap_apply_left _ _)⟩
      · rcases eq_or_ne z r.2 with rfl | h2
        · exact ⟨.inr rfl, .inl (swap_apply_right _ _)⟩
        · exact absurd (swap_apply_of_ne_of_ne h1 h2) hz
    by_cases hz : swapProd L x = x
    · -- the earlier transpositions leave `x` in place, so `r` moves it
      rw [hz] at hxy
      obtain ⟨h1, h2⟩ := touch x (hxy ▸ hne)
      exact ⟨r, by simp, r, by simp, h1, hxy ▸ h2, le_rfl⟩
    · obtain ⟨p, hp, q, hq, hxp, hzq, hle⟩ := ih hL rfl hz
      by_cases hw : swap r.1 r.2 (swapProd L x) = swapProd L x
      · exact ⟨p, by simp [hp], q, by simp [hq], hxp, (hxy.symm.trans hw) ▸ hzq, hle⟩
      · -- `r` makes the last move, and it is earlier than everything in `L`
        obtain ⟨-, h2⟩ := touch _ hw
        exact ⟨p, by simp [hp], r, by simp, hxp, hxy ▸ h2, (hr p hp).le⟩

/-- If the rest of a schedule undoes its first transposition, it contains that transposition with
position and time exchanged. -/
theorem swap_mem_of_swapProd_eq_one {j i : α} {L : List (α × α)} (h : IsSchedule ((j, i) :: L))
    (hji : j ≠ i) (hprod : swapProd ((j, i) :: L) = 1) : (i, j) ∈ L := by
  have hrest : swapProd L = swap j i := by
    rw [swapProd_cons] at hprod
    rw [← mul_left_cancel_iff (a := swap j i), swap_mul_self]
    exact hprod
  -- what touches `i` has it as position, and what touches `j` has it as time
  have hi : ∀ p ∈ L, i = p.1 ∨ i = p.2 → i = p.1 := fun p hp ht =>
    ht.resolve_right (h.head_lt hp).ne
  have hj : ∀ p ∈ L, j = p.1 ∨ j = p.2 → j = p.2 := fun p hp ht =>
    ht.resolve_left (h.head_position_ne hp).symm
  obtain ⟨p, hp, q, hq, hip, hjq, hle⟩ := exists_touch_of_moved h.tail.times_lt
    (x := i) (y := j) (by rw [hrest, swap_apply_right]) hji
  obtain ⟨p', hp', q', hq', hjp, hiq, hle'⟩ := exists_touch_of_moved h.tail.times_lt
    (x := j) (y := i) (by rw [hrest, swap_apply_left]) hji.symm
  have hip := hi p hp hip
  have hiq := hi q' hq' hiq
  have hjq := hj q hq hjq
  have hjp := hj p' hp' hjp
  obtain rfl : p = q' := h.tail.eq_of_position_eq hp hq' (hip.symm.trans hiq)
  have hp2 : p.2 = j := le_antisymm (hle'.trans hjp.ge) (hjq.trans_le hle)
  obtain rfl : p = (i, j) := Prod.ext hip.symm hp2
  exact hp

/-- Taking a transposition and its exchanged copy out of a schedule. -/
theorem swapProd_remove {j i : α} {X Y : List (α × α)}
    (h : IsSchedule ((j, i) :: (X ++ (i, j) :: Y))) :
    swapProd ((j, i) :: (X ++ (i, j) :: Y)) = swapProd (X ++ Y) := by
  have hcomm : swap j i * swapProd X = swapProd X * swap j i := by
    have hX : ∀ p ∈ X, p.1 ≠ j ∧ p.1 ≠ i ∧ p.2 ≠ j ∧ p.2 ≠ i := by
      intro p hp
      have hX := (List.pairwise_append.1 (h.tail.times_lt)).2.2 p hp (i, j) (by simp)
      have hfst := (List.nodup_append.1 (by simpa using h.tail.positions_nodup :
        (X.map Prod.fst ++ i :: Y.map Prod.fst).Nodup)).2.2 p.1 (List.mem_map_of_mem hp) i (by simp)
      exact ⟨h.head_position_ne (by simp [hp]), hfst, hX.ne, (h.head_lt (by simp [hp])).ne'⟩
    clear h
    induction X with
    | nil => simp
    | cons p X ih =>
      obtain ⟨h1, h2, h3, h4⟩ := hX p (by simp)
      have hd : swap j i * swap p.1 p.2 = swap p.1 p.2 * swap j i := by
        rw [mul_swap_eq_swap_mul, swap_apply_of_ne_of_ne h1 h2, swap_apply_of_ne_of_ne h3 h4]
      rw [swapProd_cons, ← mul_assoc, hd, mul_assoc, ih fun q hq => hX q (by simp [hq]), mul_assoc]
  simp only [swapProd_cons, swapProd_append]
  rw [← mul_assoc, hcomm, mul_assoc, swap_comm i j, swap_mul_self_mul]

theorem IsSchedule.remove {j i : α} {X Y : List (α × α)}
    (h : IsSchedule ((j, i) :: (X ++ (i, j) :: Y))) : IsSchedule (X ++ Y) :=
  h.sublist (.cons _ (.append (.refl X) (.cons _ (.refl Y))))

/-- What is left after taking the pair out is symmetric if and only if the whole is. -/
theorem isSymmetric_remove_iff {j i : α} {X Y : List (α × α)}
    (h : IsSchedule ((j, i) :: (X ++ (i, j) :: Y))) :
    IsSymmetric ((j, i) :: (X ++ (i, j) :: Y)) ↔ IsSymmetric (X ++ Y) := by
  have mem_iff : ∀ p, p ∈ (j, i) :: (X ++ (i, j) :: Y) ↔ p = (j, i) ∨ p = (i, j) ∨ p ∈ X ++ Y := by
    intro p
    simp only [List.mem_cons, List.mem_append]
    tauto
  constructor
  · intro hs p hp
    have hmem : p ∈ X ++ (i, j) :: Y := by
      rcases List.mem_append.1 hp with hp | hp <;> simp [hp]
    rcases (mem_iff _).1 (hs p ((mem_iff p).2 (.inr (.inr hp)))) with he | he | he
    · -- `p` is `(i, j)`, which has been taken out
      obtain rfl : p = (i, j) := Prod.ext (congrArg Prod.snd he) (congrArg Prod.fst he)
      have hnd := h.tail.positions_nodup
      rw [List.map_append, List.map_cons, List.nodup_middle, List.nodup_cons,
        ← List.map_append] at hnd
      exact absurd (List.mem_map_of_mem hp) hnd.1
    · -- `p` is `(j, i)`, the head
      obtain rfl : p = (j, i) := Prod.ext (congrArg Prod.snd he) (congrArg Prod.fst he)
      exact absurd rfl (h.head_position_ne hmem)
    · exact he
  · intro hs p hp
    rcases (mem_iff p).1 hp with rfl | rfl | hp
    · exact (mem_iff _).2 (.inr (.inl rfl))
    · exact (mem_iff _).2 (.inl rfl)
    · exact (mem_iff _).2 (.inr (.inr (hs p hp)))

/-- **A schedule permutes nothing if and only if it is symmetric.** -/
theorem swapProd_eq_one_iff {L : List (α × α)} (h : IsSchedule L) :
    swapProd L = 1 ↔ IsSymmetric L := by
  induction hn : L.length using Nat.strongRecOn generalizing L with
  | ind n ih =>
    subst hn
    rcases L with _ | ⟨⟨j, i⟩, L⟩
    · simp [IsSymmetric]
    · rcases eq_or_ne j i with rfl | hji
      · -- a transposition of a point with itself
        have hsym : IsSymmetric ((j, j) :: L) ↔ IsSymmetric L := by
          constructor
          · intro hs p hp
            rcases List.mem_cons.1 (hs p (by simp [hp])) with he | he
            · exact absurd (congrArg Prod.snd he) (h.head_position_ne hp)
            · exact he
          · intro hs p hp
            rcases List.mem_cons.1 hp with rfl | hp
            · simp
            · exact List.mem_cons_of_mem _ (hs p hp)
        rw [swapProd_cons, swap_self, ← Perm.one_def, one_mul, hsym]
        exact ih _ (by simp) h.tail rfl
      · -- both sides require `(i, j)` in the rest, and then the two can be taken out
        have hmem : swapProd ((j, i) :: L) = 1 ∨ IsSymmetric ((j, i) :: L) → (i, j) ∈ L := by
          rintro (hp | hs)
          · exact swap_mem_of_swapProd_eq_one h hji hp
          · have := List.mem_cons.1 (hs (j, i) (by simp))
            exact this.resolve_left fun he => hji (congrArg Prod.snd he)
        by_cases hL : (i, j) ∈ L
        · obtain ⟨X, Y, rfl⟩ := List.append_of_mem hL
          rw [swapProd_remove h, isSymmetric_remove_iff h]
          exact ih _ (by simp only [List.length_cons, List.length_append]; omega) h.remove rfl
        · exact ⟨fun hp => absurd (hmem (.inl hp)) hL, fun hs => absurd (hmem (.inr hs)) hL⟩

/-! ## The schedule of a word's first occurrences -/

/-- The letters of a word that are not in `seen`, each at its first occurrence. -/
def firstSeen (seen : List α) : List α → List α
  | [] => []
  | a :: w => if a ∈ seen then firstSeen seen w else a :: firstSeen (a :: seen) w

theorem firstSeen_append_singleton (seen w : List α) (a : α) :
    firstSeen seen (w ++ [a]) =
      if a ∈ seen ∨ a ∈ w then firstSeen seen w else firstSeen seen w ++ [a] := by
  induction w generalizing seen with
  | nil => by_cases h : a ∈ seen <;> simp [firstSeen, h]
  | cons b w ih =>
    by_cases hb : b ∈ seen
    · have : a ∈ seen ∨ a ∈ b :: w ↔ a ∈ seen ∨ a ∈ w := by
        grind
      simp only [List.cons_append, firstSeen, if_pos hb, ih, this]
    · have : a ∈ b :: seen ∨ a ∈ w ↔ a ∈ seen ∨ a ∈ b :: w := by
        grind
      simp only [List.cons_append, firstSeen, if_neg hb, ih, this]
      split_ifs <;> rfl

/-- With nothing seen it collects the letters without repetition. -/
theorem firstSeen_nil_eq_distinct (w : List α) : firstSeen [] w = distinct w := by
  induction w using List.reverseRecOn with
  | nil => rfl
  | append_singleton w a ih =>
    have hmem : a ∈ [] ∨ a ∈ w ↔ a ∈ distinct w := by
      rw [(firstOccurrences_distinct w).mem_iff, or_iff_right List.not_mem_nil]
    rw [firstSeen_append_singleton, distinct_concat, ih, addNew, if_congr hmem rfl rfl]

theorem mem_firstSeen_nil {w : List α} {a : α} : a ∈ firstSeen [] w ↔ a ∈ w := by
  rw [firstSeen_nil_eq_distinct]
  exact (firstOccurrences_distinct w).mem_iff a

theorem nodup_firstSeen_nil (w : List α) : (firstSeen [] w).Nodup := by
  rw [firstSeen_nil_eq_distinct]
  exact (firstOccurrences_distinct w).nodup

variable {m : ℕ}

/-- Distinct letters, the `n`-th at time `n`. -/
def scheduleOf (as : List (Fin m)) : List (Fin m × Fin m) := as.zip (List.finRange m)

/-- The letters appended to a list have the times after its length. -/
theorem scheduleOf_append {as : List (Fin m)} (bs : List (Fin m)) (h : as.length ≤ m) :
    scheduleOf (as ++ bs) = as.zip ((List.finRange m).take as.length) ++
      bs.zip ((List.finRange m).drop as.length) := by
  have hlen : as.length = ((List.finRange m).take as.length).length := by simp [h]
  rw [scheduleOf, ← List.zip_append hlen, List.take_append_drop]

theorem scheduleOf_eq_take {as : List (Fin m)} (h : as.length ≤ m) :
    scheduleOf as = as.zip ((List.finRange m).take as.length) := by
  simpa using scheduleOf_append [] h

theorem isSchedule_scheduleOf {as : List (Fin m)} (h : as.Nodup) : IsSchedule (scheduleOf as) := by
  have hlen : as.length ≤ m := by simpa using h.length_le_card
  refine ⟨?_, ?_⟩
  · rw [scheduleOf, List.map_fst_zip (by simpa using hlen)]
    exact h
  · have hs : (scheduleOf as).map Prod.snd = (List.finRange m).take as.length := by
      rw [scheduleOf_eq_take hlen, List.map_snd_zip (by simp)]
    rw [← List.pairwise_map (f := Prod.snd) (R := (· < ·)), hs]
    exact (List.pairwise_lt_finRange m).sublist (List.take_sublist _ _)

theorem mem_scheduleOf {as : List (Fin m)} {a n : Fin m} :
    (a, n) ∈ scheduleOf as ↔ as[(n : ℕ)]? = some a := by
  rw [scheduleOf, List.mem_iff_getElem?]
  constructor
  · rintro ⟨k, hk⟩
    obtain ⟨ha, hn⟩ := List.getElem?_zip_eq_some.1 hk
    obtain ⟨hk', hn⟩ := List.getElem?_eq_some_iff.1 hn
    have hn : (n : ℕ) = k := by simpa using congrArg Fin.val hn.symm
    exact hn ▸ ha
  · intro h
    exact ⟨n, List.getElem?_zip_eq_some.2 ⟨h, by simp⟩⟩

/-- The letters, read as a map from their ordinals, are their own inverse. -/
def IsInvolution (as : List (Fin m)) : Prop :=
  ∀ n a : Fin m, as[(n : ℕ)]? = some a → as[(a : ℕ)]? = some n

instance (as : List (Fin m)) : Decidable (IsInvolution as) :=
  inferInstanceAs (Decidable (∀ _ _, _))

/-- **The permutation of distinct letters is the identity if and only if the letters are an
involution of their ordinals.** -/
theorem swapProd_scheduleOf_eq_one_iff {as : List (Fin m)} (h : as.Nodup) :
    swapProd (scheduleOf as) = 1 ↔ IsInvolution as := by
  rw [swapProd_eq_one_iff (isSchedule_scheduleOf h)]
  constructor
  · intro hs n a ha
    exact mem_scheduleOf.1 (hs (a, n) (mem_scheduleOf.2 ha))
  · rintro hs ⟨a, n⟩ hp
    exact mem_scheduleOf.2 (hs n a (mem_scheduleOf.1 hp))

/-- Appending a letter appends its transposition. -/
theorem scheduleOf_append_singleton {as : List (Fin m)} (a : Fin m) (h : as.length < m) :
    scheduleOf (as ++ [a]) = scheduleOf as ++ [(a, ⟨as.length, h⟩)] := by
  have hdrop := List.drop_eq_getElem_cons (by simpa using h : as.length < (List.finRange m).length)
  rw [scheduleOf_append [a] h.le, ← scheduleOf_eq_take h.le, hdrop]
  simp

end Server6
