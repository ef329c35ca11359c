import Mathlib.Algebra.GroupWithZero.Nat
import Server6.Foundations.Runs

/-!
# Runs that end

A measure that every step lowers bounds the length of every run. An action may be allowed to raise
the measure by its allowance: then a run is as long as the start and the allowances of its actions
permit (`Run.length_le`), and from every reachable state a run of actions without allowance leads to
a state in which none of these is possible any more (`Reachable.exists_settled`).
-/

namespace Server6

variable {σ α : Type} {step : σ → α → Option σ}

/-- None of the actions `C` is possible in `s`. -/
def Settled (step : σ → α → Option σ) (C : α → Prop) (s : σ) : Prop := ∀ a, C a → step s a = none

/-- **The length of a run.** -/
theorem Run.length_le {s t : σ} {as : List α} (μ : σ → ℕ) (allowance : α → ℕ)
    (hstep : ∀ t a u, Reachable step s t → step t a = some u → μ u + 1 ≤ μ t + allowance a)
    (h : Run step s as t) : as.length + μ t ≤ μ s + (as.map allowance).sum := by
  refine Run.induction (P := fun as t => as.length + μ t ≤ μ s + (as.map allowance).sum)
    (by simp) ?_ h
  intro as t a u hrun ih ha
  have hlower := hstep t a u ⟨as, hrun⟩ ha
  simp only [List.length_append, List.length_singleton, List.map_append, List.map_singleton,
    List.sum_append, List.sum_singleton]
  omega

theorem Reachable.snoc {s t u : σ} {a : α} (h : Reachable step s t) (ha : step t a = some u) :
    Reachable step s u := by
  obtain ⟨as, h⟩ := h
  exact ⟨as ++ [a], h.snoc ha⟩

/-- **Every run can be brought to an end**, by actions that lower the measure. -/
theorem Reachable.exists_settled {s t : σ} (μ : σ → ℕ) (C : α → Prop)
    (hstep : ∀ t a u, Reachable step s t → C a → step t a = some u → μ u < μ t)
    (h : Reachable step s t) :
    ∃ bs u, (∀ b ∈ bs, C b) ∧ Run step t bs u ∧ Settled step C u := by
  induction hμ : μ t using Nat.strongRecOn generalizing t with
  | ind n ih =>
    by_cases hsettled : Settled step C t
    · exact ⟨[], t, by simp, run_nil.2 rfl, hsettled⟩
    · -- an action is possible, and lowers the measure
      unfold Settled at hsettled
      push Not at hsettled
      obtain ⟨a, hC, hne⟩ := hsettled
      obtain ⟨u, hu⟩ := Option.ne_none_iff_exists'.1 hne
      obtain ⟨bs, v, hbs, hrun, hv⟩ := ih (μ u) (hμ ▸ hstep t a u h hC hu) (h.snoc hu) rfl
      exact ⟨a :: bs, v, by simpa using ⟨hC, hbs⟩, run_cons.2 ⟨u, hu, hrun⟩, hv⟩

/-- A system of several parts is measured by the sum over them. -/
theorem sum_map_set_lt {β : Type} (μ : β → ℕ) {parts : List β} {i : ℕ} {x y : β}
    (hi : parts[i]? = some x) (hlt : μ y < μ x) :
    ((parts.set i y).map μ).sum < (parts.map μ).sum := by
  induction parts generalizing i with
  | nil => simp at hi
  | cons z parts ih =>
    cases i with
    | zero =>
      obtain rfl : z = x := by simpa using hi
      simp only [List.set_cons_zero, List.map_cons, List.sum_cons]
      omega
    | succ i =>
      have ih := ih (by simpa using hi)
      simp only [List.set_cons_succ, List.map_cons, List.sum_cons]
      omega

end Server6
