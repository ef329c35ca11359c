import Mathlib.Data.List.Induction
import Mathlib.Tactic.Common

/-!
# Runs of a labelled transition system

`step s a` is the state after action `a`, or `none` where `a` is not possible in `s`. A run is a
list of actions each possible in its turn. Both induction rules follow a run from its start and
add an action at the end, so the statement proved may speak of the actions taken so far.
-/

namespace Server6

variable {σ α : Type} (step : σ → α → Option σ)

/-- `Run step s as t`: the actions `as` lead from `s` to `t`. -/
def Run (s : σ) (as : List α) (t : σ) : Prop := as.foldlM step s = some t

/-- The states a system started in `s` can be in. -/
def Reachable (s t : σ) : Prop := ∃ as, Run step s as t

variable {step}

@[simp] theorem run_nil {s t : σ} : Run step s [] t ↔ s = t := by
  simp [Run, Pure.pure]

theorem run_cons {s u : σ} {a : α} {as : List α} :
    Run step s (a :: as) u ↔ ∃ t, step s a = some t ∧ Run step t as u := by
  simp [Run, List.foldlM_cons, Option.bind_eq_some_iff]

theorem run_append {s u : σ} {as bs : List α} :
    Run step s (as ++ bs) u ↔ ∃ t, Run step s as t ∧ Run step t bs u := by
  simp [Run, List.foldlM_append, Option.bind_eq_some_iff]

theorem run_snoc {s u : σ} {a : α} {as : List α} :
    Run step s (as ++ [a]) u ↔ ∃ t, Run step s as t ∧ step t a = some u := by
  simp [run_append, run_cons]

theorem Run.snoc {s t u : σ} {a : α} {as : List α} (h : Run step s as t)
    (ha : step t a = some u) : Run step s (as ++ [a]) u :=
  run_snoc.2 ⟨t, h, ha⟩

/-- **The run rule**: a relation between the actions taken and the state reached that holds at the
start and is kept by every step holds of every run. -/
theorem Run.induction {s : σ} {P : List α → σ → Prop} (hstart : P [] s)
    (hstep : ∀ as t a u, Run step s as t → P as t → step t a = some u → P (as ++ [a]) u)
    {as : List α} {t : σ} (h : Run step s as t) : P as t := by
  induction as using List.reverseRecOn generalizing t with
  | nil => exact run_nil.1 h ▸ hstart
  | append_singleton as a ih =>
    obtain ⟨u, hu, ha⟩ := run_snoc.1 h
    exact hstep as u a t hu (ih hu) ha

/-- **The invariant rule**: what holds at the start and is kept by every step holds of every
reachable state. -/
theorem Reachable.invariant {s t : σ} {P : σ → Prop} (hstart : P s)
    (hstep : ∀ t a u, P t → step t a = some u → P u) (h : Reachable step s t) : P t := by
  obtain ⟨as, h⟩ := h
  exact Run.induction (P := fun _ => P) hstart (fun _ t a u _ => hstep t a u) h

/-! ## Conditions on the steps of a run -/

/-- Every step of the actions `as` meets the condition `C` on the state before it. -/
def StepsMeet (step : σ → α → Option σ) (C : σ → α → Prop) (s : σ) (as : List α) : Prop :=
  ∀ bs a cs t, as = bs ++ a :: cs → Run step s bs t → C t a

theorem stepsMeet_nil {C : σ → α → Prop} {s : σ} : StepsMeet step C s [] := by
  intro bs a cs t h
  simp at h

theorem stepsMeet_snoc {C : σ → α → Prop} {s t : σ} {as : List α} {a : α} (h : Run step s as t) :
    StepsMeet step C s (as ++ [a]) ↔ StepsMeet step C s as ∧ C t a := by
  constructor
  · intro hall
    refine ⟨fun bs b cs u hbs => hall bs b (cs ++ [a]) u (by simp [hbs]), ?_⟩
    exact hall as a [] t rfl h
  · rintro ⟨hall, ha⟩ bs b cs u hbs hrun
    rcases List.eq_nil_or_concat cs with rfl | ⟨ds, d, rfl⟩
    · -- the last step
      obtain ⟨rfl, hb⟩ := List.append_inj' hbs rfl
      obtain rfl : a = b := by simpa using hb
      obtain rfl : t = u := Option.some.inj (h.symm.trans hrun)
      exact ha
    · have hsplit : as ++ [a] = (bs ++ b :: ds) ++ [d] := by simpa using hbs
      exact hall bs b ds u (List.append_inj' hsplit rfl).1 hrun

/-- **The invariant rule under a condition**: what every step that meets `C` keeps holds in every
run whose steps all meet it. -/
theorem Run.invariant {C : σ → α → Prop} {s t : σ} {as : List α} {P : σ → Prop} (hstart : P s)
    (hstep : ∀ t a u, P t → C t a → step t a = some u → P u) (h : Run step s as t) :
    StepsMeet step C s as → P t := by
  refine Run.induction (P := fun as t => StepsMeet step C s as → P t) (fun _ => hstart) ?_ h
  intro as t a u hrun ih ha hmeet
  obtain ⟨hmeet, hC⟩ := (stepsMeet_snoc hrun).1 hmeet
  exact hstep t a u (ih hmeet) hC ha

/-- **The rule for a broken condition**: a run has a step that does not meet `C` only if it ends in
a state in which `D` holds, when such a step leads to `D` and every step keeps it. -/
theorem Run.stepsMeet_or {C : σ → α → Prop} {s t : σ} {as : List α} {D : σ → Prop}
    (hbreak : ∀ t a u, Reachable step s t → ¬ C t a → step t a = some u → D u)
    (hstep : ∀ t a u, Reachable step s t → D t → step t a = some u → D u) (h : Run step s as t) :
    StepsMeet step C s as ∨ D t := by
  refine Run.induction (P := fun as t => StepsMeet step C s as ∨ D t) (.inl stepsMeet_nil) ?_ h
  intro as t a u hrun ih ha
  rcases ih with hmeet | hD
  · by_cases hC : C t a
    · exact .inl ((stepsMeet_snoc hrun).2 ⟨hmeet, hC⟩)
    · exact .inr (hbreak t a u ⟨as, hrun⟩ hC ha)
  · exact .inr (hstep t a u ⟨as, hrun⟩ hD ha)

end Server6
