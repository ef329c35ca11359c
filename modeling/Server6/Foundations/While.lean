import Mathlib.Tactic.Common

/-!
# Loops with exceptions

`whileLoop` runs a body that may throw for as long as a condition holds. The measure that the body
makes smaller is part of the loop, so that it ends in every state, not only in those an invariant
allows. `whileLoop_spec` is its invariant rule for a body that does not throw where the invariant
holds, and `whileLoop_invariant` the one for a body that may.
-/

namespace Server6

variable {ε σ : Type}

/-- `while (cond) body`, for a body that decreases a measure. -/
def whileLoop (cond : σ → Prop) [DecidablePred cond] (body : σ → Except ε σ) (μ : σ → ℕ)
    (hμ : ∀ s t, cond s → body s = .ok t → μ t < μ s) (s : σ) : Except ε σ :=
  if _h : cond s then
    match _hbody : body s with
    | .ok t => whileLoop cond body μ hμ t
    | .error e => .error e
  else .ok s
termination_by μ s
decreasing_by exact hμ s t _h _hbody

section

variable {cond : σ → Prop} [DecidablePred cond] {body : σ → Except ε σ} {μ : σ → ℕ}
  {hμ : ∀ s t, cond s → body s = .ok t → μ t < μ s} {s t : σ}

theorem whileLoop_done (h : ¬ cond s) : whileLoop cond body μ hμ s = .ok s := by
  rw [whileLoop, dif_neg h]

theorem whileLoop_step (h : cond s) (hbody : body s = .ok t) :
    whileLoop cond body μ hμ s = whileLoop cond body μ hμ t := by
  rw [whileLoop, dif_pos h]
  split
  · next u hu =>
    obtain rfl : u = t := Except.ok.inj (hu.symm.trans hbody)
    rfl
  · next e he => simp [hbody] at he

theorem whileLoop_throws {e : ε} (h : cond s) (hbody : body s = .error e) :
    whileLoop cond body μ hμ s = .error e := by
  rw [whileLoop, dif_pos h]
  split
  · next u hu => simp [hbody] at hu
  · next e' he =>
    obtain rfl : e' = e := Except.error.inj (he.symm.trans hbody)
    rfl

/-- **The invariant rule**: what holds at the start, and where it holds lets the body return and is
kept by it, holds at the end. -/
theorem whileLoop_spec {P : σ → Prop} (hstart : P s)
    (hstep : ∀ s, P s → cond s → ∃ t, body s = .ok t ∧ P t) :
    ∃ t, whileLoop cond body μ hμ s = .ok t ∧ P t ∧ ¬ cond t := by
  induction hm : μ s using Nat.strongRecOn generalizing s with
  | ind m ih =>
    by_cases h : cond s
    · obtain ⟨t, ht, hPt⟩ := hstep s hstart h
      rw [whileLoop_step h ht]
      exact ih (μ t) (hm ▸ hμ s t h ht) hPt rfl
    · exact ⟨s, whileLoop_done h, hstart, h⟩

/-- What the body keeps whenever it returns holds at the end, if the loop gets there. -/
theorem whileLoop_invariant {P : σ → Prop} (hstart : P s)
    (hstep : ∀ s t, P s → cond s → body s = .ok t → P t)
    (h : whileLoop cond body μ hμ s = .ok t) : P t := by
  induction hm : μ s using Nat.strongRecOn generalizing s with
  | ind m ih =>
    by_cases hcond : cond s
    · cases hbody : body s with
      | error e =>
        rw [whileLoop_throws hcond hbody] at h
        cases h
      | ok u =>
        rw [whileLoop_step hcond hbody] at h
        exact ih (μ u) (hm ▸ hμ s u hcond hbody) (hstep s u hstart hcond hbody) h rfl
    · rw [whileLoop_done hcond] at h
      obtain rfl := Except.ok.inj h
      exact hstart

/-- An exception of the loop is one of its body. -/
theorem exists_of_whileLoop_error {e : ε} (h : whileLoop cond body μ hμ s = .error e) :
    ∃ t, cond t ∧ body t = .error e := by
  induction hm : μ s using Nat.strongRecOn generalizing s with
  | ind m ih =>
    by_cases hcond : cond s
    · cases hbody : body s with
      | error e' =>
        rw [whileLoop_throws hcond hbody] at h
        exact ⟨s, hcond, hbody.trans h⟩
      | ok t =>
        rw [whileLoop_step hcond hbody] at h
        exact ih (μ t) (hm ▸ hμ s t hcond hbody) h rfl
    · rw [whileLoop_done hcond] at h
      cases h

end

end Server6
