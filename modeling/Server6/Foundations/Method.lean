import Mathlib.Tactic.Common

/-!
# Calls with a state and exceptions

A call reads and writes a state and either returns a value or throws an exception. The writes made
before the exception stay: this is what distinguishes `Method` from a state monad over `Except`,
which would drop them, and it is what decides what a half-finished call leaves behind.

* `Method ε σ α` is the type of the calls, with `run_bind`, `run_gets`, `run_modify` and `run_liftM`
  as its evaluation rules; an exception comes from an `Except` computation lifted into it.
* `Method.Leaves r` says that a call, finished or not, leaves a state related by `r` to the one it
  found, with a rule for each construct.
* `Method.on` runs a call on one component of a larger state (`run_on`).
* `finalState` is the state after a list of calls, whatever each of them returned or threw;
  `finalState_induction` is its invariant rule, and `finalState_induction_of` the one for calls that
  each meet a condition.
-/

namespace Server6

variable {ε σ τ α β : Type}

/-- A call on a state `σ`: its value or its exception, and the state it leaves in either case. -/
structure Method (ε σ α : Type) where
  run : σ → Except ε α × σ

namespace Method

/-- Return a value and leave the state as it is. -/
protected def pure (a : α) : Method ε σ α := ⟨fun s => (.ok a, s)⟩

/-- Continue with the value; an exception skips the rest and keeps the state reached so far. -/
protected def bind (x : Method ε σ α) (f : α → Method ε σ β) : Method ε σ β :=
  ⟨fun s => match x.run s with
    | (.ok a, t) => (f a).run t
    | (.error e, t) => (.error e, t)⟩

instance : Monad (Method ε σ) where
  pure := Method.pure
  bind := Method.bind

instance : LawfulMonad (Method ε σ) :=
  LawfulMonad.mk' _ (fun x => by
    have h : ∀ s, (Method.bind x Method.pure).run s = x.run s := by
      intro s
      rcases hx : x.run s with ⟨_ | _, _⟩ <;> simp [Method.bind, Method.pure, hx]
    exact congrArg Method.mk (funext h))
    (fun _ _ => rfl) (fun x f g => by
    have h : ∀ s, (Method.bind (Method.bind x f) g).run s =
        (Method.bind x fun a => Method.bind (f a) g).run s := by
      intro s
      rcases hx : x.run s with ⟨_ | _, _⟩ <;> simp [Method.bind, hx]
    exact congrArg Method.mk (funext h))

/-- Read the state through a function. -/
def gets (f : σ → α) : Method ε σ α := ⟨fun s => (.ok (f s), s)⟩

/-- Write the state. -/
def modify (f : σ → σ) : Method ε σ Unit := ⟨fun s => (.ok (), f s)⟩

/-- A computation that does not touch the state. -/
def ofExcept (x : Except ε α) : Method ε σ α := ⟨fun s => (x, s)⟩

instance : MonadLift (Except ε) (Method ε σ) := ⟨ofExcept⟩

/-- Run a call on a component of a larger state. -/
def on (get : τ → σ) (set : τ → σ → τ) (x : Method ε σ α) : Method ε τ α :=
  ⟨fun t => ((x.run (get t)).1, set t (x.run (get t)).2)⟩

@[simp] theorem run_pure (a : α) (s : σ) : (Pure.pure a : Method ε σ α).run s = (.ok a, s) := rfl

theorem run_bind (x : Method ε σ α) (f : α → Method ε σ β) (s : σ) :
    (x >>= f).run s = match x.run s with
      | (.ok a, t) => (f a).run t
      | (.error e, t) => (.error e, t) := rfl

@[simp] theorem run_gets (f : σ → α) (s : σ) :
    (gets f : Method ε σ α).run s = (.ok (f s), s) := rfl

@[simp] theorem run_modify (f : σ → σ) (s : σ) :
    (modify f : Method ε σ Unit).run s = (.ok (), f s) := rfl

@[simp] theorem run_liftM (x : Except ε α) (s : σ) :
    (liftM x : Method ε σ α).run s = (x, s) := rfl

@[simp] theorem run_on (get : τ → σ) (set : τ → σ → τ) (x : Method ε σ α) (t : τ) :
    (x.on get set).run t = ((x.run (get t)).1, set t (x.run (get t)).2) := rfl

/-- Sequencing after a call known to return. -/
theorem run_bind_ok {x : Method ε σ α} {s t : σ} {a : α} (h : x.run s = (.ok a, t))
    (f : α → Method ε σ β) : (x >>= f).run s = (f a).run t := by
  rw [run_bind, h]

/-- Sequencing after a call known to throw. -/
theorem run_bind_error {x : Method ε σ α} {s t : σ} {e : ε} (h : x.run s = (.error e, t))
    (f : α → Method ε σ β) : (x >>= f).run s = (.error e, t) := by
  rw [run_bind, h]

@[simp] theorem run_ite (c : Prop) [Decidable c] (x y : Method ε σ α) (s : σ) :
    (if c then x else y).run s = if c then x.run s else y.run s := by
  split <;> rfl

/-! ### What a call leaves alone -/

/-- Whatever the call returns or throws, the state it leaves is related to the one it found. -/
def Leaves (r : σ → σ → Prop) (x : Method ε σ α) : Prop := ∀ s, r s (x.run s).2

section Leaves

variable {r : σ → σ → Prop}

theorem leaves_pure (hrefl : ∀ s, r s s) (a : α) : Leaves r (Pure.pure a : Method ε σ α) := hrefl

theorem leaves_gets (hrefl : ∀ s, r s s) (f : σ → α) : Leaves r (gets f : Method ε σ α) := hrefl

theorem leaves_liftM (hrefl : ∀ s, r s s) (x : Except ε α) :
    Leaves r (liftM x : Method ε σ α) := hrefl

theorem leaves_modify {f : σ → σ} (h : ∀ s, r s (f s)) : Leaves r (modify f : Method ε σ Unit) := h

/-- A sequence of calls leaves alone what each of them does. -/
theorem Leaves.bind (htrans : ∀ s t u, r s t → r t u → r s u) {x : Method ε σ α}
    {f : α → Method ε σ β} (hx : Leaves r x) (hf : ∀ a, Leaves r (f a)) : Leaves r (x >>= f) := by
  intro s
  have hx := hx s
  rw [run_bind]
  revert hx
  rcases x.run s with ⟨_ | a, t⟩ <;> intro hx
  · exact hx
  · exact htrans s t _ hx (hf a t)

end Leaves

end Method

/-! ## Lists of calls -/

/-- The state after a list of calls, each made in the state the one before it left. -/
def finalState {γ : Type} (call : γ → Method ε σ α) (cs : List γ) (s : σ) : σ :=
  cs.foldl (fun t c => ((call c).run t).2) s

section FinalState

variable {γ : Type} (call : γ → Method ε σ α)

@[simp] theorem finalState_nil (s : σ) : finalState call [] s = s := rfl

@[simp] theorem finalState_cons (c : γ) (cs : List γ) (s : σ) :
    finalState call (c :: cs) s = finalState call cs ((call c).run s).2 := rfl

theorem finalState_append (bs cs : List γ) (s : σ) :
    finalState call (bs ++ cs) s = finalState call cs (finalState call bs s) :=
  List.foldl_append

/-- **The invariant rule of a list of calls**: what holds at the start and is kept by every call
holds at the end. -/
theorem finalState_induction {P : σ → Prop} (hstep : ∀ c s, P s → P ((call c).run s).2)
    (cs : List γ) {s : σ} (hs : P s) : P (finalState call cs s) := by
  induction cs generalizing s with
  | nil => exact hs
  | cons c cs ih => exact ih (hstep c s hs)

/-- **The invariant rule under a condition** `C` that every call meets in the state it is made in. -/
theorem finalState_induction_of {P : σ → Prop} {C : γ → σ → Prop}
    (hstep : ∀ c s, P s → C c s → P ((call c).run s).2) {cs : List γ} {s : σ} (hs : P s)
    (hC : ∀ as c bs, cs = as ++ c :: bs → C c (finalState call as s)) :
    P (finalState call cs s) := by
  induction cs generalizing s with
  | nil => exact hs
  | cons c cs ih =>
    refine ih (hstep c s hs (hC [] c cs rfl)) fun as d bs h => ?_
    exact hC (c :: as) d bs (by rw [h, List.cons_append])

end FinalState

end Server6
