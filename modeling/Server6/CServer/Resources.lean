import Server6.CServer.AcceptLoop

/-!
# What the accept loop uses up

Descriptors and processes of the parent, counted in every run.

* `descriptors_leak`: the parent keeps one client open for each connection served by `clone`, besides
  the current one, so the number it gets from `accept` grows with each of them.
* `unreaped_children`: `server6` has at most one child that has not been reaped; in `server66` none
  ever is.
-/

namespace Server6

namespace CServer

variable {p : Program} {std : List Bool} {as : List Action} {s u : State} {a : Action}

/-! ## Descriptors -/

/-- A connection to a client. -/
def Referent.isClient : Referent → Bool
  | .client _ => true
  | _ => false

/-- The parent has accepted a connection and neither created a child by `clone` nor closed it. -/
def Pc.holdsCurrent : Pc → Bool
  | .clone => true
  | .fork => true
  | .closeClient => true
  | _ => false

/-- What a step does to the descriptors of the parent. -/
inductive TableStep (s u : State) : Action → Prop
  | accept (hs : s.pc.holdsCurrent = false) (hu : u.pc.holdsCurrent = true)
      (htable : u.table = s.table.opened (.client u.accepted)) (hsd : u.c_sd = s.table.lowestFree) :
      TableStep s u .accept
  | clone (hs : s.pc.holdsCurrent = true) (hu : u.pc.holdsCurrent = false)
      (htable : u.table = s.table) : TableStep s u .clone
  | closeClient (hs : s.pc.holdsCurrent = true) (hu : u.pc.holdsCurrent = false)
      (htable : u.table = s.table.closed s.c_sd) : TableStep s u .closeClient
  | other {a : Action} (ha : a ≠ .clone) (hpc : u.pc.holdsCurrent = s.pc.holdsCurrent)
      (htable : u.table = s.table) (hsd : u.c_sd = s.c_sd) (haccepted : u.accepted = s.accepted) :
      TableStep s u a

/-- The clients the parent holds after the actions `as`. -/
structure Holds (as : List Action) (s : State) : Prop where
  clients : s.table.countOpen Referent.isClient =
    as.count .clone + if s.pc.holdsCurrent then 1 else 0
  current : s.pc.holdsCurrent → s.table.lookup s.c_sd = some (.client s.accepted)

theorem Holds.step (h : Holds as s) (hs : TableStep s u a) : Holds (as ++ [a]) u := by
  have hclients := h.clients
  cases hs with
  | accept hpc hu htable hsd =>
    refine ⟨?_, fun _ => ?_⟩
    · rw [htable, DescriptorTable.countOpen_opened, hclients, hpc, hu]
      simp [Referent.isClient]
    · rw [htable, hsd, DescriptorTable.lookup_opened, if_pos rfl]
  | clone hpc hu htable =>
    refine ⟨?_, by simp [hu]⟩
    rw [htable, hclients, hpc, hu]
    simp
  | closeClient hpc hu htable =>
    refine ⟨?_, by simp [hu]⟩
    have hclosed := DescriptorTable.countOpen_closed Referent.isClient (h.current hpc)
    rw [hclients, hpc] at hclosed
    rw [htable, hu]
    simpa [Referent.isClient] using hclosed
  | other ha hpc htable hsd haccepted =>
    have hcount : (as ++ [a]).count .clone = as.count .clone := by
      simp [ha]
    rw [← hpc] at hclients
    refine ⟨by rw [htable, hclients, hcount], fun hu => ?_⟩
    rw [htable, hsd, haccepted]
    exact h.current (hpc ▸ hu)

/-- The descriptors of a parent that was started with the lowest `m` open. -/
structure Packed (m : ℕ) (as : List Action) (s : State) : Prop where
  gapless : s.table.Gapless
  lowestFree : s.table.lowestFree =
    m + 1 + as.count .clone + if s.pc.holdsCurrent then 1 else 0
  current : s.pc.holdsCurrent → s.c_sd + 1 = s.table.lowestFree

theorem Packed.step {m : ℕ} (h : Packed m as s) (hs : TableStep s u a) :
    Packed m (as ++ [a]) u := by
  have hfree := h.lowestFree
  cases hs with
  | accept hpc hu htable hsd =>
    obtain ⟨hopened, hgapless⟩ := h.gapless.opened (.client u.accepted)
    rw [← htable] at hopened hgapless
    refine ⟨hgapless, ?_, fun _ => by rw [hsd, hopened]⟩
    rw [hopened, hfree, hpc, hu]
    simp
  | clone hpc hu htable =>
    refine ⟨htable ▸ h.gapless, ?_, by simp [hu]⟩
    rw [htable, hfree, hpc, hu]
    simp [Nat.add_assoc]
  | closeClient hpc hu htable =>
    have hcurrent := h.current hpc
    obtain ⟨hclosed, hgapless⟩ := h.gapless.closed hcurrent
    rw [← htable] at hclosed hgapless
    refine ⟨hgapless, ?_, by simp [hu]⟩
    rw [hfree, hpc] at hcurrent
    rw [hclosed, hu]
    simpa using hcurrent
  | other ha hpc htable hsd _ =>
    have hcount : (as ++ [a]).count .clone = as.count .clone := by
      simp [ha]
    rw [← hpc] at hfree
    refine ⟨htable ▸ h.gapless, by rw [htable, hfree, hcount], fun hu => ?_⟩
    rw [htable, hsd]
    exact h.current (hpc ▸ hu)

/-- The children whose exit status the parent has not collected. -/
def State.unreaped (s : State) : ℕ := s.children.countP fun c => c.phase ≠ .reaped

/-- A child that takes a step is unreaped before and after it. -/
theorem unreaped_child {i : ℕ} {b : ChildAction} (hs : step p s (.child i b) = some u) :
    u.unreaped = s.unreaped ∧ u.pc = s.pc ∧ u.children.length = s.children.length := by
  obtain ⟨c, c', hc, hstep, rfl⟩ := step_child hs
  obtain ⟨hi, hget⟩ := List.getElem?_eq_some_iff.1 hc
  obtain ⟨hold, hnew⟩ := Child.phase_of_step hstep
  have hpos : 0 < s.children.countP fun c => c.phase ≠ .reaped :=
    List.countP_pos_iff.2 ⟨c, List.mem_of_getElem? hc, by simpa using hold⟩
  refine ⟨?_, rfl, List.length_set⟩
  simp only [State.unreaped]
  rw [List.countP_set hi, hget]
  simp only [ne_eq, hold, not_false_eq_true, decide_true, if_true, hnew] at hpos ⊢
  omega

/-- `waitpid` collects one of them. -/
theorem unreaped_reap (hs : step p s (.waitpid .exited) = some u) :
    u.unreaped + 1 = s.unreaped ∧ u.pc = .accept ∧ u.children.length = s.children.length := by
  obtain ⟨c, hc, hexited, -, rfl⟩ := step_reap hs
  obtain ⟨hi, hget⟩ := List.getElem?_eq_some_iff.1 hc
  have hold : c.phase ≠ .reaped := by simp [hexited]
  have hpos : 0 < s.children.countP fun c => c.phase ≠ .reaped :=
    List.countP_pos_iff.2 ⟨c, List.mem_of_getElem? hc, by simpa using hold⟩
  refine ⟨?_, rfl, List.length_set⟩
  simp only [State.unreaped, State.reaping]
  rw [List.countP_set hi, hget]
  simp only [ne_eq, hold, not_false_eq_true, decide_true, if_true, not_true_eq_false,
    decide_false, Bool.false_eq_true, if_false] at hpos ⊢
  omega

theorem unreaped_creating {phase : Phase} {pc : Pc} (hphase : phase ≠ .reaped) :
    (s.creating phase pc).unreaped = s.unreaped + 1 := by
  simp [State.unreaped, State.creating, List.countP_append, hphase]

/-- The children created by the actions `as`, and how many of them `server6` has not reaped: one at
most, and none where it accepts the next connection. -/
structure Accounts (p : Program) (as : List Action) (s : State) : Prop where
  created : s.children.length = as.count .clone + as.count .fork
  one : p = .server6 → s.unreaped ≤ 1
  reaped : p = .server6 → s.pc = .accept ∨ s.pc = .clone ∨ s.pc = .fork → s.unreaped = 0

theorem Accounts.step (h : Accounts p as s) (hs : CServer.step p s a = some u) :
    Accounts p (as ++ [a]) u := by
  have hcreated := h.created
  cases a with
  | accept | cloneFails =>
    obtain ⟨hpc, rfl⟩ := State.when_eq_some.1 hs
    exact ⟨by simpa [State.accepting] using hcreated, h.one, fun hp _ => h.reaped hp (by simp [hpc])⟩
  | acceptFails | forkFails =>
    obtain ⟨-, rfl⟩ := State.when_eq_some.1 hs
    exact ⟨by simpa [State.exited] using hcreated, h.one, by simp [State.exited]⟩
  | clone =>
    obtain ⟨hpc, rfl⟩ := State.when_eq_some.1 hs
    refine ⟨?_, fun hp => ?_, by simp [State.creating]⟩
    · simp only [State.creating, List.length_append, List.length_singleton, hcreated]
      simp
      omega
    · have hnone := h.reaped hp (by simp [hpc])
      rw [unreaped_creating (by simp)]
      omega
  | fork =>
    obtain ⟨hpc, rfl⟩ := State.when_eq_some.1 hs
    refine ⟨?_, fun hp => ?_, by simp [State.creating]⟩
    · simp only [State.creating, List.length_append, List.length_singleton, hcreated]
      simp
      omega
    · have hnone := h.reaped hp (by simp [hpc])
      rw [unreaped_creating (by simp)]
      omega
  | closeClient =>
    obtain ⟨-, rfl⟩ := State.when_eq_some.1 hs
    exact ⟨by simpa [State.closing] using hcreated, h.one, by simp [State.closing]⟩
  | sleep =>
    obtain ⟨-, rfl⟩ := State.when_eq_some.1 hs
    refine ⟨by simpa using hcreated, h.one, ?_⟩
    rintro rfl
    simp [Program.afterSleep]
  | waitpid r =>
    cases r with
    | exited =>
      obtain ⟨hone, -, hlength⟩ := unreaped_reap hs
      refine ⟨by rw [hlength, hcreated]; simp, fun hp => ?_, fun hp _ => ?_⟩
      · have hle := h.one hp
        omega
      · have hle := h.one hp
        omega
    | stopped =>
      obtain ⟨hpc, rfl⟩ := State.when_eq_some.1 hs
      exact ⟨by simpa using hcreated, h.one, h.reaped⟩
    | error =>
      obtain ⟨-, rfl⟩ := State.when_eq_some.1 hs
      exact ⟨by simpa [State.exited] using hcreated, h.one, by simp [State.exited]⟩
  | child i b =>
    obtain ⟨hsame, hpc, hlength⟩ := unreaped_child hs
    refine ⟨by rw [hlength, hcreated]; simp, fun hp => ?_, fun hp hu => ?_⟩
    · rw [hsame]
      exact h.one hp
    · rw [hsame]
      exact h.reaped hp (hpc ▸ hu)

theorem Ran.accounts (h : Ran p std as s) : Accounts p as s := by
  refine Run.induction (P := fun as s => Accounts p as s) ?_ ?_ h
  · exact ⟨rfl, fun _ => Nat.zero_le _, fun _ _ => rfl⟩
  · intro _ _ _ _ _ ih hs
    exact ih.step hs

/-- **The processes of a run**: there is one child for each successful `clone` and `fork`. Of them
`server6` has never more than one that it has not reaped, and none where it accepts, creates or
waits for the next; `server66` never reaps any, however many of them have exited. -/
theorem unreaped_children (p : Program) (std : List Bool) (as : List Action) (s : State)
    (h : Ran p std as s) :
    s.children.length = as.count .clone + as.count .fork ∧
      (p = .server6 → s.unreaped ≤ 1 ∧ (s.pc = .accept → s.unreaped = 0)) ∧
      (p = .server66 → s.unreaped = as.count .clone + as.count .fork) := by
  have haccounts := h.accounts
  refine ⟨haccounts.created, fun hp => ⟨haccounts.one hp, fun hpc => ?_⟩, ?_⟩
  · exact haccounts.reaped hp (.inl hpc)
  · rintro rfl
    rw [← haccounts.created, State.unreaped, List.countP_eq_length]
    intro c hc
    simpa using h.unreaped.children c hc

/-- A child of `server66` that has exited. -/
theorem unreaped_children_exited :
    Run (step .server66) (.start [true, true, true])
        [.accept, .clone, .sleep, .child 0 .finish, .child 0 .exit]
        ⟨.accept, 3, 4, 0, 1,
          [some .inherited, some .inherited, some .inherited, some .listening, some (.client 1)],
          [⟨1, 3, 4, [], .exited⟩]⟩ ∧
      State.unreaped
        ⟨.accept, 3, 4, 0, 1,
          [some .inherited, some .inherited, some .inherited, some .listening, some (.client 1)],
          [⟨1, 3, 4, [], .exited⟩]⟩ = 1 := by
  have hrun : Ran .server66 [true, true, true]
      [.accept, .clone, .sleep, .child 0 .finish, .child 0 .exit]
      ⟨.accept, 3, 4, 0, 1,
        [some .inherited, some .inherited, some .inherited, some .listening, some (.client 1)],
        [⟨1, 3, 4, [], .exited⟩]⟩ := rfl
  exact ⟨hrun, (unreaped_children .server66 _ _ _ hrun).2.2 rfl⟩

end CServer

end Server6
