import Server6.Foundations.Descriptors
import Server6.Foundations.Runs

/-!
# The accept loop of the C servers

The loop in `main` of `server6.c` and of `server66.c`: a parent accepts connections one after the
other and creates a child for each, by `clone` or, where that fails, by `fork`. `server6` waits for
the child before it accepts again; in `server66` the wait is commented out. Both calls give the
child a copy of the parent's descriptor table.

A run is a list of actions of the parent and of its children, in any order. Connections are
numbered from 1 in the order in which they are accepted.

* `keepsDescriptors_iff` is when the parent never reaches `accept` with an earlier client open and
  no child holds another client: when it never does so after a `clone`, which is the path that does
  not close the client in the parent.
* `reapsChildren_iff` is when it never does so with an unreaped child.
* `tidy_iff` is when both hold, throughout a run.
-/

namespace Server6

namespace CServer

/-- The two programs. -/
inductive Program
  | server6
  | server66
  deriving DecidableEq, Repr

/-- What a descriptor refers to. -/
inductive Referent
  | inherited
  | listening
  | client (n : ℕ)
  deriving DecidableEq, Repr

/-! ## The children -/

/-- Where a child is: in the forked branch before `close(s_sd)`, in `childfunc` before and after
`close(c_sd)`, exited, and reaped by the parent. -/
inductive Phase
  | forked
  | childfunc
  | sleeping
  | exited
  | reaped
  deriving DecidableEq, Repr

/-- A child: the connection it was created for, its copies of `s_sd`, `c_sd` and of the parent's
descriptor table, and where it is. -/
structure Child where
  conn : ℕ
  s_sd : ℕ
  c_sd : ℕ
  table : DescriptorTable Referent
  phase : Phase
  deriving DecidableEq, Repr

/-- What a child does: `close(s_sd)`, return from `handle_client` and `close(c_sd)`, exit, or die of
a signal. -/
inductive ChildAction
  | closeListener
  | finish
  | exit
  | killed
  deriving DecidableEq, Repr

namespace Child

/-- The client has not been closed yet. -/
def Serving (c : Child) : Prop := c.phase = .forked ∨ c.phase = .childfunc

instance (c : Child) : Decidable c.Serving := inferInstanceAs (Decidable (_ ∨ _))

/-- A process that has ended has no descriptors. -/
def ended (c : Child) : Child := { c with table := [], phase := .exited }

/-- `childfunc` closes `c_sd` if it is positive. -/
def finished (c : Child) : Child :=
  { c with table := if 0 < c.c_sd then c.table.closed c.c_sd else c.table, phase := .sleeping }

def step (c : Child) : ChildAction → Option Child
  | .closeListener =>
    if c.phase = .forked then some { c with table := c.table.closed c.s_sd, phase := .childfunc }
    else none
  | .finish => if c.phase = .childfunc then some c.finished else none
  | .exit => if c.phase = .sleeping then some c.ended else none
  | .killed => if c.phase ≠ .exited ∧ c.phase ≠ .reaped then some c.ended else none

end Child

/-! ## The parent -/

/-- Where the parent is in its loop: the call it makes next. -/
inductive Pc
  | accept
  | clone
  | fork
  | closeClient
  | sleep
  | waitpid
  | exited
  deriving DecidableEq, Repr

/-- What `waitpid` reports: the child has exited or was killed, it was stopped or continued, or
-1. -/
inductive WaitResult
  | exited
  | stopped
  | error
  deriving DecidableEq, Repr

/-- An action of the parent, with its result, or of the `i`-th child. -/
inductive Action
  | accept
  | acceptFails
  | clone
  | cloneFails
  | fork
  | forkFails
  | closeClient
  | sleep
  | waitpid (r : WaitResult)
  | child (i : ℕ) (a : ChildAction)
  deriving DecidableEq, Repr

/-- The parent and the children it has created, reaped or not. -/
structure State where
  pc : Pc
  s_sd : ℕ
  c_sd : ℕ
  pid : ℕ
  accepted : ℕ
  table : DescriptorTable Referent
  children : List Child
  deriving DecidableEq, Repr

namespace State

/-- The parent, listening, before its first `accept`; `std` tells which of the lowest descriptors it
was started with. -/
def start (std : List Bool) : State :=
  let table : DescriptorTable Referent := std.map fun b => if b then some .inherited else none
  ⟨.accept, table.lowestFree, 0, 0, 0, table.opened .listening, []⟩

/-- `usemsg`, which exits. -/
def exited (s : State) : State := { s with pc := .exited, table := [] }

/-- `c_sd = accept(..)`. -/
def accepting (s : State) : State :=
  { s with
    pc := .clone
    c_sd := s.table.lowestFree
    accepted := s.accepted + 1
    table := s.table.opened (.client (s.accepted + 1)) }

/-- A child is created with a copy of the parent's table, and the parent goes on to `pc`. -/
def creating (phase : Phase) (pc : Pc) (s : State) : State :=
  { s with
    pc := pc
    pid := s.children.length
    children := s.children ++ [⟨s.accepted, s.s_sd, s.c_sd, s.table, phase⟩] }

/-- `close(c_sd)` in the parent. -/
def closing (s : State) : State := { s with pc := .sleep, table := s.table.closed s.c_sd }

/-- `waitpid` gives the exit status of `c`. -/
def reaping (c : Child) (s : State) : State :=
  { s with pc := .accept, children := s.children.set s.pid { c with phase := .reaped } }

/-- The parent does this when it is at `pc`. -/
def when (s : State) (pc : Pc) (t : State) : Option State := if s.pc = pc then some t else none

end State

/-- Where the loop goes after `sleep(1)`. -/
def Program.afterSleep : Program → Pc
  | .server6 => .waitpid
  | .server66 => .accept

/-- One step of the parent or of a child. -/
def step (p : Program) (s : State) : Action → Option State
  | .accept => s.when .accept s.accepting
  | .acceptFails => s.when .accept s.exited
  | .clone => s.when .clone (s.creating .childfunc .sleep)
  | .cloneFails => s.when .clone { s with pc := .fork }
  | .fork => s.when .fork (s.creating .forked .closeClient)
  | .forkFails => s.when .fork s.exited
  | .closeClient => s.when .closeClient s.closing
  | .sleep => s.when .sleep { s with pc := p.afterSleep }
  | .waitpid .exited =>
    match s.children[s.pid]? with
    | some c => if c.phase = .exited then s.when .waitpid (s.reaping c) else none
    | none => none
  | .waitpid .stopped => s.when .waitpid s
  | .waitpid .error => s.when .waitpid s.exited
  | .child i a =>
    match s.children[i]? with
    | some c => (c.step a).map fun c' => { s with children := s.children.set i c' }
    | none => none

/-- A run from a started parent. -/
def Ran (p : Program) (std : List Bool) (as : List Action) (s : State) : Prop :=
  Run (step p) (.start std) as s

/-- The action that takes the parent back to `accept`. -/
def Program.back : Program → Action
  | .server6 => .waitpid .exited
  | .server66 => .sleep

/-! ## What is to hold -/

/-- A table without clients. -/
def NoClient (t : DescriptorTable Referent) : Prop := ∀ n i, t.lookup n ≠ some (.client i)

/-- At `accept` the parent holds no client, and every child holds its own client, until it closes
it, and no other. -/
structure KeepsDescriptors (s : State) : Prop where
  parent : s.pc = .accept → NoClient s.table
  own : ∀ c ∈ s.children, c.Serving → ∃ n, c.table.lookup n = some (.client c.conn)
  other : ∀ c ∈ s.children, ∀ n i, c.table.lookup n = some (.client i) → i = c.conn

/-- At `accept` every child has been reaped. -/
def ReapsChildren (s : State) : Prop := s.pc = .accept → ∀ c ∈ s.children, c.phase = .reaped

/-- A property of every state on the way of a run. -/
def Throughout (p : Program) (std : List Bool) (as : List Action) (P : State → Prop) : Prop :=
  ∀ bs t, bs <+: as → Ran p std bs t → P t

/-- The parent does not come back to `accept` after a `clone`. -/
def NoReturnAfterClone (p : Program) (as : List Action) : Prop :=
  as.Pairwise fun a b => ¬ (a = .clone ∧ b = p.back)

instance (p : Program) (as : List Action) : Decidable (NoReturnAfterClone p as) :=
  inferInstanceAs (Decidable (List.Pairwise _ _))

/-! ## Steps -/

@[simp] theorem State.when_eq_some {s t u : State} {pc : Pc} :
    s.when pc t = some u ↔ s.pc = pc ∧ t = u := by
  simp [State.when]

/-- What `waitpid` does when it reports the end of the child. -/
theorem step_reap {p : Program} {s u : State} (h : step p s (.waitpid .exited) = some u) :
    ∃ c, s.children[s.pid]? = some c ∧ c.phase = .exited ∧ s.pc = .waitpid ∧ s.reaping c = u := by
  simp only [step] at h
  split at h
  · rename_i c hc
    split_ifs at h with hphase
    exact ⟨c, hc, hphase, State.when_eq_some.1 h⟩
  · cases h

/-- What a step of a child does. -/
theorem step_child {p : Program} {s u : State} {i : ℕ} {a : ChildAction}
    (h : step p s (.child i a) = some u) :
    ∃ c c', s.children[i]? = some c ∧ c.step a = some c' ∧
      { s with children := s.children.set i c' } = u := by
  simp only [step] at h
  split at h
  · rename_i c hc
    obtain ⟨c', hc', hu⟩ := Option.map_eq_some_iff.1 h
    exact ⟨c, c', hc, hc', hu⟩
  · cases h

theorem noReturnAfterClone_snoc {p : Program} {as : List Action} {a : Action} :
    NoReturnAfterClone p (as ++ [a]) ↔
      NoReturnAfterClone p as ∧ (a = p.back → .clone ∉ as) := by
  rw [NoReturnAfterClone, NoReturnAfterClone, List.pairwise_append]
  constructor
  · rintro ⟨h, -, hlast⟩
    refine ⟨h, fun ha hclone => hlast _ hclone a (by simp) ⟨rfl, ha⟩⟩
  · rintro ⟨h, hlast⟩
    refine ⟨h, List.pairwise_singleton _ _, fun b hb c hc => ?_⟩
    obtain rfl : c = a := by simpa using hc
    rintro ⟨rfl, ha⟩
    exact hlast ha hb

/-! ## Descriptors -/

/-- A child whose only client is its own, under its `c_sd`. -/
structure Child.Sound (c : Child) : Prop where
  own : c.Serving → c.table.lookup c.c_sd = some (.client c.conn)
  other : ∀ n i, c.table.lookup n = some (.client i) → n = c.c_sd ∧ i = c.conn
  listening : c.phase = .forked → c.table.lookup c.s_sd = some .listening

/-- A child that has ended holds nothing. -/
theorem Child.sound_ended (c : Child) : c.ended.Sound where
  own := by rintro (h | h) <;> cases h
  other := by
    intro n i h
    cases h
  listening := by
    intro h
    cases h

/-- No step of a child opens a client, and only `close(c_sd)` closes its own. -/
theorem Child.Sound.step {c c' : Child} {a : ChildAction} (h : c.Sound) (hs : c.step a = some c') :
    c'.Sound := by
  cases a with
  | closeListener =>
    simp only [Child.step, Option.ite_none_right_eq_some, Option.some.injEq] at hs
    obtain ⟨hphase, rfl⟩ := hs
    have hown := h.own (.inl hphase)
    have hlisten := h.listening hphase
    have hne : c.c_sd ≠ c.s_sd := by
      intro heq
      rw [heq, hlisten] at hown
      cases hown
    refine ⟨fun _ => ?_, fun n i hn => ?_, fun h => by cases h⟩
    · rw [DescriptorTable.lookup_closed, if_neg hne]
      exact hown
    · rw [DescriptorTable.lookup_closed] at hn
      split_ifs at hn
      exact h.other n i hn
  | finish =>
    simp only [Child.step, Option.ite_none_right_eq_some, Option.some.injEq] at hs
    obtain ⟨-, rfl⟩ := hs
    refine ⟨?_, fun n i hn => ?_, fun h => by cases h⟩
    · rintro (h | h) <;> cases h
    · simp only [Child.finished] at hn ⊢
      split_ifs at hn
      · rw [DescriptorTable.lookup_closed] at hn
        split_ifs at hn
        exact h.other n i hn
      · exact h.other n i hn
  | exit =>
    simp only [Child.step, Option.ite_none_right_eq_some, Option.some.injEq] at hs
    obtain ⟨-, rfl⟩ := hs
    exact c.sound_ended
  | killed =>
    simp only [Child.step, Option.ite_none_right_eq_some, Option.some.injEq] at hs
    obtain ⟨-, rfl⟩ := hs
    exact c.sound_ended

namespace State

/-- The listening socket is open. -/
def Listening (s : State) : Prop := s.table.lookup s.s_sd = some .listening

/-- The one client the parent holds is the current one, under `c_sd`. -/
def OnlyCurrent (s : State) : Prop :=
  ∀ n i, s.table.lookup n = some (.client i) ↔ n = s.c_sd ∧ i = s.accepted

/-- What the parent holds after the actions `as`, by where it is. -/
def Holds (p : Program) (as : List Action) (s : State) : Prop :=
  match s.pc with
  | .accept => s.Listening ∧ NoClient s.table
  | .clone | .fork | .closeClient => s.Listening ∧ s.OnlyCurrent
  | .sleep => s.Listening ∧ (.clone ∉ as → NoClient s.table)
  | .waitpid => p = .server6 ∧ s.Listening ∧ (.clone ∉ as → NoClient s.table)
  | .exited => True

/-- Accepting a connection adds the current client. -/
theorem onlyCurrent_accepting {s : State} (h : NoClient s.table) : s.accepting.OnlyCurrent := by
  intro n i
  simp only [accepting]
  rw [DescriptorTable.lookup_opened]
  split_ifs with hn
  · simp [hn, eq_comm]
  · simp [hn, h n i]

theorem listening_accepting {s : State} (h : s.Listening) : s.accepting.Listening := by
  simp only [Listening, accepting]
  rw [DescriptorTable.lookup_opened, if_neg (DescriptorTable.ne_lowestFree h)]
  exact h

/-- And `close(c_sd)` removes it. -/
theorem noClient_closing {s : State} (h : s.OnlyCurrent) : NoClient s.closing.table := by
  intro n i hn
  simp only [closing] at hn
  rw [DescriptorTable.lookup_closed] at hn
  split_ifs at hn with heq
  exact heq ((h n i).1 hn).1

theorem listening_closing {s : State} (h : s.Listening) (hcurrent : s.OnlyCurrent) :
    s.closing.Listening := by
  have hne : s.s_sd ≠ s.c_sd := by
    intro heq
    have hclient := (hcurrent s.c_sd s.accepted).2 ⟨rfl, rfl⟩
    rw [← heq, h] at hclient
    cases hclient
  simp only [Listening, closing]
  rw [DescriptorTable.lookup_closed, if_neg hne]
  exact h

/-- A new child gets a table in which the current client is the only one. -/
theorem sound_creating {s : State} {phase : Phase} {pc : Pc} (hlisten : s.Listening)
    (hcurrent : s.OnlyCurrent) (h : ∀ c ∈ s.children, c.Sound) :
    ∀ c ∈ (s.creating phase pc).children, c.Sound := by
  intro c hc
  rcases List.mem_append.1 hc with hc | hc
  · exact h c hc
  · obtain rfl := List.mem_singleton.1 hc
    exact ⟨fun _ => (hcurrent _ _).2 ⟨rfl, rfl⟩, fun n i hn => (hcurrent n i).1 hn,
      fun _ => hlisten⟩

/-- A child that changes soundly leaves the others as they are. -/
theorem sound_set {s : State} {i : ℕ} {c : Child} (hc : c.Sound)
    (h : ∀ c ∈ s.children, c.Sound) : ∀ d ∈ s.children.set i c, d.Sound := by
  intro d hd
  rcases List.mem_or_eq_of_mem_set hd with hd | rfl
  · exact h d hd
  · exact hc

end State

/-- A reaped child keeps nothing it did not hold. -/
theorem Child.Sound.reaped {c : Child} (h : c.Sound) : Child.Sound { c with phase := .reaped } where
  own := by rintro (h | h) <;> cases h
  other := h.other
  listening := by
    intro h
    cases h

/-- The state of the descriptors after the actions `as`. -/
structure Sound (p : Program) (as : List Action) (s : State) : Prop where
  parent : s.Holds p as
  children : ∀ c ∈ s.children, c.Sound

/-- **One step**, as long as the parent does not return to `accept` after a `clone`. -/
theorem Sound.step {p : Program} {as : List Action} {a : Action} {s u : State} (h : Sound p as s)
    (hs : CServer.step p s a = some u) (hback : a = p.back → .clone ∉ as) :
    Sound p (as ++ [a]) u := by
  obtain ⟨hparent, hchildren⟩ := h
  cases a with
  | accept =>
    obtain ⟨hpc, rfl⟩ := State.when_eq_some.1 hs
    simp only [State.Holds, hpc] at hparent
    exact ⟨⟨State.listening_accepting hparent.1, State.onlyCurrent_accepting hparent.2⟩, hchildren⟩
  | acceptFails =>
    obtain ⟨-, rfl⟩ := State.when_eq_some.1 hs
    exact ⟨trivial, hchildren⟩
  | clone =>
    obtain ⟨hpc, rfl⟩ := State.when_eq_some.1 hs
    simp only [State.Holds, hpc] at hparent
    refine ⟨⟨hparent.1, fun hclone => ?_⟩, State.sound_creating hparent.1 hparent.2 hchildren⟩
    exact absurd (by simp) hclone
  | cloneFails =>
    obtain ⟨hpc, rfl⟩ := State.when_eq_some.1 hs
    simp only [State.Holds, hpc] at hparent
    exact ⟨hparent, hchildren⟩
  | fork =>
    obtain ⟨hpc, rfl⟩ := State.when_eq_some.1 hs
    simp only [State.Holds, hpc] at hparent
    exact ⟨hparent, State.sound_creating hparent.1 hparent.2 hchildren⟩
  | forkFails =>
    obtain ⟨-, rfl⟩ := State.when_eq_some.1 hs
    exact ⟨trivial, hchildren⟩
  | closeClient =>
    obtain ⟨hpc, rfl⟩ := State.when_eq_some.1 hs
    simp only [State.Holds, hpc] at hparent
    obtain ⟨hlisten, hcurrent⟩ := hparent
    exact ⟨⟨State.listening_closing hlisten hcurrent, fun _ => State.noClient_closing hcurrent⟩,
      hchildren⟩
  | sleep =>
    obtain ⟨hpc, rfl⟩ := State.when_eq_some.1 hs
    simp only [State.Holds, hpc] at hparent
    obtain ⟨hlisten, hclosed⟩ := hparent
    cases p with
    | server6 =>
      exact ⟨⟨rfl, hlisten, fun hclone => hclosed (by simpa using hclone)⟩, hchildren⟩
    | server66 => exact ⟨⟨hlisten, hclosed (hback rfl)⟩, hchildren⟩
  | waitpid r =>
    cases r with
    | exited =>
      obtain ⟨c, hc, -, hpc, rfl⟩ := step_reap hs
      simp only [State.Holds, hpc] at hparent
      obtain ⟨rfl, hlisten, hclosed⟩ := hparent
      exact ⟨⟨hlisten, hclosed (hback rfl)⟩,
        State.sound_set (hchildren c (List.mem_of_getElem? hc)).reaped hchildren⟩
    | stopped =>
      obtain ⟨hpc, rfl⟩ := State.when_eq_some.1 hs
      refine ⟨?_, hchildren⟩
      simp only [State.Holds, hpc] at hparent ⊢
      simpa using hparent
    | error =>
      obtain ⟨-, rfl⟩ := State.when_eq_some.1 hs
      exact ⟨trivial, hchildren⟩
  | child i a =>
    obtain ⟨c, c', hc, hstep, rfl⟩ := step_child hs
    refine ⟨?_, State.sound_set ((hchildren c (List.mem_of_getElem? hc)).step hstep) hchildren⟩
    have hclone : .clone ∈ as ++ [.child i a] ↔ .clone ∈ as := by simp
    simp only [State.Holds, hclone]
    exact hparent

/-- The parent starts without clients. -/
theorem noClient_start (std : List Bool) : NoClient (State.start std).table := by
  intro n i
  simp only [State.start]
  rw [DescriptorTable.lookup_opened]
  split_ifs
  · simp
  · simp only [DescriptorTable.lookup, List.getD_eq_getElem?_getD, List.getElem?_map]
    rcases std[n]? with _ | _ | _ <;> simp

theorem listening_start (std : List Bool) : (State.start std).Listening := by
  simp only [State.Listening, State.start]
  rw [DescriptorTable.lookup_opened, if_pos rfl]

variable {p : Program} {std : List Bool} {as : List Action} {s : State}

/-- **A run** without a return to `accept` after a `clone`. -/
theorem Ran.sound (h : Ran p std as s) : NoReturnAfterClone p as → Sound p as s := by
  refine Run.induction (P := fun as s => NoReturnAfterClone p as → Sound p as s) ?_ ?_ h
  · intro _
    exact ⟨⟨listening_start std, noClient_start std⟩, fun c hc => by cases hc⟩
  · intro as t a u _ ih hs hreturn
    obtain ⟨hreturn, hback⟩ := noReturnAfterClone_snoc.1 hreturn
    exact (ih hreturn).step hs hback

theorem Sound.keepsDescriptors (h : Sound p as s) : KeepsDescriptors s where
  parent := by
    intro hpc
    have hparent := h.parent
    simp only [State.Holds, hpc] at hparent
    exact hparent.2
  own := fun c hc hserving => ⟨_, (h.children c hc).own hserving⟩
  other := fun c hc n i hn => ((h.children c hc).other n i hn).2

/-- The parent holds a client and does not close it any more before it returns to `accept`. -/
def State.Leaks (p : Program) (s : State) : Prop :=
  s.pc = .exited ∨
    (s.pc = .sleep ∨ s.pc = .waitpid ∧ p = .server6) ∧ ∃ n i, s.table.lookup n = some (.client i)

theorem State.Leaks.step {a : Action} {s u : State} (h : s.Leaks p)
    (hs : CServer.step p s a = some u) (hback : a ≠ p.back) : u.Leaks p := by
  cases a with
  | acceptFails | forkFails =>
    obtain ⟨-, rfl⟩ := State.when_eq_some.1 hs
    exact .inl rfl
  | accept | clone | cloneFails | fork | closeClient =>
    -- none of these is possible there
    obtain ⟨hpc, -⟩ := State.when_eq_some.1 hs
    simp [Leaks, hpc] at h
  | sleep =>
    obtain ⟨hpc, rfl⟩ := State.when_eq_some.1 hs
    simp only [Leaks, hpc, true_or, true_and, reduceCtorEq, false_or] at h
    cases p with
    | server6 => exact .inr ⟨.inr ⟨rfl, rfl⟩, h⟩
    | server66 => exact absurd rfl hback
  | waitpid r =>
    cases r with
    | exited =>
      obtain ⟨c, -, -, hpc, -⟩ := step_reap hs
      simp only [Leaks, hpc, true_and, reduceCtorEq, false_or] at h
      obtain ⟨rfl, -⟩ := h
      exact absurd rfl hback
    | stopped =>
      obtain ⟨-, rfl⟩ := State.when_eq_some.1 hs
      exact h
    | error =>
      obtain ⟨-, rfl⟩ := State.when_eq_some.1 hs
      exact .inl rfl
  | child i a =>
    obtain ⟨c, c', -, -, rfl⟩ := step_child hs
    exact h

/-- After a `clone` the client stays open in the parent. -/
theorem Ran.leaks (h : Ran p std as s) :
    NoReturnAfterClone p as → .clone ∈ as → s.Leaks p := by
  refine Run.induction (P := fun as s => NoReturnAfterClone p as → .clone ∈ as → s.Leaks p) ?_ ?_ h
  · intro _ hclone
    cases hclone
  · intro as t a u hrun ih hs hreturn hclone
    obtain ⟨hearlier, hback⟩ := noReturnAfterClone_snoc.1 hreturn
    by_cases hmem : .clone ∈ as
    · exact (ih hearlier hmem).step hs fun ha => hback ha hmem
    · obtain rfl : .clone = a := by simpa [hmem] using hclone
      obtain ⟨hpc, rfl⟩ := State.when_eq_some.1 hs
      have hparent := (Ran.sound hrun hearlier).parent
      simp only [State.Holds, hpc] at hparent
      exact .inr ⟨.inl rfl, _, _, (hparent.2 _ _).2 ⟨rfl, rfl⟩⟩

/-- And is open at the next `accept`. -/
theorem State.Leaks.not_keepsDescriptors {s u : State} (h : s.Leaks p)
    (hs : CServer.step p s p.back = some u) : ¬ KeepsDescriptors u := by
  intro hkeeps
  cases p with
  | server6 =>
    obtain ⟨c, -, -, hpc, rfl⟩ := step_reap hs
    simp only [Leaks, hpc, reduceCtorEq, false_or, true_and] at h
    obtain ⟨n, i, hn⟩ := h
    exact hkeeps.parent rfl n i hn
  | server66 =>
    obtain ⟨hpc, rfl⟩ := State.when_eq_some.1 hs
    simp only [Leaks, hpc, reduceCtorEq, false_or, true_or, true_and] at h
    obtain ⟨n, i, hn⟩ := h
    exact hkeeps.parent rfl n i hn

/-- A property of a whole run is one of its beginning and of its end. -/
theorem throughout_snoc {P : State → Prop} {a : Action} {u : State} (h : Ran p std (as ++ [a]) u)
    (ht : Throughout p std (as ++ [a]) P) : Throughout p std as P ∧ P u :=
  ⟨fun bs t hbs => ht bs t (hbs.trans (List.prefix_append _ _)), ht _ u (List.prefix_refl _) h⟩

/-- **The descriptors of a run** are kept exactly if the parent does not return to `accept` after a
`clone`. -/
theorem keepsDescriptors_iff (h : Ran p std as s) :
    Throughout p std as KeepsDescriptors ↔ NoReturnAfterClone p as := by
  constructor
  · refine Run.induction (P := fun as _ =>
      Throughout p std as KeepsDescriptors → NoReturnAfterClone p as) ?_ ?_ h
    · intro _
      exact List.Pairwise.nil
    · intro as t a u hrun ih hs hkeeps
      obtain ⟨hearlier, hend⟩ := throughout_snoc (hrun.snoc hs) hkeeps
      refine noReturnAfterClone_snoc.2 ⟨ih hearlier, ?_⟩
      rintro rfl hclone
      exact (Ran.leaks hrun (ih hearlier) hclone).not_keepsDescriptors hs hend
  · intro hreturn bs t hbs hrun
    exact (hrun.sound (hreturn.sublist hbs.sublist)).keepsDescriptors

/-! ## Unreaped children -/

/-- A child that takes a step has not been reaped, and is not by it. -/
theorem Child.phase_of_step {c c' : Child} {a : ChildAction} (h : c.step a = some c') :
    c.phase ≠ .reaped ∧ c'.phase ≠ .reaped := by
  cases a <;> simp only [Child.step, Option.ite_none_right_eq_some, Option.some.injEq] at h <;>
    obtain ⟨hphase, rfl⟩ := h <;> simp_all [Child.ended, Child.finished]

/-- The only child that may not have been reaped is the last, while the parent has not returned. -/
def State.OneChild (s : State) : Prop :=
  ∀ i c, s.children[i]? = some c → c.phase ≠ .reaped →
    s.pc = .exited ∨ (s.pc = .closeClient ∨ s.pc = .sleep ∨ s.pc = .waitpid) ∧ i = s.pid

theorem State.OneChild.creating {s : State} {phase : Phase} {pc : Pc} (h : s.OneChild)
    (hs : s.pc = .clone ∨ s.pc = .fork) (hpc : pc = .closeClient ∨ pc = .sleep) :
    (s.creating phase pc).OneChild := by
  intro i c hc hphase
  refine .inr ⟨?_, ?_⟩
  · rcases hpc with rfl | rfl <;> simp [State.creating]
  · simp only [State.creating, List.getElem?_append] at hc ⊢
    split_ifs at hc with hlt
    · have hold := h i c hc hphase
      rcases hs with hs | hs <;> simp [hs] at hold
    · have hi : i - s.children.length < 1 := (List.getElem?_eq_some_iff.1 hc).1
      omega

theorem State.OneChild.step {a : Action} {s u : State} (h : s.OneChild)
    (hs : CServer.step p s a = some u) (hback : p = .server6 ∨ a ≠ p.back) : u.OneChild := by
  cases a with
  | acceptFails | forkFails =>
    obtain ⟨-, rfl⟩ := State.when_eq_some.1 hs
    exact fun _ _ _ _ => .inl rfl
  | accept | cloneFails =>
    obtain ⟨hpc, rfl⟩ := State.when_eq_some.1 hs
    intro i c hc hphase
    simpa [hpc] using h i c hc hphase
  | clone =>
    obtain ⟨hpc, rfl⟩ := State.when_eq_some.1 hs
    exact h.creating (.inl hpc) (.inr rfl)
  | fork =>
    obtain ⟨hpc, rfl⟩ := State.when_eq_some.1 hs
    exact h.creating (.inr hpc) (.inl rfl)
  | closeClient =>
    obtain ⟨hpc, rfl⟩ := State.when_eq_some.1 hs
    intro i c hc hphase
    have hold := h i c hc hphase
    simp only [hpc, reduceCtorEq, false_or, true_or, true_and] at hold
    exact .inr ⟨.inr (.inl rfl), hold⟩
  | sleep =>
    obtain ⟨hpc, rfl⟩ := State.when_eq_some.1 hs
    cases p with
    | server6 =>
      intro i c hc hphase
      have hold := h i c hc hphase
      simp only [hpc, reduceCtorEq, false_or, true_or, true_and] at hold
      exact .inr ⟨.inr (.inr rfl), hold⟩
    | server66 => simp [Program.back] at hback
  | waitpid r =>
    cases r with
    | exited =>
      obtain ⟨c, hc, -, hpc, rfl⟩ := step_reap hs
      intro i d hd hphase
      simp only [State.reaping, List.getElem?_set] at hd
      split_ifs at hd with heq
      · cases hd
        exact absurd rfl hphase
      · have hold := h i d hd hphase
        simp only [hpc, reduceCtorEq, false_or, or_true, true_and] at hold
        exact absurd hold.symm heq
    | stopped =>
      obtain ⟨-, rfl⟩ := State.when_eq_some.1 hs
      exact h
    | error =>
      obtain ⟨-, rfl⟩ := State.when_eq_some.1 hs
      exact fun _ _ _ _ => .inl rfl
  | child i a =>
    obtain ⟨c, c', hc, hstep, rfl⟩ := step_child hs
    intro j d hd hphase
    simp only [List.getElem?_set] at hd
    split_ifs at hd with heq
    · subst heq
      exact h i c hc (Child.phase_of_step hstep).1
    · exact h j d hd hphase

theorem Ran.oneChild (h : Ran p std as s) : (p = .server6 ∨ p.back ∉ as) → s.OneChild := by
  refine Run.induction (P := fun as s => (p = .server6 ∨ p.back ∉ as) → s.OneChild) ?_ ?_ h
  · intro _ i c hc
    cases hc
  · intro as t a u _ ih hs hback
    refine (ih ?_).step hs ?_
    · exact hback.imp_right fun hnot hmem => hnot (by simp [hmem])
    · exact hback.imp_right fun hnot heq => hnot (by simp [heq])

theorem State.OneChild.reapsChildren (h : s.OneChild) : ReapsChildren s := by
  intro hpc c hc
  obtain ⟨i, hi⟩ := List.mem_iff_getElem?.1 hc
  by_contra hphase
  simpa [hpc] using h i c hi hphase

/-- In `server66` no child is ever reaped, and there is one when the parent sleeps. -/
structure State.Unreaped (s : State) : Prop where
  children : ∀ c ∈ s.children, c.phase ≠ .reaped
  created : s.pc = .closeClient ∨ s.pc = .sleep → s.children ≠ []
  waits : s.pc ≠ .waitpid

theorem State.Unreaped.creating {s : State} (h : s.Unreaped) {phase : Phase} {pc : Pc}
    (hphase : phase ≠ .reaped) (hpc : pc ≠ .waitpid) : (s.creating phase pc).Unreaped where
  children := by
    intro c hc
    rcases List.mem_append.1 hc with hc | hc
    · exact h.children c hc
    · obtain rfl := List.mem_singleton.1 hc
      exact hphase
  created := by simp [State.creating]
  waits := hpc

theorem State.Unreaped.step {a : Action} {s u : State} (h : s.Unreaped)
    (hs : CServer.step .server66 s a = some u) : u.Unreaped := by
  cases a with
  | acceptFails | forkFails | accept | cloneFails =>
    obtain ⟨-, rfl⟩ := State.when_eq_some.1 hs
    exact ⟨h.children, by simp [State.exited, State.accepting],
      by simp [State.exited, State.accepting]⟩
  | clone =>
    obtain ⟨-, rfl⟩ := State.when_eq_some.1 hs
    exact h.creating (by decide) (by decide)
  | fork =>
    obtain ⟨-, rfl⟩ := State.when_eq_some.1 hs
    exact h.creating (by decide) (by decide)
  | closeClient =>
    obtain ⟨hpc, rfl⟩ := State.when_eq_some.1 hs
    exact ⟨h.children, fun _ => h.created (.inl hpc), by simp [State.closing]⟩
  | sleep =>
    obtain ⟨-, rfl⟩ := State.when_eq_some.1 hs
    exact ⟨h.children, by simp [Program.afterSleep], by simp [Program.afterSleep]⟩
  | waitpid r =>
    -- `server66` does not call it
    cases r with
    | exited =>
      obtain ⟨c, -, -, hpc, -⟩ := step_reap hs
      exact absurd hpc h.waits
    | stopped => exact absurd (State.when_eq_some.1 hs).1 h.waits
    | error => exact absurd (State.when_eq_some.1 hs).1 h.waits
  | child i a =>
    obtain ⟨c, c', hc, hstep, rfl⟩ := step_child hs
    refine ⟨fun d hd => ?_, fun hpc => ?_, h.waits⟩
    · rcases List.mem_or_eq_of_mem_set hd with hd | rfl
      · exact h.children d hd
      · exact (Child.phase_of_step hstep).2
    · simpa using h.created hpc

theorem Ran.unreaped (h : Ran .server66 std as s) : s.Unreaped := by
  refine Run.induction (P := fun _ s => s.Unreaped) ?_ ?_ h
  · exact ⟨by simp [State.start], by simp [State.start], by simp [State.start]⟩
  · intro _ _ _ _ _ ih hs
    exact ih.step hs

/-- **The children of a run** are all reaped in `server6`, and in `server66` exactly if the parent
does not return to `accept`. -/
theorem reapsChildren_iff (h : Ran p std as s) :
    Throughout p std as ReapsChildren ↔ p = .server6 ∨ p.back ∉ as := by
  constructor
  · cases p with
    | server6 => exact fun _ => .inl rfl
    | server66 =>
      refine Run.induction (P := fun as _ => Throughout .server66 std as ReapsChildren →
        Program.server66 = .server6 ∨ Program.server66.back ∉ as) ?_ ?_ h
      · simp
      · intro as t a u hrun ih hs hreaps
        obtain ⟨hreaps, hend⟩ := throughout_snoc (hrun.snoc hs) hreaps
        simp only [reduceCtorEq, false_or, List.mem_append, List.mem_singleton, not_or] at ih ⊢
        refine ⟨ih hreaps, ?_⟩
        rintro rfl
        obtain ⟨hpc, rfl⟩ := State.when_eq_some.1 hs
        have hunreaped := Ran.unreaped hrun
        obtain ⟨c, hc⟩ := List.exists_mem_of_ne_nil _ (hunreaped.created (.inr hpc))
        exact hunreaped.children c hc (hend rfl c hc)
  · intro hback bs t hbs hrun
    refine (hrun.oneChild ?_).reapsChildren
    exact hback.imp_right fun hnot hmem => hnot (hbs.subset hmem)

/-! ## Both -/

/-- What is to hold each time the parent reaches `accept`, and of every child. -/
def Tidy (s : State) : Prop := KeepsDescriptors s ∧ ReapsChildren s

/-- **When a run is tidy**: the parent never returns to `accept` after a `clone`, and in `server66`
it never returns. -/
theorem tidy_iff (p : Program) (std : List Bool) (as : List Action) (s : State)
    (h : Ran p std as s) :
    Throughout p std as Tidy ↔ NoReturnAfterClone p as ∧ (p = .server6 ∨ p.back ∉ as) := by
  rw [← keepsDescriptors_iff h, ← reapsChildren_iff h]
  constructor
  · intro ht
    exact ⟨fun bs t hbs hrun => (ht bs t hbs hrun).1, fun bs t hbs hrun => (ht bs t hbs hrun).2⟩
  · rintro ⟨hkeeps, hreaps⟩ bs t hbs hrun
    exact ⟨hkeeps bs t hbs hrun, hreaps bs t hbs hrun⟩

/-- A connection served by `fork`, and the next one. -/
theorem tidy_fork :
    Throughout .server6 [true, true, true]
      [.accept, .cloneFails, .fork, .closeClient, .sleep, .child 0 .closeListener, .child 0 .finish,
        .child 0 .exit, .waitpid .exited, .accept] Tidy := by
  refine (tidy_iff .server6 [true, true, true] _ ?s ?h).2 ⟨by decide, .inl rfl⟩
  case h => exact rfl

/-- A connection served by `clone` stays open in the parent of `server6`, and the child of one
served by `fork` is not reaped in `server66`. -/
theorem not_tidy_clone :
    ¬ Throughout .server6 [true, true, true]
        [.accept, .clone, .sleep, .child 0 .finish, .child 0 .exit, .waitpid .exited] Tidy ∧
      ¬ Throughout .server66 [true, true, true]
        [.accept, .cloneFails, .fork, .closeClient, .sleep] Tidy := by
  constructor
  · intro h
    obtain ⟨hkeeps, -⟩ := h _ _ (List.prefix_refl _) rfl
    exact hkeeps.parent rfl 4 1 rfl
  · intro h
    obtain ⟨-, hreaps⟩ := h _ _ (List.prefix_refl _) rfl
    cases hreaps rfl _ List.mem_cons_self

end CServer

end Server6
