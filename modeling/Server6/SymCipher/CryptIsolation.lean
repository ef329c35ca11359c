import Server6.SymCipher.CryptHistory

/-!
# Users of the dispatcher

The static classes are shared by all callers of a process. What keeps these apart is only that a call
keys and uses the class of its own algorithm name.

* `answer_lastKeying`: of all the calls made before, only the last one that has keyed the class of a call
  matters for its answer.
* `answers_isolated`: callers that never name the same class get, in any interleaving of their calls, the
  answers they would get alone.
-/

namespace Server6

open Method

namespace Crypt

namespace Call

/-- The call, with its result. -/
def answer (L : Library) (R : Runtime) : Call → Method Exn Process (Option Bytes)
  | .encryptBytes inBytes algo secretKey keyIv => Crypt.encryptBytes L R inBytes algo secretKey keyIv
  | .decryptBytes cipherBytes algorithmName secretKey keyIv =>
    Crypt.decryptBytes L R cipherBytes algorithmName secretKey keyIv

/-- The algorithm name. -/
def algorithmName : Call → NString
  | .encryptBytes _ algo _ _ => algo
  | .decryptBytes _ algorithmName _ _ => algorithmName

/-- The call names the class. -/
def Names (c : Call) (cls : StaticClass) : Prop := Arm.ofName c.algorithmName = some (.static cls)

instance (c : Call) (cls : StaticClass) : Decidable (c.Names cls) :=
  inferInstanceAs (Decidable (Arm.ofName c.algorithmName = some (.static cls)))

/-- The call `d` keys the class of `c`. -/
def keysFor (R : Runtime) (c d : Call) : Bool :=
  match Arm.ofName c.algorithmName with
  | some (.static cls) => (d.installs R cls).isSome
  | _ => false

end Call

section

variable {L : Library} {D : Deployment} {c d : Call} {cls : StaticClass} {p q : Process}

/-! ## What an answer depends on -/

theorem Call.Names.unique {cls' : StaticClass} (h : c.Names cls) (h' : c.Names cls') : cls = cls' := by
  have heq := h.symm.trans h'
  simpa using heq

theorem Call.run_eq (L : Library) (R : Runtime) (c : Call) (p : Process) :
    ((c.run L R).run p).2 = ((c.answer L R).run p).2 := by
  cases c with
  | encryptBytes => exact run_dropResult p
  | decryptBytes => exact run_dropResult p

/-- Only a call that names a class can key it. -/
theorem Call.installs_of_not_names (R : Runtime) (h : ¬ c.Names cls) : c.installs R cls = none := by
  cases c with
  | encryptBytes => exact if_neg h
  | decryptBytes => exact if_neg fun hc => h hc.1

/-- The branches without static state answer the same in every state. -/
theorem answer_other (h : ∀ cls, ¬ c.Names cls) :
    ((c.answer L D.toRuntime).run p).1 = ((c.answer L D.toRuntime).run q).1 := by
  cases c with
  | encryptBytes inBytes algo secretKey keyIv =>
    rw [Call.answer, encryptBytes]
    cases harm : Arm.ofName algo with
    | none => rfl
    | some arm =>
      cases arm with
      | static cls => exact absurd harm (h cls)
      | bounceCastle =>
        simp only [run_bind, run_liftM]
        cases newCryptBounceCastle D.toRuntime algo secretKey keyIv <;> rfl
  | decryptBytes cipherBytes algo secretKey keyIv =>
    rw [Call.answer, decryptBytes]
    cases harm : Arm.ofName algo with
    | none => rfl
    | some arm =>
      cases arm with
      | static cls => exact absurd harm (h cls)
      | bounceCastle =>
        simp only [run_bind, run_liftM]
        cases newCryptBounceCastle D.toRuntime algo secretKey keyIv <;> rfl

/-- **An answer depends on the key material of its class only.** -/
theorem answer_congr (L : Library) (D : Deployment) (hp : p.Valid) (hq : q.Valid)
    (h : ∀ cls, c.Names cls → cls.parameters p = cls.parameters q) :
    ((c.answer L D.toRuntime).run p).1 = ((c.answer L D.toRuntime).run q).1 := by
  by_cases hnames : ∃ cls, c.Names cls
  · obtain ⟨cls, hcls⟩ := hnames
    have hparam := h cls hcls
    cases c with
    | encryptBytes inBytes algo secretKey keyIv =>
      have hname : Arm.ofName algo = some (.static cls) := hcls
      obtain ⟨_, hrun, -⟩ := run_encryptBytes L D inBytes secretKey keyIv hname hp
      obtain ⟨_, hrun', -⟩ := run_encryptBytes L D inBytes secretKey keyIv hname hq
      rw [Call.answer, hrun, hrun']
    | decryptBytes cipherBytes algo secretKey keyIv =>
      have hname : Arm.ofName algo = some (.static cls) := hcls
      rw [Call.answer]
      rcases Bool.eq_false_or_eq_true cls.initOnDecrypt with hinit | hinit
      · have hre : ∀ c, Arm.ofName algo = some (.static c) → c.initOnDecrypt = true := by
          intro c hc
          obtain rfl : cls = c := Call.Names.unique hcls hc
          exact hinit
        rw [decryptBytes_eq_decryptRekeyed L D cipherBytes secretKey keyIv hre]
        exact decryptRekeyed_state_irrelevant L D cipherBytes algo secretKey keyIv hp hq
      · rw [run_decryptBytes L D cipherBytes secretKey keyIv hname hinit hp,
          run_decryptBytes L D cipherBytes secretKey keyIv hname hinit hq, hparam]
  · exact answer_other fun cls hcls => hnames ⟨cls, hcls⟩

/-! ## The last keying call -/

/-- The key material a class holds is that of the last call that has keyed it. -/
theorem installed_eq_getLast (R : Runtime) (cls : StaticClass) (q : CipherParameters)
    (calls : List Call) :
    installed R cls q calls = installed R cls q
      (calls.filter fun d => (d.installs R cls).isSome).getLast?.toList := by
  induction calls using List.reverseRecOn with
  | nil => rfl
  | append_singleton calls d ih =>
    have hsnoc : installed R cls q (calls ++ [d]) =
        (d.installs R cls).getD (installed R cls q calls) := by
      rw [installed, List.foldl_append]
      rfl
    rw [hsnoc, List.filter_append]
    cases hd : d.installs R cls with
    | none => simp [hd, ih]
    | some r => simp [hd, installed]

/-- **Only the last keying counts**: after any calls, a call answers as after the last of them that has
keyed its class, or as in a fresh process if there is none. -/
theorem answer_lastKeying (L : Library) (D : Deployment) (calls : List Call) (c : Call) :
    ((c.answer L D.toRuntime).run (finalState (Call.run L D.toRuntime) calls D.initial)).1 =
      ((c.answer L D.toRuntime).run (finalState (Call.run L D.toRuntime)
        (calls.filter (c.keysFor D.toRuntime)).getLast?.toList D.initial)).1 := by
  obtain ⟨-, hvalid, -⟩ := D.initial_spec
  obtain ⟨hp, hparam⟩ := calls_spec L D calls hvalid
  obtain ⟨hq, hparam'⟩ :=
    calls_spec L D (calls.filter (c.keysFor D.toRuntime)).getLast?.toList hvalid
  refine answer_congr L D hp hq fun cls hcls => ?_
  have hkeys : c.keysFor D.toRuntime = fun d => (d.installs D.toRuntime cls).isSome := by
    funext d
    rw [Call.keysFor, hcls]
  rw [hparam, hparam', hkeys]
  exact installed_eq_getLast D.toRuntime cls _ calls

/-! ## Callers that share a process -/

variable {U : Type} [DecidableEq U] {u : U} {calls : List (U × Call)}

/-- The answers to some calls, each with its caller. -/
def answers (L : Library) (R : Runtime) :
    List (U × Call) → Process → List (U × Except Exn (Option Bytes))
  | [], _ => []
  | (u, c) :: calls, p =>
    (u, ((c.answer L R).run p).1) :: answers L R calls ((c.answer L R).run p).2

/-- Two processes that look alike to a caller of the classes. -/
structure Alike (used : StaticClass → Prop) (p q : Process) : Prop where
  valid : p.Valid
  valid' : q.Valid
  parameters : ∀ cls, used cls → cls.parameters p = cls.parameters q

theorem answer_spec (L : Library) (D : Deployment) (c : Call) (hp : p.Valid) :
    ((c.answer L D.toRuntime).run p).2.Valid ∧ ∀ cls : StaticClass,
      cls.parameters ((c.answer L D.toRuntime).run p).2 =
        (c.installs D.toRuntime cls).getD (cls.parameters p) := by
  have hspec := call_spec L D c hp
  rwa [Call.run_eq] at hspec

/-- A call of the caller itself is answered alike and leaves the processes alike. -/
theorem Alike.own {used : StaticClass → Prop} (h : Alike used p q)
    (hused : ∀ cls, c.Names cls → used cls) :
    ((c.answer L D.toRuntime).run p).1 = ((c.answer L D.toRuntime).run q).1 ∧
      Alike used ((c.answer L D.toRuntime).run p).2 ((c.answer L D.toRuntime).run q).2 := by
  obtain ⟨hp, hparam⟩ := answer_spec L D c h.valid
  obtain ⟨hq, hparam'⟩ := answer_spec L D c h.valid'
  refine ⟨answer_congr L D h.valid h.valid' fun cls hcls => h.parameters cls (hused cls hcls),
    hp, hq, fun cls hcls => ?_⟩
  rw [hparam, hparam', h.parameters cls hcls]

/-- A call of another caller is not seen. -/
theorem Alike.foreign {used : StaticClass → Prop} (h : Alike used p q)
    (hused : ∀ cls, used cls → ¬ c.Names cls) :
    Alike used ((c.answer L D.toRuntime).run p).2 q := by
  obtain ⟨hp, hparam⟩ := answer_spec L D c h.valid
  refine ⟨hp, h.valid', fun cls hcls => ?_⟩
  rw [hparam, Call.installs_of_not_names D.toRuntime (hused cls hcls), Option.getD_none,
    h.parameters cls hcls]

/-- The answers a caller gets, in processes that look alike to it. -/
theorem answers_alike (used : StaticClass → Prop)
    (hown : ∀ d ∈ calls, d.1 = u → ∀ cls, d.2.Names cls → used cls)
    (hforeign : ∀ d ∈ calls, d.1 ≠ u → ∀ cls, used cls → ¬ d.2.Names cls) (h : Alike used p q) :
    (answers L D.toRuntime calls p).filter (fun a => a.1 = u) =
      answers L D.toRuntime (calls.filter fun d => d.1 = u) q := by
  induction calls generalizing p q with
  | nil => rfl
  | cons d calls ih =>
    obtain ⟨v, c⟩ := d
    have hown' : ∀ d ∈ calls, d.1 = u → ∀ cls, d.2.Names cls → used cls :=
      fun d hd => hown d (List.mem_cons_of_mem _ hd)
    have hforeign' : ∀ d ∈ calls, d.1 ≠ u → ∀ cls, used cls → ¬ d.2.Names cls :=
      fun d hd => hforeign d (List.mem_cons_of_mem _ hd)
    rw [answers]
    by_cases hv : v = u
    · obtain ⟨hsame, halike⟩ := h.own (L := L) (D := D) (hown (v, c) List.mem_cons_self hv)
      rw [List.filter_cons_of_pos (by simpa using hv), List.filter_cons_of_pos (by simpa using hv),
        answers, hsame, ih hown' hforeign' halike]
    · rw [List.filter_cons_of_neg (by simpa using hv), List.filter_cons_of_neg (by simpa using hv)]
      exact ih hown' hforeign'
        (h.foreign (L := L) (D := D) (hforeign (v, c) List.mem_cons_self hv))

end

/-- **Callers do not disturb each other** that never name the same class: in any interleaving of their
calls, each gets the answers it would get alone. -/
theorem answers_isolated (L : Library) (D : Deployment) {U : Type} [DecidableEq U]
    (calls : List (U × Call))
    (hapart : ∀ d ∈ calls, ∀ d' ∈ calls, d.1 ≠ d'.1 → ∀ cls, d.2.Names cls → ¬ d'.2.Names cls)
    (u : U) :
    (answers L D.toRuntime calls D.initial).filter (fun a => a.1 = u) =
      answers L D.toRuntime (calls.filter fun d => d.1 = u) D.initial := by
  obtain ⟨-, hvalid, -⟩ := D.initial_spec
  let used : StaticClass → Prop := fun cls => ∃ d ∈ calls, d.1 = u ∧ d.2.Names cls
  refine answers_alike used (fun d hd hu cls hcls => ⟨d, hd, hu, hcls⟩)
    (fun d hd hu cls hused => ?_) ⟨hvalid, hvalid, fun _ _ => rfl⟩
  obtain ⟨d', hd', rfl, hcls⟩ := hused
  exact hapart d' hd' d hd (Ne.symm hu) cls hcls

/-- One caller uses AES and 3DES, the other one 2FISH and a block cipher. -/
theorem answers_isolated_two :
    let D := Deployment.resx (fun _ _ => 0) (· == ·)
    let L := marking []
    let k : NString := some (.ofString "correct horse battery staple")
    let k' : NString := some (.ofString "another key")
    let calls : List (Bool × Call) :=
      [(true, .encryptBytes (some [1]) (some (.ofString "AES")) k k'),
        (false, .encryptBytes (some [2]) (some (.ofString "2FISH")) k' k),
        (true, .encryptBytes (some [3]) (some (.ofString "3DES")) k k),
        (false, .decryptBytes (some [4]) (some (.ofString "Camellia")) k k'),
        (true, .decryptBytes (some [5]) (some (.ofString "AES")) k k')]
    (answers L D.toRuntime calls D.initial).filter (fun a => a.1 = true) =
      answers L D.toRuntime (calls.filter fun d => d.1 = true) D.initial := by
  intro D L k k' calls
  have hdiff : ∀ d ∈ calls, ∀ d' ∈ calls, d.1 ≠ d'.1 →
      Arm.ofName d.2.algorithmName ≠ Arm.ofName d'.2.algorithmName := by decide
  exact answers_isolated L D calls
    (fun d hd d' hd' hne _ h h' => hdiff d hd d' hd' hne (h.trans h'.symm)) true

end Crypt

end Server6
