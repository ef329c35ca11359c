import Server6.SymCipher.ZenMatrixSchedule

/-!
# The states of the matrix cipher

Every call that sets the static state leaves it keyed by some permutation (`exists_keyed`), and
every one but `GetMatrixPermutation` on a null key returns (`call_returns`), so that no array index
it uses is out of range. `MatrixReverse` is then never left behind `MatrixPermKey`
(`inversePermutations_finalState`).
-/

namespace Server6

open Equiv

namespace ZenMatrix

open Method

/-! ## The reachable states -/

/-- The calls that set the static state. -/
inductive Setup
  | initMatrixSymChiffer
  | zenMatrixGenWithKey (secretKey usrHash : NString) (init : Bool)
  | getMatrixPermutation (key : NString)

/-- The call, without its result. -/
def Setup.call (R : Runtime) : Setup → Method Exn ZenMatrix Unit
  | .initMatrixSymChiffer => ZenMatrix.initMatrixSymChiffer
  | .zenMatrixGenWithKey secretKey usrHash init => do
    let _ ← ZenMatrix.zenMatrixGenWithKey R secretKey usrHash init
  | .getMatrixPermutation key => do
    let _ ← ZenMatrix.getMatrixPermutation key

/-- The state the static constructor leaves. -/
def initial : ZenMatrix := (initMatrixSymChiffer.run ⟨[], [], [], [], []⟩).2

theorem initial_eq_identity : initial = identity [] [] := by
  rw [initial, run_initMatrixSymChiffer, identity]

/-- What `GetMatrixPermutation` returns and leaves on a key. -/
theorem run_getMatrixPermutation_some (key : Utf16) (z : ZenMatrix) :
    (getMatrixPermutation (some key)).run z =
      (.ok (table (keySchedule (Utf16.utf8 key))),
        { permuting z (nibbles (Utf16.utf8 key)) with
          matrixReverse := table (keySchedule (Utf16.utf8 key)).symm }) := by
  have hloop := run_permuteByKeyBytes { z with matrixReverse := table 1 } (Utf16.utf8 key)
  have hempty : swapProd (scheduleOf ([] : List (Fin 16))) = 1 := rfl
  simp only [permuting, List.map_nil, hempty] at hloop
  simp only [getMatrixPermutation, run_bind, run_initMatrixSymChiffer, run_modify, nonNull_some,
    run_liftM, hloop, run_gets, permuting]
  rfl

/-- On a null key it throws, and leaves the identity. -/
theorem run_getMatrixPermutation_none (z : ZenMatrix) :
    (getMatrixPermutation none).run z =
      (.error .argumentNull,
        { z with matrixPermKey := table 1, matrixReverse := table 1, permKeyHash := [] }) := by
  simp only [getMatrixPermutation, run_bind, run_initMatrixSymChiffer, run_modify, nonNull,
    run_liftM]

/-- A call with `init` false answers whether the secret key is the remembered one, and leaves the
state as it was. -/
theorem run_zenMatrixGenWithKey_false (R : Runtime) (secretKey usrHash : NString) (z : ZenMatrix) :
    (zenMatrixGenWithKey R secretKey usrHash false).run z =
      (.ok (!R.differs z.privateKey secretKey), z) := by
  unfold zenMatrixGenWithKey
  rw [run_bind_ok (run_gets _ _)]
  cases R.differs z.privateKey secretKey <;> rfl

/-- Every call leaves the state keyed. -/
theorem keyed_call (R : Runtime) (c : Setup) {z : ZenMatrix} (hz : ∃ σ, Keyed z σ) :
    ∃ σ, Keyed ((c.call R).run z).2 σ := by
  cases c with
  | initMatrixSymChiffer =>
    refine ⟨1, ?_⟩
    rw [Setup.call, run_initMatrixSymChiffer]
    exact ⟨rfl, rfl⟩
  | zenMatrixGenWithKey secretKey usrHash init =>
    cases init with
    | false =>
      rw [Setup.call, run_bind_ok (run_zenMatrixGenWithKey_false R secretKey usrHash z)]
      exact hz
    | true =>
      refine ⟨1, ?_⟩
      rw [Setup.call, run_bind_ok (run_zenMatrixGenWithKey R secretKey usrHash z)]
      exact keyed_identity _ _
  | getMatrixPermutation key =>
    rcases key with _ | key
    · refine ⟨1, ?_⟩
      rw [Setup.call, run_bind_error (run_getMatrixPermutation_none z)]
      exact ⟨rfl, rfl⟩
    · refine ⟨keySchedule (Utf16.utf8 key), ?_⟩
      rw [Setup.call, run_bind_ok (run_getMatrixPermutation_some key z)]
      exact ⟨rfl, rfl⟩

/-- **Every reachable state is keyed by some permutation.** -/
theorem exists_keyed (R : Runtime) (calls : List Setup) :
    ∃ σ, Keyed (finalState (Setup.call R) calls initial) σ :=
  finalState_induction (P := fun z => ∃ σ, Keyed z σ) (Setup.call R)
    (fun c _ hz => keyed_call R c hz) calls ⟨1, initial_eq_identity ▸ keyed_identity [] []⟩

/-! ## The two matrices -/

/-- A call whose key, if it must have one, is not null returns. -/
theorem call_returns (R : Runtime) {c : Setup} (hc : c ≠ .getMatrixPermutation none)
    (z : ZenMatrix) : ((c.call R).run z).1 = .ok () := by
  cases c with
  | initMatrixSymChiffer => rw [Setup.call, run_initMatrixSymChiffer]
  | zenMatrixGenWithKey secretKey usrHash init =>
    cases init with
    | false =>
      rw [Setup.call, run_bind_ok (run_zenMatrixGenWithKey_false R secretKey usrHash z), run_pure]
    | true =>
      rw [Setup.call, run_bind_ok (run_zenMatrixGenWithKey R secretKey usrHash z), run_pure]
  | getMatrixPermutation key =>
    cases key with
    | none => exact absurd rfl hc
    | some key => rw [Setup.call, run_bind_ok (run_getMatrixPermutation_some key z), run_pure]

/-- `MatrixPermKey` is a permutation of 0..15, and `MatrixReverse` its inverse. -/
structure InversePermutations (z : ZenMatrix) : Prop where
  perm : z.matrixPermKey.Perm matrixBasePerm
  length_matrixReverse : z.matrixReverse.length = 16
  left : ∀ i : Fin 16, ∃ j : Fin 16, z.matrixPermKey[(i : ℕ)]? = some ((j : ℕ) : Int) ∧
    z.matrixReverse[(j : ℕ)]? = some ((i : ℕ) : Int)
  right : ∀ i : Fin 16, ∃ j : Fin 16, z.matrixReverse[(i : ℕ)]? = some ((j : ℕ) : Int) ∧
    z.matrixPermKey[(j : ℕ)]? = some ((i : ℕ) : Int)

theorem table_perm (σ : Perm (Fin 16)) : (table σ).Perm matrixBasePerm := by
  have hmap : table σ = ((List.finRange 16).map σ).map fun i : Fin 16 => ((i : ℕ) : Int) := by
    rw [table, List.map_map]
    rfl
  rw [hmap]
  exact (Perm.map_finRange_perm σ).map fun i : Fin 16 => ((i : ℕ) : Int)

theorem Keyed.inversePermutations {z : ZenMatrix} {σ : Perm (Fin 16)} (h : Keyed z σ) :
    InversePermutations z := by
  constructor
  · rw [h.matrixPermKey]
    exact table_perm σ
  · rw [h.matrixReverse, length_table]
  · intro i
    refine ⟨σ i, ?_, ?_⟩
    · rw [h.matrixPermKey, getElem?_table]
    · rw [h.matrixReverse, getElem?_table, symm_apply_apply]
  · intro i
    refine ⟨σ.symm i, ?_, ?_⟩
    · rw [h.matrixReverse, getElem?_table]
    · rw [h.matrixPermKey, getElem?_table, apply_symm_apply]

/-- **The invariant of the static state**: the static constructor and every setup call on a key that
is not null return, and leave two matrices that are inverse permutations. -/
theorem inversePermutations_finalState (R : Runtime) (calls : List Setup)
    (hkeys : .getMatrixPermutation none ∉ calls) :
    (initMatrixSymChiffer.run ⟨[], [], [], [], []⟩).1 = .ok () ∧
      (∀ bs c cs, calls = bs ++ c :: cs →
        ((c.call R).run (finalState (Setup.call R) bs initial)).1 = .ok ()) ∧
      InversePermutations (finalState (Setup.call R) calls initial) := by
  refine ⟨by rw [run_initMatrixSymChiffer], ?_, ?_⟩
  · intro bs c cs hcalls
    refine call_returns R ?_ _
    rintro rfl
    exact hkeys (by simp [hcalls])
  · obtain ⟨σ, hσ⟩ := exists_keyed R calls
    exact hσ.inversePermutations

/-- A key is taken over from the matrices of another one. -/
theorem inversePermutations_keyed_twice :
    let R := (Deployment.resx (fun _ _ => 0) (· == ·)).toRuntime
    let calls : List Setup := [.getMatrixPermutation (some (.ofString "zen")),
      .zenMatrixGenWithKey (some (.ofString "a")) none true,
      .getMatrixPermutation (some (.ofString "abc"))]
    (initMatrixSymChiffer.run ⟨[], [], [], [], []⟩).1 = .ok () ∧
      (∀ bs c cs, calls = bs ++ c :: cs →
        ((c.call R).run (finalState (Setup.call R) bs initial)).1 = .ok ()) ∧
      InversePermutations (finalState (Setup.call R) calls initial) :=
  inversePermutations_finalState _ _ (by simp)

end ZenMatrix

end Server6
