import Mathlib.Data.List.FinRange
import Mathlib.Data.List.GetD
import Mathlib.Logic.Equiv.Defs
import Server6.Foundations.Arrays

/-!
# Block by block

A list cut into blocks of `m` cells, each block mapped on its own (`blockwise`), and the block map
that moves the cells by a permutation and maps each of them (`permuteCells`).

`blockwise_leftInverse` lifts an inverse from blocks to lists, `permuteCells_symm` is the inverse on
blocks, and `foldlM_scatter` is the loop that computes `permuteCells`: it writes the image of
cell `i` into cell `σ i` of a new array.
-/

namespace Server6

open Equiv

variable {ε α β : Type}

/-! ## Lists of blocks -/

/-- The first `q` blocks of `m` cells, each mapped by `f`. -/
def blockwise (m : ℕ) (f : List α → List β) : ℕ → List α → List β
  | 0, _ => []
  | q + 1, xs => f (xs.take m) ++ blockwise m f q (xs.drop m)

/-- The loop over the offsets `m * k` computes the same list. -/
theorem flatMap_range_eq_blockwise (m : ℕ) (f : List α → List β) (q : ℕ) (xs : List α) :
    ((List.range q).flatMap fun k => f ((xs.drop (m * k)).take m)) = blockwise m f q xs := by
  induction q generalizing xs with
  | zero => rfl
  | succ q ih =>
    rw [List.range_succ_eq_map, List.flatMap_cons, List.flatMap_map, blockwise, ← ih]
    simp only [Nat.mul_zero, List.drop_zero, List.drop_drop, Nat.mul_succ, Nat.add_comm]

theorem length_blockwise {m n : ℕ} {f : List α → List β}
    (hf : ∀ b, b.length = m → (f b).length = n) {q : ℕ} {xs : List α} (hxs : xs.length = m * q) :
    (blockwise m f q xs).length = n * q := by
  induction q generalizing xs with
  | zero => rfl
  | succ q ih =>
    rw [Nat.mul_succ] at hxs
    have hhead : (xs.take m).length = m := by rw [List.length_take]; omega
    have htail : (xs.drop m).length = m * q := by rw [List.length_drop]; omega
    rw [blockwise, List.length_append, hf _ hhead, ih htail, Nat.mul_succ, Nat.add_comm]

theorem blockwise_append (m : ℕ) (f : List α → List β) {q : ℕ} {xs : List α}
    (hxs : xs.length = m * q) (r : ℕ) (ys : List α) :
    blockwise m f (q + r) (xs ++ ys) = blockwise m f q xs ++ blockwise m f r ys := by
  induction q generalizing xs with
  | zero =>
    obtain rfl : xs = [] := List.length_eq_zero_iff.1 (by simpa using hxs)
    simp [blockwise]
  | succ q ih =>
    rw [Nat.mul_succ] at hxs
    have htail : (xs.drop m).length = m * q := by rw [List.length_drop]; omega
    rw [Nat.succ_add, blockwise, blockwise, List.take_append_of_le_length (by omega),
      List.drop_append_of_le_length (by omega), ih htail, List.append_assoc]

/-- **An inverse on blocks is an inverse on lists of blocks.** -/
theorem blockwise_leftInverse {m : ℕ} {f : List α → List β} {g : List β → List α}
    (hf : ∀ b, b.length = m → (f b).length = m) (hg : ∀ b, b.length = m → g (f b) = b) {q : ℕ}
    {xs : List α} (hxs : xs.length = m * q) : blockwise m g q (blockwise m f q xs) = xs := by
  induction q generalizing xs with
  | zero => exact (List.length_eq_zero_iff.1 (by simpa using hxs)).symm
  | succ q ih =>
    rw [Nat.mul_succ] at hxs
    have hhead : (xs.take m).length = m := by rw [List.length_take]; omega
    have htail : (xs.drop m).length = m * q := by rw [List.length_drop]; omega
    rw [blockwise, blockwise, List.take_left' (hf _ hhead), List.drop_left' (hf _ hhead),
      hg _ hhead, ih htail, List.take_append_drop]

/-- Block `k` of a list. -/
def segment (m k : ℕ) (xs : List α) : List α := (xs.drop (m * k)).take m

theorem length_segment {m k : ℕ} {xs : List α} (h : m * (k + 1) ≤ xs.length) :
    (segment m k xs).length = m := by
  rw [Nat.mul_succ] at h
  rw [segment, List.length_take, List.length_drop]
  omega

/-- Block `k` of a list that is mapped block by block. -/
theorem segment_blockwise {m : ℕ} {f : List α → List β} (hf : ∀ b, b.length = m → (f b).length = m)
    {k q : ℕ} (hk : k < q) {xs : List α} (hxs : xs.length = m * q) :
    segment m k (blockwise m f q xs) = f (segment m k xs) := by
  induction k generalizing q xs with
  | zero =>
    obtain ⟨q, rfl⟩ := Nat.exists_eq_succ_of_ne_zero (Nat.ne_of_gt hk)
    rw [Nat.mul_succ] at hxs
    have hhead : (xs.take m).length = m := by rw [List.length_take]; omega
    simp only [segment, Nat.mul_zero, List.drop_zero]
    rw [blockwise, List.take_left' (hf _ hhead)]
  | succ k ih =>
    obtain ⟨q, rfl⟩ := Nat.exists_eq_succ_of_ne_zero (Nat.ne_of_gt (Nat.zero_lt_of_lt hk))
    rw [Nat.mul_succ] at hxs
    have hhead : (xs.take m).length = m := by rw [List.length_take]; omega
    have htail : (xs.drop m).length = m * q := by rw [List.length_drop]; omega
    have hdrop : ∀ {γ : Type} (ys : List γ), segment m (k + 1) ys = segment m k (ys.drop m) := by
      intro γ ys
      rw [segment, segment, List.drop_drop, Nat.mul_succ, Nat.add_comm m]
    rw [hdrop, hdrop, ← ih (Nat.lt_of_succ_lt_succ hk) htail, blockwise,
      List.drop_left' (hf _ hhead)]

theorem length_flatMap_segment {m : ℕ} {places : List ℕ} {xs : List α}
    (h : ∀ k ∈ places, m * (k + 1) ≤ xs.length) :
    (places.flatMap fun k => segment m k xs).length = m * places.length := by
  induction places with
  | nil => rfl
  | cons k places ih =>
    rw [List.flatMap_cons, List.length_append, length_segment (h k List.mem_cons_self),
      ih fun k hk => h k (List.mem_cons_of_mem _ hk), List.length_cons, Nat.mul_succ, Nat.add_comm]

/-- The blocks at some places, one after the other, are mapped one by one. -/
theorem blockwise_flatMap_segment {m : ℕ} (f : List α → List β) {places : List ℕ} {xs : List α}
    (h : ∀ k ∈ places, m * (k + 1) ≤ xs.length) :
    blockwise m f places.length (places.flatMap fun k => segment m k xs) =
      places.flatMap fun k => f (segment m k xs) := by
  induction places with
  | nil => rfl
  | cons k places ih =>
    have hk := length_segment (h k List.mem_cons_self)
    rw [List.flatMap_cons, List.flatMap_cons, List.length_cons, blockwise, List.take_left' hk,
      List.drop_left' hk, ih fun k hk => h k (List.mem_cons_of_mem _ hk)]

/-! ## Permuting the cells of a block -/

variable {m : ℕ}

/-- The block whose cell `σ i` is `φ` of cell `i`. -/
def permuteCells [Inhabited α] (σ : Perm (Fin m)) (φ : α → β) (xs : List α) : List β :=
  (List.finRange m).map fun j => φ (xs.getD (σ.symm j) default)

@[simp] theorem length_permuteCells [Inhabited α] (σ : Perm (Fin m)) (φ : α → β) (xs : List α) :
    (permuteCells σ φ xs).length = m := by
  simp [permuteCells]

theorem getD_permuteCells [Inhabited α] (σ : Perm (Fin m)) (φ : α → β) (xs : List α) (j : Fin m)
    (b : β) : (permuteCells σ φ xs).getD j b = φ (xs.getD (σ.symm j) default) := by
  rw [List.getD_eq_getElem _ _ (by simp)]
  simp [permuteCells]

/-- **Permuting back.** -/
theorem permuteCells_symm [Inhabited α] [Inhabited β] (σ : Perm (Fin m)) {φ : α → β} {ψ : β → α}
    (h : Function.LeftInverse ψ φ) {xs : List α} (hxs : xs.length = m) :
    permuteCells σ.symm ψ (permuteCells σ φ xs) = xs := by
  apply List.ext_getElem
  · rw [length_permuteCells, hxs]
  · intro i hi hi'
    have hcell := getD_permuteCells σ φ xs (σ ⟨i, hxs ▸ hi'⟩) default
    rw [symm_apply_apply] at hcell
    have hget : xs.getD i default = xs[i] := List.getD_eq_getElem _ _ hi'
    simp only [permuteCells, List.getElem_map, List.getElem_finRange, Fin.cast_mk, symm_symm]
    rw [← hget, ← h (xs.getD i default)]
    exact congrArg ψ hcell

theorem permuteCells_replicate [Inhabited α] (σ : Perm (Fin m)) (φ : α → β) (a : α) :
    permuteCells σ φ (List.replicate m a) = List.replicate m (φ a) := by
  refine List.eq_replicate_iff.2 ⟨length_permuteCells .., fun b hb => ?_⟩
  obtain ⟨j, -, rfl⟩ := List.mem_map.1 hb
  rw [List.getD_eq_getElem _ _ (by simp), List.getElem_replicate]

/-- **The scattering loop**: writing `f i` into cell `σ i`, for every `i` in order, fills an array
of `m` cells with `f (σ.symm j)` in cell `j`. -/
theorem foldlM_scatter {body : List β → ℕ → Except ε (List β)} (σ : Perm (Fin m)) (f : Fin m → β)
    (hbody : ∀ ys, ∀ i : Fin m, ys.length = m → body ys i = .ok (ys.set (σ i) (f i)))
    {xs : List β} (hxs : xs.length = m) :
    (List.range m).foldlM body xs = .ok ((List.finRange m).map fun j => f (σ.symm j)) := by
  -- after `k` iterations the cells `σ i` with `i < k` are written
  have key : ∀ k ≤ m, ∃ ys, (List.range k).foldlM body xs = .ok ys ∧ ys.length = m ∧
      ∀ i : Fin m, (i : ℕ) < k → ys[(σ i : ℕ)]? = some (f i) := by
    intro k
    induction k with
    | zero => exact fun _ => ⟨xs, rfl, hxs, fun i hi => absurd hi (Nat.not_lt_zero _)⟩
    | succ k ih =>
      intro hk
      obtain ⟨ys, hrun, hlen, hcells⟩ := ih (by omega)
      refine ⟨ys.set (σ ⟨k, hk⟩) (f ⟨k, hk⟩), ?_, by simpa using hlen, fun i hi => ?_⟩
      · rw [List.range_succ, List.foldlM_append, hrun]
        simp [Pure.pure, Except.pure, hbody ys ⟨k, hk⟩ hlen]
      · rcases eq_or_ne i ⟨k, hk⟩ with rfl | hne
        · exact List.getElem?_set_self (by omega)
        · have hik : (i : ℕ) ≠ k := fun h => hne (Fin.ext h)
          rw [List.getElem?_set_ne fun h => hne (σ.injective (Fin.ext h)).symm]
          exact hcells i (by omega)
  obtain ⟨ys, hrun, hlen, hcells⟩ := key m le_rfl
  rw [hrun]
  refine congrArg Except.ok (List.ext_getElem (by simp [hlen]) fun j hj hj' => ?_)
  have hcell := hcells (σ.symm ⟨j, hlen ▸ hj⟩) (Fin.isLt _)
  rw [apply_symm_apply, List.getElem?_eq_getElem hj] at hcell
  rw [Option.some.inj hcell, List.getElem_map, List.getElem_finRange]
  rfl

end Server6
