import Mathlib.Data.List.Basic
import Mathlib.Data.List.Range
import Mathlib.Data.Int.Init
import Mathlib.Tactic.Common

/-!
# Arrays with checked accesses

An array is the list of its cells. Every access checks its index, and a failed check throws the
exception the caller names, so that "no access is out of range" is the statement that an operation
returns. The two loop rules give what a loop over the indices leaves in an array it fills in
order (`foldlM_fill`) and what a loop that appends block after block leaves
(`foldlM_append_blocks`).
-/

namespace Server6

variable {ε α β : Type}

@[simp] theorem ok_bind (a : α) (f : α → Except ε β) : (Except.ok a >>= f) = f a := rfl

@[simp] theorem error_bind (e : ε) (f : α → Except ε β) :
    ((Except.error e : Except ε α) >>= f) = .error e := rfl

/-- Read cell `i`. -/
def readAt (oob : ε) (xs : List α) (i : Int) : Except ε α :=
  if 0 ≤ i then
    match xs[i.toNat]? with
    | some a => .ok a
    | none => .error oob
  else .error oob

/-- Write cell `i`. -/
def writeAt (oob : ε) (xs : List α) (i : Int) (a : α) : Except ε (List α) :=
  if 0 ≤ i ∧ i.toNat < xs.length then .ok (xs.set i.toNat a) else .error oob

theorem readAt_natCast (oob : ε) {xs : List α} {i : ℕ} {a : α} (h : xs[i]? = some a) :
    readAt oob xs (i : Int) = .ok a := by
  simp [readAt, h]

theorem readAt_of_lt (oob : ε) {xs : List α} {i : ℕ} (h : i < xs.length) :
    readAt oob xs (i : Int) = .ok xs[i] :=
  readAt_natCast oob (List.getElem?_eq_getElem h)

theorem mem_of_readAt {oob : ε} {xs : List α} {i : Int} {a : α} (h : readAt oob xs i = .ok a) :
    a ∈ xs := by
  unfold readAt at h
  split_ifs at h
  cases hget : xs[i.toNat]? with
  | none => simp [hget] at h
  | some b =>
    simp only [hget] at h
    obtain rfl := Except.ok.inj h
    exact List.mem_of_getElem? hget

theorem readAt_error {oob e : ε} {xs : List α} {i : Int} (h : readAt oob xs i = .error e) :
    e = oob := by
  unfold readAt at h
  split_ifs at h
  · cases hget : xs[i.toNat]? with
    | none => simpa [hget] using h.symm
    | some b => simp [hget] at h
  · exact (Except.error.inj h).symm

theorem writeAt_natCast (oob : ε) {xs : List α} {i : ℕ} (h : i < xs.length) (a : α) :
    writeAt oob xs (i : Int) a = .ok (xs.set i a) := by
  simp [writeAt, h]

/-! ## Loops over the indices of an array -/

/-- The cells up to one that is set. -/
theorem take_set_succ {xs : List α} {i : ℕ} (h : i < xs.length) (a : α) :
    (xs.set i a).take (i + 1) = xs.take i ++ [a] := by
  rw [List.take_add_one, List.take_set_of_le (Nat.le_refl i), List.getElem?_set_self h]
  rfl

/-- Writing `f 0, …, f (n - 1)` in order into an array of at least `n` cells. -/
theorem foldl_set_range (f : ℕ → α) (xs : List α) (n : ℕ) (hn : n ≤ xs.length) :
    (List.range n).foldl (fun ys i => ys.set i (f i)) xs =
      (List.range n).map f ++ xs.drop n := by
  induction n with
  | zero => simp
  | succ n ih =>
    rw [List.range_succ, List.foldl_append, ih (by omega), List.map_append, List.foldl_cons,
      List.foldl_nil, List.set_append_right _ _ (by simp)]
    simp only [List.length_map, List.length_range, Nat.sub_self, List.map_cons, List.map_nil,
      List.append_assoc, List.singleton_append]
    rw [List.drop_eq_getElem_cons (show n < xs.length by omega), List.set_cons_zero]

/-- **The filling loop**: a loop whose iteration `i` writes `f i` into cell `i` of an array of `n`
cells returns the array of the values `f`, whatever the cells held before. -/
theorem foldlM_fill {n : ℕ} {body : List α → ℕ → Except ε (List α)} (f : ℕ → α)
    (hbody : ∀ ys i, ys.length = n → i < n → body ys i = .ok (ys.set i (f i)))
    {xs : List α} (hxs : xs.length = n) :
    (List.range n).foldlM body xs = .ok ((List.range n).map f) := by
  have key : ∀ k ≤ n, (List.range k).foldlM body xs =
      .ok ((List.range k).foldl (fun ys i => ys.set i (f i)) xs) ∧
        ((List.range k).foldl (fun ys i => ys.set i (f i)) xs).length = n := by
    intro k
    induction k with
    | zero => exact fun _ => ⟨rfl, hxs⟩
    | succ k ih =>
      intro hk
      obtain ⟨h, hlen⟩ := ih (by omega)
      rw [List.range_succ, List.foldlM_append, h, List.foldl_append]
      refine ⟨?_, by simpa using hlen⟩
      simp [Pure.pure, Except.pure, hbody _ k hlen (by omega)]
  rw [(key n le_rfl).1, foldl_set_range f xs n hxs.ge, List.drop_eq_nil_of_le hxs.le,
    List.append_nil]

/-- **The appending loop**: a loop whose iteration on `a` appends `f a`. -/
theorem foldlM_append_blocks {body : List β → α → Except ε (List β)} (f : α → List β)
    (xs : List α) (hbody : ∀ ys, ∀ a ∈ xs, body ys a = .ok (ys ++ f a)) (ys : List β) :
    xs.foldlM body ys = .ok (ys ++ xs.flatMap f) := by
  induction xs generalizing ys with
  | nil => simp [Pure.pure, Except.pure]
  | cons a xs ih =>
    rw [List.foldlM_cons, hbody ys a (by simp)]
    have := ih (fun ys b hb => hbody ys b (by simp [hb])) (ys ++ f a)
    simpa [List.append_assoc] using this

end Server6
