import Mathlib.Data.List.DropRight
import Server6.Foundations.Search
import Server6.SymCipher.Runtime

/-!
# Searching byte arrays

`ArrayIndexOf` looks from the end of an array for a byte that is not the given one
(`arrayIndexOf_eq`). `BytesBytes` tries the indices of the haystack in order. One index of the
needle, `needleIt`, is shared by the two loops: it is set to zero on a mismatch only, which is the
only way out of the inner loop that does not return.

* `bytesBytes_eq` is what it returns, on every haystack and needle: the first index below
  `hayStack.Length - needle.Length` at which the compared bytes occur. It throws on none, so that
  no access is out of range.
* `findsFirst_iff`: the last position is never tried.
* `matchesPrefix_iff`: `matchBytes` stops the comparison one byte late.
-/

namespace Server6

namespace Extensions

/-! ## The last other byte -/

/-- The loop of `ArrayIndexOf`, with the number of cells still to come. -/
def lastOther (bytes : Bytes) (value : UInt8) : ℕ → Except Exn Int
  | 0 => .ok (-1)
  | bCnt + 1 => do
    let b ← readAt Exn.indexOutOfRange bytes bCnt
    if b ≠ value then return bCnt
    else lastOther bytes value bCnt

/-- `ArrayIndexOf`. -/
def arrayIndexOf (bytes : Option Bytes) (value : UInt8) : Except Exn Int :=
  match bytes with
  | none => .error .nullReference
  | some bytes => lastOther bytes value bytes.length

theorem lastOther_eq (bytes : Bytes) (value : UInt8) {n : ℕ} (hn : n ≤ bytes.length) :
    lastOther bytes value n =
      .ok (((bytes.take n).rdropWhile (· == value)).length - 1 : Int) := by
  induction n with
  | zero => rfl
  | succ n ih =>
    rw [lastOther, readAt_of_lt _ hn, ok_bind, List.take_succ_eq_append_getElem hn]
    by_cases hvalue : bytes[n] = value
    · rw [if_neg (not_not.2 hvalue), ih (by omega), List.rdropWhile_concat_pos]
      simpa using hvalue
    · have hcast : ((n + 1 : ℕ) : Int) - 1 = n := by omega
      rw [if_pos hvalue, List.rdropWhile_concat_neg _ _ _ (by simpa using hvalue),
        List.length_append, List.length_take_of_le (by omega), List.length_singleton, hcast]
      rfl

/-- **What `ArrayIndexOf` returns**: the index of the last byte that is not the given one. -/
theorem arrayIndexOf_eq (bytes : Bytes) (value : UInt8) :
    arrayIndexOf (some bytes) value =
      .ok ((bytes.rdropWhile (· == value)).length - 1 : Int) := by
  rw [arrayIndexOf, lastOther_eq bytes value le_rfl, List.take_length]

/-! ## The loops of `BytesBytes` -/

/-- The inner loop, with the indices of the needle still to come: the index that is returned from
it, if any, and `needleIt` after it. -/
def compareRest (hayStack needle : Bytes) (matchBytes : Int) (fFwdIt : ℕ) :
    List ℕ → Except Exn (Option ℕ × ℕ)
  | [] => .ok (none, needle.length)
  | needleIt :: rest => do
    let a ← readAt Exn.indexOutOfRange hayStack (fFwdIt + needleIt)
    let b ← readAt Exn.indexOutOfRange needle needleIt
    if a ≠ b then return (none, 0)
    else if 0 < matchBytes ∧ needleIt = matchBytes then return (some fFwdIt, needleIt)
    else if (needle.length : Int) - 1 ≤ needleIt then return (some fFwdIt, needleIt)
    else compareRest hayStack needle matchBytes fFwdIt rest

/-- The outer loop, with the indices of the haystack still to come. -/
def scan (hayStack needle : Bytes) (matchBytes : Int) : List ℕ → ℕ → Except Exn Int
  | [], _ => .ok (-1)
  | fFwdIt :: rest, needleIt => do
    let a ← readAt Exn.indexOutOfRange hayStack fFwdIt
    let b ← readAt Exn.indexOutOfRange needle needleIt
    if a = b then
      if needle.length = 1 then return fFwdIt
      else
        match ← compareRest hayStack needle matchBytes fFwdIt
          (List.range' 1 (needle.length - 1)) with
        | (some i, _) => return i
        | (none, needleIt) => scan hayStack needle matchBytes rest needleIt
    else scan hayStack needle matchBytes rest needleIt

/-- `BytesBytes`. -/
def bytesBytes (hayStack needle : Option Bytes) (matchBytes : Int) : Except Exn Int :=
  match hayStack, needle with
  | some hayStack, some needle =>
    if needle.length = 0 ∨ hayStack.length = 0 ∨ hayStack.length < needle.length then .ok (-1)
    else scan hayStack needle matchBytes (List.range (hayStack.length - needle.length)) 0
  | _, _ => .ok (-1)

/-- `FindBytes`. -/
def findBytes (hayStack needle : Option Bytes) (matchBytes : Int) : Except Exn Int :=
  bytesBytes hayStack needle matchBytes

/-! ## What a search returns -/

/-- The number of bytes that are compared before an index is returned. -/
def compared (matchBytes : Int) (needle : Bytes) : ℕ :=
  if 0 < matchBytes then min (matchBytes.toNat + 1) needle.length else needle.length

theorem compared_le (matchBytes : Int) (needle : Bytes) :
    compared matchBytes needle ≤ needle.length := by
  unfold compared
  split_ifs
  · exact min_le_right _ _
  · exact le_rfl

variable {hayStack needle : Bytes} {matchBytes : Int}

theorem readAt_add {fFwdIt k : ℕ} (h : fFwdIt + k < hayStack.length) :
    readAt Exn.indexOutOfRange hayStack (fFwdIt + (k : Int)) = .ok (hayStack[fFwdIt + k]) :=
  readAt_of_lt _ h

/-- **The inner loop** from index `k` on, of a needle that lies in the haystack. -/
theorem compareRest_eq {fFwdIt : ℕ} (hin : fFwdIt + needle.length ≤ hayStack.length) (d k : ℕ)
    (hd : k + d = needle.length) (hk : k < compared matchBytes needle) :
    ((∀ j, k ≤ j → j < compared matchBytes needle → hayStack[fFwdIt + j]? = needle[j]?) ∧
      ∃ j, compareRest hayStack needle matchBytes fFwdIt (List.range' k d) =
        .ok (some fFwdIt, j)) ∨
    ((∃ j, k ≤ j ∧ j < compared matchBytes needle ∧ hayStack[fFwdIt + j]? ≠ needle[j]?) ∧
      compareRest hayStack needle matchBytes fFwdIt (List.range' k d) = .ok (none, 0)) := by
  have hle := compared_le matchBytes needle
  induction d generalizing k with
  | zero => omega
  | succ d ih =>
    have ha : readAt Exn.indexOutOfRange hayStack (fFwdIt + (k : Int)) =
        .ok hayStack[fFwdIt + k] := readAt_add (by omega)
    have hb : readAt Exn.indexOutOfRange needle (k : Int) = .ok needle[k] :=
      readAt_of_lt _ (by omega)
    have hcell : hayStack[fFwdIt + k]? = needle[k]? ↔
        hayStack[fFwdIt + k] = needle[k] := by
      rw [List.getElem?_eq_getElem (by omega), List.getElem?_eq_getElem (by omega),
        Option.some.injEq]
    rw [List.range'_succ, compareRest, ha, ok_bind, hb, ok_bind]
    by_cases hsame : hayStack[fFwdIt + k] = needle[k]
    · rw [if_neg (not_not.2 hsame)]
      by_cases hlast : compared matchBytes needle = k + 1
      · -- the comparison ends here, by one of its two tests
        refine .inl ⟨fun j hkj hj => ?_, k, ?_⟩
        · obtain rfl : j = k := by omega
          exact hcell.2 hsame
        · unfold compared at hlast
          by_cases hmatch : 0 < matchBytes ∧ (k : Int) = matchBytes
          · rw [if_pos hmatch]
            rfl
          · rw [if_neg hmatch, if_pos]
            · rfl
            · split_ifs at hlast <;> omega
      · have hmatch : ¬ (0 < matchBytes ∧ (k : Int) = matchBytes) := by
          rintro ⟨hpos, hkm⟩
          unfold compared at hk hlast
          rw [if_pos hpos] at hk hlast
          omega
        rw [if_neg hmatch, if_neg (by omega)]
        have hrest := ih (k + 1) (by omega) (by omega)
        refine hrest.imp (And.imp_left fun h j hkj hj => ?_) (And.imp_left ?_)
        · rcases Nat.eq_or_lt_of_le hkj with rfl | hlt
          · exact hcell.2 hsame
          · exact h j hlt hj
        · rintro ⟨j, hkj, hj, hdiff⟩
          exact ⟨j, by omega, hj, hdiff⟩
    · rw [if_pos hsame]
      exact .inr ⟨⟨k, le_rfl, hk, fun h => hsame (hcell.1 h)⟩, rfl⟩

/-- The compared beginning of the needle occurs at the index. -/
def Matches (hayStack needle : Bytes) (matchBytes : Int) (i : ℕ) : Prop :=
  OccursAt (needle.take (compared matchBytes needle)) hayStack i

instance (i : ℕ) : Decidable (Matches hayStack needle matchBytes i) :=
  inferInstanceAs (Decidable (OccursAt _ _ _))

theorem matches_iff {i : ℕ} : Matches hayStack needle matchBytes i ↔
    ∀ k < compared matchBytes needle, hayStack[i + k]? = needle[k]? :=
  occursAt_take_iff (compared_le matchBytes needle)

/-- The index of a search, and -1 for none. -/
def foundIndex : Option ℕ → Int
  | some i => i
  | none => -1

theorem compared_pos (matchBytes : Int) (hne : needle ≠ []) : 0 < compared matchBytes needle := by
  have hpos := List.length_pos_of_ne_nil hne
  unfold compared
  split_ifs <;> omega

/-- **The outer loop**, over any indices at which the needle lies in the haystack. -/
theorem scan_eq (hne : needle ≠ []) (is : List ℕ)
    (his : ∀ i ∈ is, i + needle.length ≤ hayStack.length) :
    scan hayStack needle matchBytes is 0 =
      .ok (foundIndex (is.find? fun i => decide (Matches hayStack needle matchBytes i))) := by
  have hpos := List.length_pos_of_ne_nil hne
  have hcompared := compared_pos matchBytes hne
  induction is with
  | nil => rfl
  | cons i is ih =>
    have hin : i + needle.length ≤ hayStack.length := his i List.mem_cons_self
    have ih := ih fun j hj => his j (List.mem_cons_of_mem _ hj)
    have hi : i < hayStack.length := by omega
    have hcell : hayStack[i + 0]? = needle[0]? ↔ hayStack[i] = needle[0] := by
      rw [Nat.add_zero, List.getElem?_eq_getElem hi, List.getElem?_eq_getElem hpos,
        Option.some.injEq]
    have hzero : readAt Exn.indexOutOfRange needle ((0 : ℕ) : Int) = .ok needle[0] :=
      readAt_of_lt _ hpos
    rw [scan, readAt_of_lt _ hi, ok_bind, hzero, ok_bind]
    by_cases hfirst : hayStack[i] = needle[0]
    · rw [if_pos hfirst]
      by_cases hone : needle.length = 1
      · have hmatches : Matches hayStack needle matchBytes i := by
          refine matches_iff.2 fun k hk => ?_
          have hle := compared_le matchBytes needle
          obtain rfl : k = 0 := by omega
          exact hcell.2 hfirst
        rw [if_pos hone, List.find?_cons_of_pos (by simpa using hmatches)]
        rfl
      · have hmore : 1 < compared matchBytes needle := by
          unfold compared
          split_ifs <;> omega
        rw [if_neg hone]
        obtain ⟨hrest, j, hrun⟩ | ⟨⟨k, -, hk, hdiff⟩, hrun⟩ :=
          compareRest_eq hin (needle.length - 1) 1 (by omega) hmore
        · have hmatches : Matches hayStack needle matchBytes i := by
            refine matches_iff.2 fun k hk => ?_
            rcases Nat.eq_zero_or_pos k with rfl | hkpos
            · exact hcell.2 hfirst
            · exact hrest k hkpos hk
          rw [hrun, ok_bind, List.find?_cons_of_pos (by simpa using hmatches)]
          rfl
        · have hnot : ¬ Matches hayStack needle matchBytes i := fun h =>
            hdiff (matches_iff.1 h k hk)
          rw [hrun, ok_bind, List.find?_cons_of_neg (by simpa using hnot)]
          exact ih
    · have hnot : ¬ Matches hayStack needle matchBytes i := fun h =>
        hfirst (hcell.1 (matches_iff.1 h 0 hcompared))
      rw [if_neg hfirst, List.find?_cons_of_neg (by simpa using hnot)]
      exact ih

/-- **What `BytesBytes` returns** for a needle that is not empty: the first match that leaves at
least one byte of the haystack behind the needle. -/
theorem bytesBytes_eq (hayStack : Bytes) (hne : needle ≠ []) (matchBytes : Int) :
    bytesBytes (some hayStack) (some needle) matchBytes =
      .ok (foundIndex (firstBelow (Matches hayStack needle matchBytes)
        (hayStack.length - needle.length))) := by
  have hpos := List.length_pos_of_ne_nil hne
  simp only [bytesBytes]
  split_ifs with hguard
  · have hbound : hayStack.length - needle.length = 0 := by omega
    rw [hbound]
    rfl
  · refine scan_eq hne _ fun i hi => ?_
    have hi := List.mem_range.1 hi
    omega

/-! ## Searching for the whole needle -/

/-- The outcome of a search for the needle: it returns the first index at which the needle occurs, and
-1 exactly if there is none. -/
def FindsFirst (hayStack needle : Bytes) (outcome : Except Exn Int) : Prop :=
  (∃ i : ℕ, outcome = .ok i ∧ OccursAt needle hayStack i ∧ ∀ j < i, ¬ OccursAt needle hayStack j) ∨
    (outcome = .ok (-1) ∧ ∀ j, ¬ OccursAt needle hayStack j)

theorem matches_all_iff {i : ℕ} :
    Matches hayStack needle (-1) i ↔ OccursAt needle hayStack i := by
  have hall : compared (-1) needle = needle.length := if_neg (by decide)
  rw [Matches, hall, List.take_length]

theorem findsFirst_bytesBytes_iff (hne : needle ≠ []) :
    FindsFirst hayStack needle (bytesBytes (some hayStack) (some needle) (-1)) ↔
      ∀ i, i + needle.length = hayStack.length → OccursAt needle hayStack i →
        ∃ j < i, OccursAt needle hayStack j := by
  rw [bytesBytes_eq hayStack hne]
  cases hfirst : firstBelow (Matches hayStack needle (-1)) (hayStack.length - needle.length) with
  | some i =>
    obtain ⟨hi, hmatches, hbefore⟩ := firstBelow_eq_some_iff.1 hfirst
    rw [matches_all_iff] at hmatches
    refine iff_of_true (.inl ⟨i, rfl, hmatches, fun j hj h => ?_⟩) fun k hk _ => ?_
    · exact hbefore j hj (matches_all_iff.2 h)
    · exact ⟨i, by omega, hmatches⟩
  | none =>
    have hnone := firstBelow_eq_none_iff.1 hfirst
    have hbelow : ∀ j, OccursAt needle hayStack j → j + needle.length = hayStack.length := by
      intro j hj
      have hinside := hj.add_length_le hne
      by_contra hlt
      exact hnone j (by omega) (matches_all_iff.2 hj)
    constructor
    · rintro (⟨i, hi, -⟩ | ⟨-, hnot⟩)
      · exact absurd (Except.ok.inj hi) (by simp [foundIndex])
      · exact fun i _ h => absurd h (hnot i)
    · intro hlast
      refine .inr ⟨rfl, fun j hj => ?_⟩
      -- the last position would need an earlier one, which would be the last one as well
      obtain ⟨k, hkj, hk⟩ := hlast j (hbelow j hj) hj
      have hlastk := hbelow k hk
      have hlastj := hbelow j hj
      omega

/-- **When a search finds the needle**: exactly when the needle does not occur for the first time at
the very end of the haystack. -/
theorem findsFirst_iff (hayStack needle : Bytes) (hne : needle ≠ []) :
    (FindsFirst hayStack needle (bytesBytes (some hayStack) (some needle) (-1)) ∧
        FindsFirst hayStack needle (findBytes (some hayStack) (some needle) (-1))) ↔
      ∀ i, i + needle.length = hayStack.length → OccursAt needle hayStack i →
        ∃ j < i, OccursAt needle hayStack j := by
  rw [findBytes, and_self]
  exact findsFirst_bytesBytes_iff hne

/-- A needle with a byte behind it. -/
theorem findsFirst_middle :
    FindsFirst [1, 2, 1, 2, 3] [1, 2] (bytesBytes (some [1, 2, 1, 2, 3]) (some [1, 2]) (-1)) ∧
      FindsFirst [1, 2, 1, 2, 3] [1, 2] (findBytes (some [1, 2, 1, 2, 3]) (some [1, 2]) (-1)) := by
  refine (findsFirst_iff [1, 2, 1, 2, 3] [1, 2] (by decide)).2 fun i hi h => ?_
  obtain rfl : i = 3 := Nat.add_right_cancel hi
  exact absurd h (by decide)

/-- A needle at the end, and a haystack that is the needle. -/
theorem not_findsFirst_end :
    ¬ FindsFirst [1, 2, 3] [2, 3] (bytesBytes (some [1, 2, 3]) (some [2, 3]) (-1)) ∧
      ¬ FindsFirst [1, 2] [1, 2] (bytesBytes (some [1, 2]) (some [1, 2]) (-1)) := by
  rw [findsFirst_bytesBytes_iff (by decide), findsFirst_bytesBytes_iff (by decide)]
  refine ⟨fun h => ?_, fun h => ?_⟩
  · obtain ⟨j, hj, hoccurs⟩ := h 1 rfl (by decide)
    obtain rfl : j = 0 := by omega
    exact absurd hoccurs (by decide)
  · obtain ⟨j, hj, -⟩ := h 0 rfl (by decide)
    exact Nat.not_lt_zero j hj

/-! ## Searching for its beginning -/

/-- What `matchBytes = m` is for: an index that is returned is one where the first `m` bytes of the
needle occur, no such index in reach is passed over, and the other bytes of the needle do not
matter. -/
structure MatchesPrefix (hayStack needle : Bytes) (m : ℕ) : Prop where
  sound : ∀ i : ℕ, bytesBytes (some hayStack) (some needle) m = .ok i →
    OccursAt (needle.take m) hayStack i
  complete : ∀ j, j + needle.length < hayStack.length → OccursAt (needle.take m) hayStack j →
    ∃ i ≤ j, bytesBytes (some hayStack) (some needle) m = .ok ((i : ℕ) : Int)
  exact : ∀ needle' : Bytes, needle'.length = needle.length → needle'.take m = needle.take m →
    bytesBytes (some hayStack) (some needle') m = bytesBytes (some hayStack) (some needle) m

theorem compared_natCast {m : ℕ} (hpos : 0 < m) (needle : Bytes) :
    compared m needle = min (m + 1) needle.length := by
  rw [compared, if_pos (by omega), Int.toNat_natCast]

theorem foundIndex_eq_natCast_iff {r : Option ℕ} {i : ℕ} : foundIndex r = i ↔ r = some i := by
  cases r with
  | none => simp [foundIndex]
  | some j =>
    rw [Option.some.injEq]
    exact Int.ofNat_inj

/-- An index that is returned, by the bytes that are compared. -/
theorem bytesBytes_eq_ok_iff (hne : needle ≠ []) {i : ℕ} :
    bytesBytes (some hayStack) (some needle) matchBytes = .ok i ↔
      i + needle.length < hayStack.length ∧ Matches hayStack needle matchBytes i ∧
        ∀ j < i, ¬ Matches hayStack needle matchBytes j := by
  rw [bytesBytes_eq hayStack hne, Except.ok.injEq, foundIndex_eq_natCast_iff,
    firstBelow_eq_some_iff, Nat.lt_sub_iff_add_lt]

theorem Matches.occursAt_take {m i : ℕ} (hpos : 0 < m) (hm : m ≤ needle.length)
    (h : Matches hayStack needle m i) : OccursAt (needle.take m) hayStack i := by
  refine OccursAt.take_of_le h ?_ (compared_le _ _)
  rw [compared_natCast hpos]
  omega

/-- The byte behind the first `m` is compared as well: with another one the index is lost. -/
theorem bytesBytes_set_ne {m i : ℕ} (hpos : 0 < m) (hlt : m < needle.length) {b : UInt8}
    (hb : b ≠ needle[m]) (hi : bytesBytes (some hayStack) (some needle) m = .ok i) :
    bytesBytes (some hayStack) (some (needle.set m b)) m ≠ .ok i := by
  intro hi'
  have hlen : (needle.set m b).length = needle.length := List.length_set
  have hcompared : ∀ w : Bytes, w.length = needle.length → m < compared m w := by
    intro w hw
    rw [compared_natCast hpos]
    omega
  have hne : needle ≠ [] := List.ne_nil_of_length_pos (by omega)
  have hne' : needle.set m b ≠ [] := List.ne_nil_of_length_pos (by omega)
  have hcell := matches_iff.1 ((bytesBytes_eq_ok_iff hne).1 hi).2.1 m (hcompared _ rfl)
  have hcell' := matches_iff.1 ((bytesBytes_eq_ok_iff hne').1 hi').2.1 m (hcompared _ hlen)
  rw [hcell, List.getElem?_eq_getElem hlt, List.getElem?_set_self hlt, Option.some.injEq] at hcell'
  exact hb hcell'.symm

/-- A search that is one for the first `m` bytes can only look for the whole needle, or find
nothing. -/
theorem MatchesPrefix.whole_or_nowhere {m : ℕ} (h : MatchesPrefix hayStack needle m)
    (hpos : 0 < m) (hm : m ≤ needle.length) : m = needle.length ∨
      ∀ j, j + needle.length < hayStack.length → ¬ OccursAt (needle.take m) hayStack j := by
  refine or_iff_not_imp_left.2 fun hshort j hj hoccurs => ?_
  have hlt : m < needle.length := by omega
  obtain ⟨i, -, hi⟩ := h.complete j hj hoccurs
  have hother : needle[m] + 1 ≠ needle[m] := by
    rw [Ne, UInt8.ext_iff, UInt8.toNat_add]
    have := needle[m].toNat_lt
    simp
    omega
  have htake : (needle.set m (needle[m] + 1)).take m = needle.take m := by
    rw [List.take_set, List.set_eq_of_length_le (by rw [List.length_take]; omega)]
  exact bytesBytes_set_ne hpos hlt hother hi ((h.exact _ List.length_set htake).trans hi)

/-- The whole needle is compared as such. -/
theorem matchesPrefix_length (hne : needle ≠ []) :
    MatchesPrefix hayStack needle needle.length := by
  have hpos := List.length_pos_of_ne_nil hne
  have hmatches : ∀ i, Matches hayStack needle needle.length i ↔
      OccursAt (needle.take needle.length) hayStack i := by
    intro i
    have hcompared : compared needle.length needle = needle.length := by
      rw [compared_natCast hpos]
      omega
    rw [Matches, hcompared]
  refine ⟨fun i hi => ?_, fun j hj hoccurs => ?_, fun needle' hlen htake => ?_⟩
  · exact (hmatches i).1 ((bytesBytes_eq_ok_iff hne).1 hi).2.1
  · rw [bytesBytes_eq hayStack hne]
    cases hfirst : firstBelow (Matches hayStack needle needle.length)
        (hayStack.length - needle.length) with
    | none =>
      exact absurd ((hmatches j).2 hoccurs) (firstBelow_eq_none_iff.1 hfirst j (by omega))
    | some i =>
      refine ⟨i, Nat.le_of_not_lt fun hlt => ?_, rfl⟩
      exact (firstBelow_eq_some_iff.1 hfirst).2.2 j hlt ((hmatches j).2 hoccurs)
  · rw [List.take_length, ← hlen, List.take_length] at htake
    rw [htake]

/-- Where the first `m` bytes occur nowhere in reach, nothing is found. -/
theorem bytesBytes_eq_neg_one {m : ℕ} (hpos : 0 < m) (hm : m ≤ needle.length)
    (hnowhere : ∀ j, j + needle.length < hayStack.length →
      ¬ OccursAt (needle.take m) hayStack j) :
    bytesBytes (some hayStack) (some needle) m = .ok (-1) := by
  rw [bytesBytes_eq hayStack (List.ne_nil_of_length_pos (by omega)),
    firstBelow_eq_none_iff.2 fun j hj hmatch => ?_]
  · rfl
  · exact hnowhere j (by omega) (hmatch.occursAt_take hpos hm)

/-- **When a search for the first `m` bytes is one**: exactly when they are the whole needle, or
occur nowhere in reach. -/
theorem matchesPrefix_iff (hayStack needle : Bytes) (m : ℕ) (hpos : 1 ≤ m)
    (hm : m ≤ needle.length) : MatchesPrefix hayStack needle m ↔ m = needle.length ∨
      ∀ j, j + needle.length < hayStack.length → ¬ OccursAt (needle.take m) hayStack j := by
  have hne : needle ≠ [] := List.ne_nil_of_length_pos (by omega)
  constructor
  · exact fun h => h.whole_or_nowhere hpos hm
  · rintro (rfl | hnowhere)
    · exact matchesPrefix_length hne
    · refine ⟨fun i hi => ?_, fun j hj hoccurs => absurd hoccurs (hnowhere j hj), ?_⟩
      · exact ((bytesBytes_eq_ok_iff hne).1 hi).2.1.occursAt_take hpos hm
      · intro needle' hlen htake
        rw [bytesBytes_eq_neg_one hpos hm hnowhere,
          bytesBytes_eq_neg_one hpos (hm.trans_eq hlen.symm) (by rwa [hlen, htake])]

/-- The whole needle. -/
theorem matchesPrefix_whole : MatchesPrefix [0, 1, 2, 3] [1, 2] 2 :=
  (matchesPrefix_iff [0, 1, 2, 3] [1, 2] 2 (by decide) (by decide)).2 (.inl rfl)

/-- The first byte of the needle occurs, the second one behind it does not, and nothing is found. -/
theorem not_matchesPrefix_first : ¬ MatchesPrefix [1, 9, 9, 9] [1, 2] 1 := by
  intro h
  obtain ⟨i, hle, hi⟩ := h.complete 0 (by decide) (by decide)
  obtain rfl := Nat.le_zero.1 hle
  exact absurd ((bytesBytes_eq_ok_iff (by decide)).1 hi).2.1 (by decide)

end Extensions

end Server6
