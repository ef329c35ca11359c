import Server6.SymCipher.ZenMatrix

/-!
# The key schedule of the matrix cipher

A state is keyed by a permutation of `Fin 16` (`Keyed`), and a key's permutation is the product of
the transpositions of its distinct low nibbles with their ordinals (`keySchedule`).

* `run_permuteByKeyBytes` is the loop shared by `ZenMatrixGenWithKey` and `GetMatrixPermutation`,
  started with no nibble seen: it ends keyed by the schedule.
* `run_permuteByKeyBytes_full` is the same loop started with every nibble seen, as
  `InitMatrixSymChiffer` leaves the set: it skips every byte.
* `followsSchedule_iff` is the consequence for `ZenMatrixGenWithKey`: the installed permutation is
  the identity, and it is the key's exactly when the key's nibbles are an involution.
-/

namespace Server6

open Equiv

namespace ZenMatrix

open Method

/-! ## Tables of permutations -/

/-- The table of a permutation of 0..15. -/
def table (σ : Perm (Fin 16)) : List Int := (List.finRange 16).map fun i => ((σ i : ℕ) : Int)

@[simp] theorem length_table (σ : Perm (Fin 16)) : (table σ).length = 16 := by
  simp [table]

theorem getElem?_table (σ : Perm (Fin 16)) (i : Fin 16) :
    (table σ)[(i : ℕ)]? = some ((σ i : ℕ) : Int) := by
  simp [table]

theorem readAt_table (σ : Perm (Fin 16)) (i : Fin 16) :
    readAt Exn.indexOutOfRange (table σ) (i : ℕ) = .ok ((σ i : ℕ) : Int) :=
  readAt_natCast _ (getElem?_table σ i)

theorem table_injective : Function.Injective table := by
  intro σ τ h
  ext i
  have hi := getElem?_table σ i
  rw [h, getElem?_table, Option.some.injEq] at hi
  exact_mod_cast hi.symm

/-- Exchanging two entries of a table composes the permutation with a transposition. -/
theorem table_mul_swap (σ : Perm (Fin 16)) (a n : Fin 16) :
    ((table σ).set a (σ n : ℕ)).set n (σ a : ℕ) = table (σ * swap a n) := by
  apply List.ext_getElem
  · simp
  · intro i hi _
    have hi : i < 16 := by simpa using hi
    simp only [List.getElem_set, table, List.getElem_map, List.getElem_finRange, Fin.cast_mk,
      Perm.mul_apply, swap_apply_def, Fin.ext_iff]
    by_cases hn : (n : ℕ) = i
    · subst hn
      by_cases ha : (n : ℕ) = a
      · obtain rfl : n = a := Fin.ext ha
        simp
      · simp [ha]
    · by_cases ha : (a : ℕ) = i
      · subst ha
        simp [hn]
      · simp [hn, ha, Ne.symm hn, Ne.symm ha]

theorem mem_matrixBasePerm (a : Fin 16) : ((a : ℕ) : Int) ∈ matrixBasePerm := by
  decide +revert

/-- The low nibble of a byte. -/
def nibble (b : UInt8) : Fin 16 := Fin.ofNat 16 b.toNat

/-- The high nibble of a byte. -/
def highNibble (b : UInt8) : Fin 16 := Fin.ofNat 16 (b.toNat / 16)

theorem toSByte_natCast {k : ℕ} (h : k < 128) : toSByte k = k := by
  rw [toSByte, Int.bmod_def]
  omega

theorem toSByte_mod (b : UInt8) : toSByte (b.toNat % 16) = ((nibble b : ℕ) : Int) :=
  toSByte_natCast (k := b.toNat % 16) (by omega)

/-- `BuildReveseMatrix` tabulates the inverse. -/
theorem buildReveseMatrix_table (σ : Perm (Fin 16)) :
    buildReveseMatrix (table σ) = .ok (table σ.symm) := by
  rw [buildReveseMatrix, length_table, if_pos le_rfl]
  refine foldlM_scatter σ (fun i : Fin 16 => ((i : ℕ) : Int)) (fun ys i hys => ?_)
    List.length_replicate
  rw [readAt_table, toSByte_natCast (by omega)]
  exact writeAt_natCast _ (by omega) _

/-- `InitMatrixSymChiffer` installs the identity and marks every nibble as seen. -/
theorem run_initMatrixSymChiffer (z : ZenMatrix) :
    initMatrixSymChiffer.run z =
      (.ok (), { z with
        matrixPermKey := table 1
        permKeyHash := matrixBasePerm
        matrixReverse := table 1 }) := by
  have hcopy : matrixBasePerm.zipIdx.foldlM (fun p s => writeAt Exn.indexOutOfRange p s.2 s.1)
      (List.replicate 16 0) = .ok (table 1) := by decide
  have hrev : buildReveseMatrix (table 1) = .ok (table 1) := buildReveseMatrix_table 1
  simp only [initMatrixSymChiffer, run_bind, run_liftM, run_modify, hcopy, hrev]

/-! ## The loop over the key bytes -/

/-- The distinct low nibbles of a key, each at its first occurrence. -/
def nibbles (keyBytes : Bytes) : List (Fin 16) := firstSeen [] (keyBytes.map nibble)

/-- The permutation of a key: the `n`-th distinct nibble `a` exchanges entries `a` and `n`. -/
def keySchedule (keyBytes : Bytes) : Perm (Fin 16) := swapProd (scheduleOf (nibbles keyBytes))

/-- The state in which the nibbles `as` have been used. -/
def permuting (z : ZenMatrix) (as : List (Fin 16)) : ZenMatrix :=
  { z with
    permKeyHash := as.map fun a : Fin 16 => ((a : ℕ) : Int)
    matrixPermKey := table (swapProd (scheduleOf as)) }

theorem mem_permKeyHash_permuting {z : ZenMatrix} {as : List (Fin 16)} {a : Fin 16} :
    ((a : ℕ) : Int) ∈ (permuting z as).permKeyHash ↔ a ∈ as := by
  constructor
  · intro h
    obtain ⟨a', ha', he⟩ := List.mem_map.1 h
    obtain rfl : a' = a := Fin.ext (by omega)
    exact ha'
  · exact fun h => List.mem_map.2 ⟨a, h, rfl⟩

theorem run_permuteByKeyByte_seen {z : ZenMatrix} {b : UInt8}
    (h : ((nibble b : ℕ) : Int) ∈ z.permKeyHash) (bCnt : Int) :
    (permuteByKeyByte bCnt b).run z = (.ok bCnt, z) := by
  simp [permuteByKeyByte, run_bind, toSByte_mod, h]

/-- A nibble not seen before is used: its entry is exchanged with the one at its ordinal. -/
theorem run_permuteByKeyByte_new (z : ZenMatrix) {as : List (Fin 16)} {b : UInt8}
    (h : nibble b ∉ as) (hn : as.length < 16) :
    (permuteByKeyByte as.length b).run (permuting z as) =
      (.ok ((as ++ [nibble b]).length : ℕ), permuting z (as ++ [nibble b])) := by
  have hmem : ((nibble b : ℕ) : Int) ∉ (permuting z as).permKeyHash := by
    rwa [mem_permKeyHash_permuting]
  have hlen : ((as ++ [nibble b]).length : Int) = as.length + 1 := by simp
  have hswap := table_mul_swap (swapProd (scheduleOf as)) (nibble b) ⟨as.length, hn⟩
  have hnew : swapProd (scheduleOf (as ++ [nibble b])) =
      swapProd (scheduleOf as) * swap (nibble b) ⟨as.length, hn⟩ := by
    rw [scheduleOf_append_singleton _ hn, swapProd_append, swapProd_cons, swapProd_nil, mul_one]
  simp only [permuteByKeyByte, run_bind, run_gets, toSByte_mod, run_ite, if_neg hmem, run_modify]
  by_cases heq : ((nibble b : ℕ) : Int) = as.length
  · -- the entry is in place already
    have hself : nibble b = ⟨as.length, hn⟩ := Fin.ext (by exact_mod_cast heq)
    rw [hself, swap_self, ← Perm.one_def, mul_one] at hnew
    rw [if_neg (not_not.2 heq), run_pure, hlen, permuting, permuting, hself, hnew]
    simp
  · have hread : readAt Exn.indexOutOfRange (table (swapProd (scheduleOf as))) (as.length : Int) =
        .ok ((swapProd (scheduleOf as) ⟨as.length, hn⟩ : ℕ) : Int) := readAt_table _ ⟨_, hn⟩
    rw [if_pos heq]
    have hwrite : writeAt Exn.indexOutOfRange (table (swapProd (scheduleOf as)))
        (nibble b : ℕ) ((swapProd (scheduleOf as) ⟨as.length, hn⟩ : ℕ) : Int) = .ok _ :=
      writeAt_natCast _ (by simp) _
    have hwrite' : writeAt Exn.indexOutOfRange ((table (swapProd (scheduleOf as))).set (nibble b)
        ((swapProd (scheduleOf as) ⟨as.length, hn⟩ : ℕ) : Int)) (as.length : Int)
        ((swapProd (scheduleOf as) (nibble b) : ℕ) : Int) = .ok _ :=
      writeAt_natCast _ (by simpa using hn) _
    simp only [permuting, run_liftM, readAt_table, hread, swapSBytes, hwrite, hwrite', run_pure,
      hlen, hswap, hnew, List.map_append, List.map_cons, List.map_nil]

/-- **The schedule**: from a state with no nibble seen, the loop uses the distinct nibbles in
order. -/
theorem run_foldlM_permuteByKeyByte (z : ZenMatrix) (keyBytes : Bytes) :
    (keyBytes.foldlM permuteByKeyByte 0).run (permuting z []) =
      (.ok ((nibbles keyBytes).length : ℕ), permuting z (nibbles keyBytes)) := by
  induction keyBytes using List.reverseRecOn with
  | nil => rfl
  | append_singleton bs b ih =>
    have hnodup : (nibbles bs).Nodup := nodup_firstSeen_nil _
    have hmem : nibble b ∈ nibbles bs ↔ nibble b ∈ bs.map nibble := mem_firstSeen_nil
    have hstep : nibbles (bs ++ [b]) =
        if nibble b ∈ nibbles bs then nibbles bs else nibbles bs ++ [nibble b] := by
      rw [nibbles, List.map_append, List.map_cons, List.map_nil, firstSeen_append_singleton]
      simp only [List.not_mem_nil, false_or, ← hmem]
      rfl
    rw [List.foldlM_append, run_bind_ok ih, List.foldlM_cons, hstep]
    by_cases h : nibble b ∈ nibbles bs
    · have hseen : ((nibble b : ℕ) : Int) ∈ (permuting z (nibbles bs)).permKeyHash :=
        mem_permKeyHash_permuting.2 h
      rw [if_pos h, run_bind_ok (run_permuteByKeyByte_seen hseen _)]
      rfl
    · have hn : (nibbles bs).length < 16 := by
        have hle := (List.nodup_cons.2 ⟨h, hnodup⟩).length_le_card
        rw [List.length_cons, Fintype.card_fin] at hle
        omega
      rw [if_neg h, run_bind_ok (run_permuteByKeyByte_new z h hn)]
      rfl

/-- The state keyed by `σ`. -/
structure Keyed (z : ZenMatrix) (σ : Perm (Fin 16)) : Prop where
  matrixPermKey : z.matrixPermKey = table σ
  matrixReverse : z.matrixReverse = table σ.symm

theorem Keyed.unique {z : ZenMatrix} {σ τ : Perm (Fin 16)} (hσ : Keyed z σ) (hτ : Keyed z τ) :
    σ = τ :=
  table_injective (hσ.matrixPermKey.symm.trans hτ.matrixPermKey)

/-- **From no nibble seen, the loop keys the state by the key's schedule.** -/
theorem run_permuteByKeyBytes (z : ZenMatrix) (keyBytes : Bytes) :
    (permuteByKeyBytes keyBytes).run (permuting z []) =
      (.ok (), { permuting z (nibbles keyBytes) with
        matrixReverse := table (keySchedule keyBytes).symm }) := by
  have hrev : buildReveseMatrix (permuting z (nibbles keyBytes)).matrixPermKey =
      .ok (table (keySchedule keyBytes).symm) := buildReveseMatrix_table _
  rw [permuteByKeyBytes, run_bind_ok (run_foldlM_permuteByKeyByte z keyBytes)]
  simp only [run_bind, run_gets, run_liftM, run_modify, hrev]

/-- **From every nibble seen, the loop changes nothing.** -/
theorem run_permuteByKeyBytes_full {z : ZenMatrix} {σ : Perm (Fin 16)} (hz : Keyed z σ)
    (hseen : ∀ a : Fin 16, ((a : ℕ) : Int) ∈ z.permKeyHash) (keyBytes : Bytes) :
    (permuteByKeyBytes keyBytes).run z = (.ok (), z) := by
  have hloop : (keyBytes.foldlM permuteByKeyByte 0).run z = (.ok 0, z) := by
    induction keyBytes with
    | nil => rfl
    | cons b bs ih =>
      rw [List.foldlM_cons, run_bind_ok (run_permuteByKeyByte_seen (hseen (nibble b)) 0)]
      exact ih
  have hrev : buildReveseMatrix z.matrixPermKey = .ok z.matrixReverse := by
    rw [hz.matrixPermKey, hz.matrixReverse, buildReveseMatrix_table]
  rw [permuteByKeyBytes, run_bind_ok hloop]
  simp only [run_bind, run_gets, run_liftM, run_modify, hrev]

/-! ## `ZenMatrixGenWithKey` -/

/-- The secret key `ZenMatrixGenWithKey` keeps. -/
def heldKey (secretKey : NString) : Utf16 :=
  if isNullOrEmpty secretKey then Constants.AUTHOR_EMAIL else orEmpty secretKey

/-- The user hash it keeps. -/
def heldHash (usrHash : NString) : Utf16 :=
  if isNullOrEmpty usrHash then Constants.AREA23_EMAIL else orEmpty usrHash

/-- The key bytes it derives. -/
def keyBytes (secretKey usrHash : NString) : Bytes :=
  spread 16 (CryptHelper.keySource 16 (heldKey secretKey) (some (heldHash usrHash)))

/-- The state in which the matrices are the identity and every nibble is seen. -/
def identity (privateKey userHash : Utf16) : ZenMatrix where
  privateKey := privateKey
  userHash := userHash
  matrixPermKey := table 1
  matrixReverse := table 1
  permKeyHash := matrixBasePerm

theorem keyed_identity (privateKey userHash : Utf16) : Keyed (identity privateKey userHash) 1 :=
  ⟨rfl, rfl⟩

theorem getUserKeyBytes_held (R : Runtime) (secretKey usrHash : NString) :
    CryptHelper.getUserKeyBytes R (some (heldKey secretKey)) (some (heldHash usrHash)) 16 =
      .ok (keyBytes secretKey usrHash) :=
  CryptHelper.getUserKeyBytes_eq R _ _ 16

/-- **What `ZenMatrixGenWithKey` installs**: the identity, whatever the key. -/
theorem run_zenMatrixGenWithKey (R : Runtime) (secretKey usrHash : NString) (z : ZenMatrix) :
    (zenMatrixGenWithKey R secretKey usrHash true).run z =
      (.ok true, identity (heldKey secretKey) (heldHash usrHash)) := by
  have hbytes := getUserKeyBytes_held R secretKey usrHash
  have hloop := run_permuteByKeyBytes_full
    (keyed_identity (heldKey secretKey) (heldHash usrHash)) mem_matrixBasePerm
    (keyBytes secretKey usrHash)
  simp only [heldKey, heldHash, identity] at hbytes hloop
  simp only [zenMatrixGenWithKey, run_bind, run_gets, Bool.not_true, Bool.false_and,
    Bool.false_eq_true, if_false, if_true, run_modify, run_initMatrixSymChiffer, run_liftM,
    run_pure, hbytes, hloop, heldKey, heldHash, identity]

/-- The outcome of keying is as the key schedule has it: the call returned `true`, and the state is
keyed by the schedule of the bytes derived from the key and the hash it holds. -/
def FollowsSchedule (R : Runtime) (outcome : Except Exn Bool × ZenMatrix) : Prop :=
  outcome.1 = .ok true ∧
    ∃ bs, CryptHelper.getUserKeyBytes R (some outcome.2.privateKey) (some outcome.2.userHash) 16 =
      .ok bs ∧ Keyed outcome.2 (keySchedule bs)

theorem followsSchedule_identity_iff (R : Runtime) (secretKey usrHash : NString) :
    FollowsSchedule R (.ok true, identity (heldKey secretKey) (heldHash usrHash)) ↔
      IsInvolution (nibbles (keyBytes secretKey usrHash)) := by
  have hinv : keySchedule (keyBytes secretKey usrHash) = 1 ↔
      IsInvolution (nibbles (keyBytes secretKey usrHash)) :=
    swapProd_scheduleOf_eq_one_iff (nodup_firstSeen_nil _)
  rw [← hinv]
  constructor
  · rintro ⟨-, bs, hbs, hkeyed⟩
    obtain rfl : keyBytes secretKey usrHash = bs :=
      Except.ok.inj ((getUserKeyBytes_held R secretKey usrHash).symm.trans hbs)
    exact hkeyed.unique (keyed_identity _ _)
  · intro hone
    refine ⟨rfl, keyBytes secretKey usrHash, getUserKeyBytes_held R secretKey usrHash, ?_⟩
    rw [hone]
    exact keyed_identity _ _

/-- **When `ZenMatrixGenWithKey` follows the key schedule**: exactly when the distinct nibbles of
the key bytes are an involution of their ordinals. -/
theorem followsSchedule_iff (R : Runtime) (secretKey usrHash : NString) (z : ZenMatrix) :
    FollowsSchedule R ((zenMatrixGenWithKey R secretKey usrHash true).run z) ↔
      IsInvolution (nibbles (keyBytes secretKey usrHash)) := by
  rw [run_zenMatrixGenWithKey, followsSchedule_identity_iff]

/-- The schedule of the key `abcdefghijklmnop` moves every entry; the call moves none. -/
theorem not_followsSchedule_alphabet :
    let R := (Deployment.resx (fun _ _ => 0) (· == ·)).toRuntime
    ¬ FollowsSchedule R ((zenMatrixGenWithKey R (some (.ofString "abcdefghijklmnop"))
      (some (.ofString "::1")) true).run (identity [] [])) := by
  intro R
  rw [run_zenMatrixGenWithKey, followsSchedule_identity_iff]
  decide +kernel

end ZenMatrix

end Server6
