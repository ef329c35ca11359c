import Server6.SymCipher.ZenMatrixStates

/-!
# Decrypting what the matrix cipher encrypted

Both directions are one computation under a permutation and under its inverse: pad the input to
whole blocks with at least one zero byte, and move and map the bytes of each block (`cipher`).
Decryption pads a whole number of blocks once more, so it returns the padded plain text and a block
of images of the zero byte (`cipher_symm_cipher`). That block is zero exactly when the permutation
leaves 0 in place, and this decides the round trip in every state the static methods can reach
(`recovers_iff`).
-/

namespace Server6

open Equiv

namespace ZenMatrix

open Method

/-! ## One byte -/

/-- The byte with both nibbles mapped. -/
def mapByte (σ : Perm (Fin 16)) (b : UInt8) : UInt8 :=
  UInt8.ofNat (σ (highNibble b) * 16 + σ (nibble b))

theorem val_nibble (b : UInt8) : (nibble b : ℕ) = b.toNat % 16 := rfl

theorem val_highNibble (b : UInt8) : (highNibble b : ℕ) = b.toNat / 16 := by
  have hb := b.toNat_lt
  rw [highNibble, Fin.val_ofNat]
  omega

theorem toNat_mapByte (σ : Perm (Fin 16)) (b : UInt8) :
    (mapByte σ b).toNat = σ (highNibble b) * 16 + σ (nibble b) := by
  have h1 := (σ (highNibble b)).isLt
  have h2 := (σ (nibble b)).isLt
  rw [mapByte, UInt8.toNat_ofNat']
  omega

theorem nibble_mapByte (σ : Perm (Fin 16)) (b : UInt8) : nibble (mapByte σ b) = σ (nibble b) := by
  have h := (σ (nibble b)).isLt
  apply Fin.ext
  rw [val_nibble, toNat_mapByte]
  omega

theorem highNibble_mapByte (σ : Perm (Fin 16)) (b : UInt8) :
    highNibble (mapByte σ b) = σ (highNibble b) := by
  have h := (σ (nibble b)).isLt
  apply Fin.ext
  rw [val_highNibble, toNat_mapByte]
  omega

/-- The inverse permutation maps every byte back. -/
theorem mapByte_symm (σ : Perm (Fin 16)) : Function.LeftInverse (mapByte σ.symm) (mapByte σ) := by
  intro b
  apply UInt8.toNat_inj.1
  rw [toNat_mapByte, nibble_mapByte, highNibble_mapByte, symm_apply_apply, symm_apply_apply,
    val_highNibble, val_nibble]
  omega

theorem mapByte_zero_eq_zero_iff (σ : Perm (Fin 16)) : mapByte σ 0 = 0 ↔ σ 0 = 0 := by
  have hlow : nibble 0 = 0 := rfl
  have hhigh : highNibble 0 = 0 := rfl
  rw [← UInt8.toNat_inj, toNat_mapByte, hlow, hhigh, Fin.ext_iff]
  simp only [UInt8.toNat_zero, Fin.val_zero]
  omega

/-! ## Blocks and whole inputs -/

/-- The permutation of a direction: the key's, or its inverse. -/
def direction (σ : Perm (Fin 16)) (encrypt : Bool) : Perm (Fin 16) :=
  if encrypt then σ else σ.symm

theorem Keyed.matrix {z : ZenMatrix} {σ : Perm (Fin 16)} (hz : Keyed z σ) (encrypt : Bool) :
    (if encrypt then z.matrixPermKey else z.matrixReverse) = table (direction σ encrypt) := by
  cases encrypt with
  | false => exact hz.matrixReverse
  | true => exact hz.matrixPermKey

theorem ofInt_natCast (n : ℕ) : UInt8.ofInt n = UInt8.ofNat n := by
  apply UInt8.toNat_inj.1
  rw [UInt8.ofInt, UInt8.toNat_ofNat', UInt8.toNat_ofNat']
  omega

theorem mapByteValue_eq {z : ZenMatrix} {σ : Perm (Fin 16)} (hz : Keyed z σ) (encrypt : Bool)
    (b : UInt8) :
    mapByteValue z b encrypt =
      .ok ([(direction σ encrypt (nibble b) : ℕ), (direction σ encrypt (highNibble b) : ℕ)],
        mapByte (direction σ encrypt) b) := by
  have hhigh : toSByte (b.toNat / 16) = ((highNibble b : ℕ) : Int) := by
    have hb := b.toNat_lt
    rw [val_highNibble]
    exact toSByte_natCast (k := b.toNat / 16) (by omega)
  have hbyte : UInt8.ofInt ((direction σ encrypt (highNibble b) : ℕ) * 16 +
      (direction σ encrypt (nibble b) : ℕ)) = mapByte (direction σ encrypt) b := by
    rw [mapByte, ← ofInt_natCast]
    push_cast
    rfl
  simp only [mapByteValue, hz.matrix, toSByte_mod, hhigh, readAt_table, ok_bind, hbyte]
  rfl

/-- **One block**: the cells are moved and mapped. -/
theorem processBytes_eq {z : ZenMatrix} {σ : Perm (Fin 16)} (hz : Keyed z σ) (encrypt : Bool)
    {inBytes : Bytes} {offSet : ℕ} (h : offSet + 16 ≤ inBytes.length) :
    processBytes z encrypt inBytes offSet 16 =
      .ok (some (permuteCells (direction σ encrypt) (mapByte (direction σ encrypt))
        ((inBytes.drop offSet).take 16))) := by
  have hcell : ∀ i : Fin 16, ((inBytes.drop offSet).take 16).getD i default =
      inBytes.getD (offSet + i) 0 := by
    intro i
    rw [List.getD_eq_getElem?_getD, List.getD_eq_getElem?_getD, List.getElem?_take_of_lt i.isLt,
      List.getElem?_drop]
    rfl
  have hinside : (offSet : Int) < inBytes.length ∧ (offSet : Int) + 16 ≤ inBytes.length := by
    omega
  rw [processBytes, if_pos hinside]
  have hloop : (List.range 16).foldlM (fun processed (aCnt : ℕ) => do
      let b ← readAt Exn.indexOutOfRange inBytes (offSet + aCnt)
      let mapB ← mapByteValue z b encrypt
      let sm ← readAt Exn.indexOutOfRange (if encrypt then z.matrixPermKey else z.matrixReverse)
        aCnt
      writeAt Exn.indexOutOfRange processed sm mapB.2) (List.replicate 16 0) =
      .ok (permuteCells (direction σ encrypt) (mapByte (direction σ encrypt))
        ((inBytes.drop offSet).take 16)) := by
    simp only [permuteCells, hcell]
    refine foldlM_scatter (direction σ encrypt)
      (fun i => mapByte (direction σ encrypt) (inBytes.getD (offSet + i) 0)) (fun ys i hys => ?_)
      List.length_replicate
    have hi : offSet + i < inBytes.length := by omega
    have hread : readAt Exn.indexOutOfRange inBytes (offSet + (i : ℕ)) =
        .ok (inBytes.getD (offSet + i) 0) := by
      rw [List.getD_eq_getElem _ _ hi]
      exact readAt_of_lt _ hi
    rw [hread]
    simp only [ok_bind, mapByteValue_eq hz, hz.matrix, readAt_table]
    exact writeAt_natCast _ (by omega) _
  have hnew : newBytes 16 = .ok (List.replicate 16 0) := newBytes_natCast 16
  rw [hnew, ok_bind]
  exact congrArg (· >>= fun processed => pure (some processed)) hloop

/-- The input with zero bytes up to the next multiple of 16, one at least. -/
def padded (data : Bytes) : Bytes := data ++ List.replicate (16 - data.length % 16) 0

theorem length_padded (data : Bytes) : (padded data).length = 16 * (data.length / 16 + 1) := by
  rw [padded, List.length_append, List.length_replicate]
  omega

theorem padInput_eq (data : Bytes) : padInput data = .ok (padded data) := by
  have hsize : ((data.length : Int) + (16 - data.length % 16)) / 16 * 16 =
      ((padded data).length : ℕ) := by
    rw [length_padded]
    omega
  have hcells : padded data =
      (List.range (padded data).length).map fun i => (padded data).getD i 0 := by
    apply List.ext_getElem
    · simp
    · intro i hi hi'
      rw [List.getElem_map, List.getElem_range, List.getD_eq_getElem _ _ hi]
  rw [padInput, hsize, newBytes_natCast, ok_bind]
  conv_rhs => rw [hcells]
  refine foldlM_fill (fun i => (padded data).getD i 0) (fun ys i hys hi => ?_) (by simp)
  have hwrite : ∀ b, writeAt Exn.indexOutOfRange ys (i : ℕ) b = .ok (ys.set i b) := fun b =>
    writeAt_natCast _ (by omega) b
  by_cases h : i < data.length
  · have hget : (padded data).getD i 0 = data[i] := by
      rw [List.getD_eq_getElem _ _ hi]
      exact List.getElem_append_left h
    rw [if_pos h, readAt_of_lt _ h, ok_bind, hwrite, hget]
  · have hget : (padded data).getD i 0 = 0 := by
      rw [List.getD_eq_getElem _ _ hi]
      simp only [padded, List.getElem_append_right (Nat.le_of_not_lt h), List.getElem_replicate]
    rw [if_neg h, hwrite, hget]

/-- The abstract cipher under a permutation, in either direction. -/
def cipher (σ : Perm (Fin 16)) (data : Bytes) : Bytes :=
  blockwise 16 (permuteCells σ (mapByte σ)) (data.length / 16 + 1) (padded data)

theorem length_cipher (σ : Perm (Fin 16)) (data : Bytes) :
    (cipher σ data).length = 16 * (data.length / 16 + 1) :=
  length_blockwise (fun _ _ => length_permuteCells ..) (length_padded data)

theorem processBlocks_eq {z : ZenMatrix} {σ : Perm (Fin 16)} (hz : Keyed z σ) (encrypt : Bool)
    (data : Bytes) :
    processBlocks (fun processCnt => processBytes z encrypt (padded data) processCnt 16)
      (padded data).length = .ok (cipher (direction σ encrypt) data) := by
  have hcount : ((padded data).length + 15) / 16 = data.length / 16 + 1 := by
    rw [length_padded]
    omega
  rw [processBlocks, hcount, cipher, ← flatMap_range_eq_blockwise]
  refine foldlM_append_blocks _ _ (fun ys k hk => ?_) []
  have hk := List.mem_range.1 hk
  have hinside : 16 * k + 16 ≤ (padded data).length := by
    rw [length_padded]
    omega
  rw [processBytes_eq hz encrypt hinside]
  rfl

/-- **Encryption is the cipher of the permutation.** -/
theorem encrypt_eq {z : ZenMatrix} {σ : Perm (Fin 16)} (hz : Keyed z σ) {p : Bytes}
    (hp : p ≠ []) : z.encrypt (some p) = .ok (cipher σ p) := by
  obtain ⟨b, bs, rfl⟩ := List.exists_cons_of_ne_nil hp
  show (padInput (b :: bs) >>= fun inBytesPadding =>
    processBlocks (fun processCnt => processEncryptBytes z inBytesPadding processCnt 16)
      inBytesPadding.length) = _
  rw [padInput_eq, ok_bind]
  exact processBlocks_eq hz true (b :: bs)

/-- **Decryption is the cipher of the inverse.** -/
theorem decrypt_eq {z : ZenMatrix} {σ : Perm (Fin 16)} (hz : Keyed z σ) {c : Bytes}
    (hc : c ≠ []) : z.decrypt (some c) = .ok (cipher σ.symm c) := by
  obtain ⟨b, bs, rfl⟩ := List.exists_cons_of_ne_nil hc
  show (padInput (b :: bs) >>= fun inBytesEncrypted =>
    processBlocks (fun processCnt => processDecryptBytes z inBytesEncrypted processCnt 16)
      inBytesEncrypted.length) = _
  rw [padInput_eq, ok_bind]
  exact processBlocks_eq hz false (b :: bs)

/-- **What decryption returns**: the padded plain text and the image of a zero block. -/
theorem cipher_symm_cipher (σ : Perm (Fin 16)) (p : Bytes) :
    cipher σ.symm (cipher σ p) = padded p ++ List.replicate 16 (mapByte σ.symm 0) := by
  have hlen := length_cipher σ p
  have hpad : padded (cipher σ p) = cipher σ p ++ List.replicate 16 0 := by
    have hmod : 16 - (cipher σ p).length % 16 = 16 := by omega
    rw [padded, hmod]
  have hcount : (cipher σ p).length / 16 + 1 = p.length / 16 + 1 + 1 := by omega
  have hone : blockwise 16 (permuteCells σ.symm (mapByte σ.symm)) 1 (List.replicate 16 0) =
      List.replicate 16 (mapByte σ.symm 0) := by
    have hzero := permuteCells_replicate σ.symm (mapByte σ.symm) 0
    simpa [blockwise] using hzero
  have hback : blockwise 16 (permuteCells σ.symm (mapByte σ.symm)) (p.length / 16 + 1)
      (cipher σ p) = padded p :=
    blockwise_leftInverse (fun _ _ => length_permuteCells ..)
      (fun _ hb => permuteCells_symm σ (mapByte_symm σ) hb) (length_padded p)
  rw [cipher, hcount, hpad, blockwise_append _ _ hlen, hback, hone]

/-- Where 0 stays in place, decryption returns the plain text and zero bytes. -/
theorem cipher_symm_cipher_of_fixed {σ : Perm (Fin 16)} (h : σ 0 = 0) (p : Bytes) :
    cipher σ.symm (cipher σ p) = p ++ List.replicate (16 - p.length % 16 + 16) 0 := by
  have hzero : mapByte σ.symm 0 = 0 := by
    rw [mapByte_zero_eq_zero_iff, symm_apply_eq, h]
  rw [cipher_symm_cipher, hzero, padded, List.append_assoc, ← List.replicate_add]

/-! ## The round trip -/

/-- In the state `z`, decryption returns the encrypted bytes and then zero bytes only. -/
def Recovers (z : ZenMatrix) (p : Bytes) : Prop :=
  ∃ c, z.encrypt (some p) = .ok c ∧ ∃ n, z.decrypt (some c) = .ok (p ++ List.replicate n 0)

theorem recovers_iff_of_keyed {z : ZenMatrix} {σ : Perm (Fin 16)} (hz : Keyed z σ) {p : Bytes}
    (hp : p ≠ []) : Recovers z p ↔ σ 0 = 0 := by
  have hne : cipher σ p ≠ [] := by
    rw [← List.length_pos_iff, length_cipher]
    omega
  constructor
  · rintro ⟨c, hc, n, hn⟩
    obtain rfl : cipher σ p = c := Except.ok.inj ((encrypt_eq hz hp).symm.trans hc)
    rw [decrypt_eq hz hne, cipher_symm_cipher, Except.ok.injEq, padded, List.append_assoc,
      List.append_cancel_left_eq] at hn
    -- the last byte of the extra block is one of the zero bytes
    have hmem : mapByte σ.symm 0 ∈ List.replicate n (0 : UInt8) := by
      rw [← hn]
      simp
    have hfix := (mapByte_zero_eq_zero_iff σ.symm).1 (List.eq_of_mem_replicate hmem)
    exact (symm_apply_eq σ).1 hfix |>.symm
  · intro h
    refine ⟨_, encrypt_eq hz hp, 16 - p.length % 16 + 16, ?_⟩
    rw [decrypt_eq hz hne, cipher_symm_cipher_of_fixed h]

theorem matrixPermKey_zero_iff {z : ZenMatrix} {σ : Perm (Fin 16)} (hz : Keyed z σ) :
    z.matrixPermKey[0]? = some 0 ↔ σ 0 = 0 := by
  have hentry := getElem?_table σ 0
  rw [hz.matrixPermKey]
  simp only [Fin.val_zero] at hentry
  rw [hentry, Option.some.injEq, Fin.ext_iff, Fin.val_zero]
  omega

/-- **When decryption recovers the plain text**: in every state reached by setup calls, exactly when
the permutation leaves 0 in place, whatever the plain text. -/
theorem recovers_iff (R : Runtime) (calls : List Setup) (p : Bytes) (hp : p ≠ []) :
    Recovers (finalState (Setup.call R) calls initial) p ↔
      (finalState (Setup.call R) calls initial).matrixPermKey[0]? = some 0 := by
  obtain ⟨σ, hσ⟩ := exists_keyed R calls
  rw [recovers_iff_of_keyed hσ hp, matrixPermKey_zero_iff hσ]

/-- The key `pine` exchanges 1 and 9, 2 and 14, 3 and 5: two blocks of plain text come back. -/
theorem recovers_pine :
    Recovers (finalState (Setup.call (Deployment.resx (fun _ _ => 0) (· == ·)).toRuntime)
      [.zenMatrixGenWithKey (some (.ofString "password")) (some (.ofString "::1")) true,
        .getMatrixPermutation (some (.ofString "pine"))] initial)
      (Utf16.utf8 (.ofString "zen matrix key matrix")) :=
  (recovers_iff _ _ _ (by decide)).2 (by decide)

/-- The key `a` exchanges 0 and 1, and the last block decrypts to bytes `0x11`. -/
theorem not_recovers_a :
    ¬ Recovers (finalState (Setup.call (Deployment.resx (fun _ _ => 0) (· == ·)).toRuntime)
      [.getMatrixPermutation (some (.ofString "a"))] initial) [1] := by
  have hkeyed : Keyed (finalState (Setup.call (Deployment.resx (fun _ _ => 0) (· == ·)).toRuntime)
      [.getMatrixPermutation (some (.ofString "a"))] initial)
      (keySchedule (Utf16.utf8 (.ofString "a"))) := by
    rw [finalState_cons, finalState_nil, Setup.call,
      run_bind_ok (run_getMatrixPermutation_some _ initial)]
    exact ⟨rfl, rfl⟩
  rw [recovers_iff_of_keyed hkeyed (by decide)]
  decide

end ZenMatrix

end Server6
