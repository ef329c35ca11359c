import Server6.SymCipher.ZenMatrixRoundTrip

/-!
# What the matrix cipher gives away

Encryption works block by block under one permutation, which also maps the nibbles.

* `encrypt_probe`: what becomes of one block of 16 known bytes tells the permutation, and with it what
  becomes of every input.
* `decrypt_rearranged`: any blocks of a cipher text, in any order and as often as one likes, decrypt to
  the same blocks of the padded plain text.
-/

namespace Server6

open Equiv

namespace ZenMatrix

variable {σ τ : Perm (Fin 16)} {z z' : ZenMatrix}

/-! ## One known block -/

/-- The bytes 1, 2, .., 15 and 0. -/
def probe : Bytes := [1, 2, 3, 4, 5, 6, 7, 8, 9, 10, 11, 12, 13, 14, 15, 0]

theorem nibble_probe (i : Fin 16) : nibble (probe.getD i default) = i + 1 := by
  decide +revert

theorem highNibble_probe (i : Fin 16) : highNibble (probe.getD i default) = 0 := by
  decide +revert

/-- The first block of a cipher text. -/
theorem take_cipher (σ : Perm (Fin 16)) {p : Bytes} (hp : 16 ≤ p.length) :
    (cipher σ p).take 16 = permuteCells σ (mapByte σ) (p.take 16) := by
  rw [cipher, blockwise, List.take_left' (length_permuteCells ..), padded,
    List.take_append_of_le_length hp]

/-- Cell `σ i` of the encrypted probe holds the images of 0 and of the successor of `i`. -/
theorem getD_cipher_probe (σ : Perm (Fin 16)) (i : Fin 16) :
    ((cipher σ probe).take 16).getD (σ i) 0 = mapByte σ (probe.getD i default) := by
  rw [take_cipher σ (p := probe) (Nat.le_refl 16), getD_permuteCells, symm_apply_apply]
  rfl

/-- Where two ciphers agree on the probe, so do the images of 0, and the image of `i + 1` follows from
that of `i`. -/
theorem eq_of_cipher_probe (h : cipher σ probe = cipher τ probe) : σ = τ := by
  have hcell : ∀ i, σ i = τ i →
      mapByte σ (probe.getD i default) = mapByte τ (probe.getD i default) := by
    intro i hi
    rw [← getD_cipher_probe σ, ← getD_cipher_probe τ, h, hi]
  have hzero : σ 0 = τ 0 := by
    -- the cell that `σ` moves to the place of `τ 0`
    have hσ := getD_cipher_probe σ (σ.symm (τ 0))
    rw [apply_symm_apply, h, getD_cipher_probe τ 0] at hσ
    have hhigh := congrArg highNibble hσ
    rw [highNibble_mapByte, highNibble_mapByte, highNibble_probe, highNibble_probe] at hhigh
    exact hhigh.symm
  have hsucc : ∀ i, σ i = τ i → σ (i + 1) = τ (i + 1) := by
    intro i hi
    have hnibble := congrArg nibble (hcell i hi)
    rwa [nibble_mapByte, nibble_mapByte, nibble_probe] at hnibble
  ext i
  induction i using Fin.induction with
  | zero => rw [hzero]
  | succ i ih =>
    have hi := hsucc i.castSucc (Fin.ext ih)
    rw [Fin.coeSucc_eq_succ] at hi
    rw [hi]

/-- Two states keyed alike encrypt and decrypt alike. -/
theorem Keyed.encrypt_congr (hz : Keyed z σ) (hz' : Keyed z' σ) (data : Option Bytes) :
    z.encrypt data = z'.encrypt data ∧ z.decrypt data = z'.decrypt data := by
  rcases data with _ | _ | ⟨b, bs⟩
  · exact ⟨rfl, rfl⟩
  · exact ⟨rfl, rfl⟩
  · have hne : b :: bs ≠ [] := List.cons_ne_nil b bs
    constructor
    · rw [encrypt_eq hz hne, encrypt_eq hz' hne]
    · rw [decrypt_eq hz hne, decrypt_eq hz' hne]

/-- **One block tells the key**: two states that encrypt the 16 bytes of the probe alike encrypt and
decrypt everything alike, whatever calls have set them up. -/
theorem encrypt_probe (R : Runtime) (calls calls' : List Setup)
    (h : (finalState (Setup.call R) calls initial).encrypt (some probe) =
      (finalState (Setup.call R) calls' initial).encrypt (some probe)) (data : Option Bytes) :
    (finalState (Setup.call R) calls initial).encrypt data =
        (finalState (Setup.call R) calls' initial).encrypt data ∧
      (finalState (Setup.call R) calls initial).decrypt data =
        (finalState (Setup.call R) calls' initial).decrypt data := by
  obtain ⟨σ, hσ⟩ := exists_keyed R calls
  obtain ⟨τ, hτ⟩ := exists_keyed R calls'
  have hne : probe ≠ [] := List.cons_ne_nil _ _
  rw [encrypt_eq hσ hne, encrypt_eq hτ hne] at h
  obtain rfl := eq_of_cipher_probe (Except.ok.inj h)
  exact hσ.encrypt_congr hτ data

/-- The keys `a` and `qq` have the same low nibble. -/
theorem encrypt_probe_a :
    let R := (Deployment.resx (fun _ _ => 0) (· == ·)).toRuntime
    let z := finalState (Setup.call R) [.getMatrixPermutation (some (.ofString "a"))] initial
    let z' := finalState (Setup.call R) [.getMatrixPermutation (some (.ofString "qq"))] initial
    z.encrypt (some (Utf16.utf8 (.ofString "hello"))) =
        z'.encrypt (some (Utf16.utf8 (.ofString "hello"))) ∧
      z.decrypt (some (Utf16.utf8 (.ofString "hello"))) =
        z'.decrypt (some (Utf16.utf8 (.ofString "hello"))) := by
  intro R z z'
  exact encrypt_probe R [.getMatrixPermutation (some (.ofString "a"))]
    [.getMatrixPermutation (some (.ofString "qq"))] (by decide +kernel) _

/-! ## Blocks cut and pasted -/

/-- **Nothing binds the blocks to their places**: some blocks of a cipher text, in any order, decrypt to
the same blocks of the padded plain text, and sixteen bytes of one value. -/
theorem decrypt_rearranged (R : Runtime) (calls : List Setup) (p : Bytes) (hp : p ≠ [])
    (places : List ℕ) (hplaces : places ≠ []) (hin : ∀ k ∈ places, k ≤ p.length / 16) :
    ∃ c x, (finalState (Setup.call R) calls initial).encrypt (some p) = .ok c ∧
      (finalState (Setup.call R) calls initial).decrypt
          (some (places.flatMap fun k => segment 16 k c)) =
        .ok ((places.flatMap fun k => segment 16 k (padded p)) ++ List.replicate 16 x) := by
  obtain ⟨σ, hσ⟩ := exists_keyed R calls
  have hlen := length_cipher σ p
  have hpad := length_padded p
  have hc : ∀ k ∈ places, 16 * (k + 1) ≤ (cipher σ p).length := by
    intro k hk
    have hk := hin k hk
    omega
  have hblocks := length_flatMap_segment hc
  have hpos := List.length_pos_iff.2 hplaces
  have hne : (places.flatMap fun k => segment 16 k (cipher σ p)) ≠ [] := by
    rw [← List.length_pos_iff, hblocks]
    omega
  refine ⟨_, mapByte σ.symm 0, encrypt_eq hσ hp, ?_⟩
  rw [decrypt_eq hσ hne]
  -- every block of the cipher text comes from the block of the plain text in its place
  have hback : ∀ k ∈ places,
      permuteCells σ.symm (mapByte σ.symm) (segment 16 k (cipher σ p)) = segment 16 k (padded p) := by
    intro k hk
    have hk := hin k hk
    rw [cipher, segment_blockwise (fun _ _ => length_permuteCells ..) (Nat.lt_succ_of_le hk) hpad]
    exact permuteCells_symm σ (mapByte_symm σ) (length_segment (by omega))
  have hmap : (places.flatMap fun k =>
      permuteCells σ.symm (mapByte σ.symm) (segment 16 k (cipher σ p))) =
        places.flatMap fun k => segment 16 k (padded p) :=
    List.flatMap_congr hback
  have hmod : 16 - (places.flatMap fun k => segment 16 k (cipher σ p)).length % 16 = 16 := by omega
  have hcount : (places.flatMap fun k => segment 16 k (cipher σ p)).length / 16 + 1 =
      places.length + 1 := by omega
  have hone : blockwise 16 (permuteCells σ.symm (mapByte σ.symm)) 1 (List.replicate 16 0) =
      List.replicate 16 (mapByte σ.symm 0) := by
    have hzero := permuteCells_replicate σ.symm (mapByte σ.symm) 0
    simpa [blockwise] using hzero
  rw [cipher, hcount, padded, hmod, blockwise_append _ _ hblocks, blockwise_flatMap_segment _ hc,
    hmap, hone]

/-- The two blocks of a cipher text, exchanged. -/
theorem decrypt_rearranged_two :
    let R := (Deployment.resx (fun _ _ => 0) (· == ·)).toRuntime
    let z := finalState (Setup.call R) [.getMatrixPermutation (some (.ofString "zen"))] initial
    ∃ c x, z.encrypt (some (Utf16.utf8 (.ofString "pay alice ten euros"))) = .ok c ∧
      z.decrypt (some ([1, 0].flatMap fun k => segment 16 k c)) =
        .ok (([1, 0].flatMap fun k =>
          segment 16 k (padded (Utf16.utf8 (.ofString "pay alice ten euros")))) ++
            List.replicate 16 x) := by
  intro R z
  exact decrypt_rearranged R _ _ (by decide) [1, 0] (by decide) (by decide)

end ZenMatrix

end Server6
