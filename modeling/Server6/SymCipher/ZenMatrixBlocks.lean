import Server6.SymCipher.ZenMatrixRoundTrip

/-!
# Single blocks of the matrix cipher

`ProcessEncryptBytes` and `ProcessDecryptBytes` undo each other on every block, whatever
permutation the matrices hold (`invertsBlocks`), so that each is a bijection of the blocks. It is
the padding, not the block map, that `Recovers` can fail by.
-/

namespace Server6

open Equiv

namespace ZenMatrix

/-- Two matrices that are inverse permutations are the tables of one and of its inverse. -/
theorem InversePermutations.exists_keyed {z : ZenMatrix} (h : InversePermutations z) :
    ∃ σ, Keyed z σ := by
  choose f hperm hback using h.left
  choose g hreverse hforth using h.right
  have hleft : Function.LeftInverse g f := by
    intro i
    have hcell := (hreverse (f i)).symm.trans (hback i)
    exact Fin.ext (by exact_mod_cast Option.some.inj hcell)
  have hright : Function.RightInverse g f := by
    intro i
    have hcell := (hperm (g i)).symm.trans (hforth i)
    exact Fin.ext (by exact_mod_cast Option.some.inj hcell)
  have htable : ∀ (xs : List Int) (σ : Perm (Fin 16)), xs.length = 16 →
      (∀ i : Fin 16, xs[(i : ℕ)]? = some ((σ i : ℕ) : Int)) → xs = table σ := by
    intro xs σ hlen hcells
    apply List.ext_getElem?
    intro i
    by_cases hi : i < 16
    · rw [hcells ⟨i, hi⟩, getElem?_table σ ⟨i, hi⟩]
    · rw [List.getElem?_eq_none (by omega), List.getElem?_eq_none (by simp; omega)]
  refine ⟨⟨f, g, hleft, hright⟩, htable _ _ ?_ hperm, htable _ _ h.length_matrixReverse hreverse⟩
  exact h.perm.length_eq

/-- The blocks of 16 bytes. -/
abbrev Block := Vector UInt8 16

/-- A block, mapped. -/
def mapBlock (σ : Perm (Fin 16)) (block : Block) : Block :=
  ⟨(permuteCells σ (mapByte σ) block.toList).toArray, by simp⟩

theorem toList_mapBlock (σ : Perm (Fin 16)) (block : Block) :
    (mapBlock σ block).toList = permuteCells σ (mapByte σ) block.toList := rfl

theorem mapBlock_symm (σ : Perm (Fin 16)) :
    Function.LeftInverse (mapBlock σ.symm) (mapBlock σ) := by
  intro block
  apply Vector.toList_inj.1
  rw [toList_mapBlock, toList_mapBlock]
  exact permuteCells_symm σ (mapByte_symm σ) (by simp)

theorem mapBlock_bijective (σ : Perm (Fin 16)) : Function.Bijective (mapBlock σ) :=
  Function.bijective_iff_has_inverse.2 ⟨mapBlock σ.symm, mapBlock_symm σ, mapBlock_symm σ.symm⟩

/-- A block that goes through the one direction and comes back through the other. -/
theorem processBytes_returns {z : ZenMatrix} {σ : Perm (Fin 16)} (hz : Keyed z σ) (encrypt : Bool)
    {inBytes : Bytes} {offSet : ℕ} (h : offSet + 16 ≤ inBytes.length) :
    ∃ block, processBytes z encrypt inBytes offSet 16 = .ok (some block) ∧
      processBytes z (!encrypt) block (0 : ℕ) 16 =
        .ok (some ((inBytes.drop offSet).take 16)) := by
  have hlen : ((inBytes.drop offSet).take 16).length = 16 := by
    rw [List.length_take, List.length_drop]
    omega
  refine ⟨_, processBytes_eq hz encrypt h, ?_⟩
  rw [processBytes_eq hz (!encrypt) (by simp), List.drop_zero, List.take_of_length_le (by simp)]
  have hback : direction σ (!encrypt) = (direction σ encrypt).symm := by
    cases encrypt <;> rfl
  rw [hback, permuteCells_symm _ (mapByte_symm _) hlen]

/-- The two block functions undo each other, and encryption is a bijection of the blocks. -/
structure InvertsBlocks (z : ZenMatrix) : Prop where
  decrypt_encrypt : ∀ (inBytes : Bytes) (offSet : ℕ), offSet + 16 ≤ inBytes.length →
    ∃ block, processEncryptBytes z inBytes offSet 16 = .ok (some block) ∧
      processDecryptBytes z block 0 16 = .ok (some ((inBytes.drop offSet).take 16))
  encrypt_decrypt : ∀ (inBytes : Bytes) (offSet : ℕ), offSet + 16 ≤ inBytes.length →
    ∃ block, processDecryptBytes z inBytes offSet 16 = .ok (some block) ∧
      processEncryptBytes z block 0 16 = .ok (some ((inBytes.drop offSet).take 16))
  bijective : ∃ f : Block → Block, f.Bijective ∧
    ∀ block, processEncryptBytes z block.toList 0 16 = .ok (some (f block).toList)

/-- **The block functions are inverse bijections**, under every permutation. -/
theorem invertsBlocks (z : ZenMatrix) (hz : InversePermutations z) : InvertsBlocks z := by
  obtain ⟨σ, hσ⟩ := hz.exists_keyed
  refine ⟨fun _ _ h => processBytes_returns hσ true h, fun _ _ h => processBytes_returns hσ false h,
    mapBlock σ, mapBlock_bijective σ, fun block => ?_⟩
  have hrun : processBytes z true block.toList (0 : ℕ) 16 = _ := processBytes_eq hσ true (by simp)
  rw [List.drop_zero, List.take_of_length_le (by simp)] at hrun
  exact hrun

/-- The matrices of the key `zen` invert the blocks. -/
theorem invertsBlocks_zen :
    InvertsBlocks ((getMatrixPermutation (some (.ofString "zen"))).run initial).2 := by
  refine invertsBlocks _ (Keyed.inversePermutations
    (σ := keySchedule (Utf16.utf8 (.ofString "zen"))) ?_)
  rw [run_getMatrixPermutation_some]
  exact ⟨rfl, rfl⟩

end ZenMatrix

end Server6
