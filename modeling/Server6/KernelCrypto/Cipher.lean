import Server6.Foundations.Chaining

/-!
# Block ciphers and the primitives of the modes

The handle of a block cipher that the templates of `kernel-crypto` are put on, and what they do with
memory besides: `memcpy` and `crypto_xor`.
-/

namespace Server6

namespace KernelCrypto

open Memory

def EINVAL : Int := 22

/-- A block cipher with its key. -/
structure Cipher where
  blocksize : ℕ
  encrypt : List UInt8 → List UInt8
  decrypt : List UInt8 → List UInt8
  blocksize_pos : 0 < blocksize
  length_encrypt : ∀ b, b.length = blocksize → (encrypt b).length = blocksize
  length_decrypt : ∀ b, b.length = blocksize → (decrypt b).length = blocksize

/-- Decryption undoes encryption, block by block. -/
def Cipher.Inverts (c : Cipher) : Prop := ∀ b, b.length = c.blocksize → c.decrypt (c.encrypt b) = b

/-- The exclusive or of two words. -/
def xorBytes (xs ys : List UInt8) : List UInt8 := List.zipWith (· ^^^ ·) xs ys

theorem length_xorBytes {xs ys : List UInt8} {n : ℕ} (hxs : xs.length = n) (hys : ys.length = n) :
    (xorBytes xs ys).length = n := by
  rw [xorBytes, List.length_zipWith, hxs, hys, Nat.min_self]

theorem xorBytes_comm (xs ys : List UInt8) : xorBytes xs ys = xorBytes ys xs :=
  List.zipWith_comm_of_comm UInt8.xor_comm

/-- What is combined with a word twice is as it was. -/
theorem xorBytes_xorBytes {xs ys : List UInt8} (h : xs.length = ys.length) :
    xorBytes (xorBytes xs ys) ys = xs := by
  induction xs generalizing ys with
  | nil => rfl
  | cons x xs ih =>
    cases ys with
    | nil => cases h
    | cons y ys =>
      have hrest := ih (Nat.succ.inj h)
      simp only [xorBytes] at hrest
      simp only [xorBytes, List.zipWith_cons_cons, UInt8.xor_assoc, UInt8.xor_self, UInt8.xor_zero,
        hrest]

/-! ## The primitives -/

/-- `memcpy`. -/
def memcpy (mem : Memory) (dst src n : ℕ) : Memory := assign mem dst (load mem src n)

/-- `crypto_xor`. -/
def cryptoXor (mem : Memory) (dst src size : ℕ) : Memory :=
  assign mem dst (xorBytes (load mem dst size) (load mem src size))

/-- One block, encrypted from `src` to `dst`. -/
def Cipher.encryptOne (c : Cipher) (mem : Memory) (src dst : ℕ) : Memory :=
  assign mem dst (c.encrypt (load mem src c.blocksize))

/-- One block, decrypted from `src` to `dst`. -/
def Cipher.decryptOne (c : Cipher) (mem : Memory) (src dst : ℕ) : Memory :=
  assign mem dst (c.decrypt (load mem src c.blocksize))

section

variable {c : Cipher} {mem : Memory} {dst src n p : ℕ}

@[simp] theorem load_memcpy : load (memcpy mem dst src n) dst n = load mem src n :=
  load_assign mem (length_load ..)

theorem load_memcpy_of_apart {m : ℕ} (h : Apart dst n p m) :
    load (memcpy mem dst src n) p m = load mem p m :=
  load_assign_of_apart mem (by rwa [length_load])

theorem memcpy_of_outside {a : ℕ} (h : a < dst ∨ dst + n ≤ a) : memcpy mem dst src n a = mem a :=
  assign_of_outside (by rwa [length_load])

theorem length_xor_load (mem : Memory) (p q n : ℕ) :
    (xorBytes (load mem p n) (load mem q n)).length = n :=
  length_xorBytes (length_load ..) (length_load ..)

@[simp] theorem load_cryptoXor :
    load (cryptoXor mem dst src n) dst n = xorBytes (load mem dst n) (load mem src n) :=
  load_assign mem (length_xor_load ..)

theorem load_cryptoXor_of_apart {m : ℕ} (h : Apart dst n p m) :
    load (cryptoXor mem dst src n) p m = load mem p m :=
  load_assign_of_apart mem (by rwa [length_xor_load])

theorem cryptoXor_of_outside {a : ℕ} (h : a < dst ∨ dst + n ≤ a) :
    cryptoXor mem dst src n a = mem a :=
  assign_of_outside (by rwa [length_xor_load])

@[simp] theorem load_encryptOne :
    load (c.encryptOne mem src dst) dst c.blocksize = c.encrypt (load mem src c.blocksize) :=
  load_assign mem (c.length_encrypt _ (length_load ..))

theorem encryptOne_of_outside {a : ℕ} (h : a < dst ∨ dst + c.blocksize ≤ a) :
    c.encryptOne mem src dst a = mem a :=
  assign_of_outside (by rwa [c.length_encrypt _ (length_load ..)])

@[simp] theorem load_decryptOne :
    load (c.decryptOne mem src dst) dst c.blocksize = c.decrypt (load mem src c.blocksize) :=
  load_assign mem (c.length_decrypt _ (length_load ..))

theorem load_decryptOne_of_apart {m : ℕ} (h : Apart dst c.blocksize p m) :
    load (c.decryptOne mem src dst) p m = load mem p m :=
  load_assign_of_apart mem (by rwa [c.length_decrypt _ (length_load ..)])

theorem decryptOne_of_outside {a : ℕ} (h : a < dst ∨ dst + c.blocksize ≤ a) :
    c.decryptOne mem src dst a = mem a :=
  assign_of_outside (by rwa [c.length_decrypt _ (length_load ..)])

end

end KernelCrypto

end Server6
