import Mathlib.Logic.Function.Basic
import Server6.KernelCrypto.Cipher
import Server6.KernelCrypto.Words

/-!
# SM4

The cipher of `sm4.c`. One function encrypts and decrypts, with the keys of the rounds in one order or
the other; both orders are written by one loop of `sm4_expandkey` (`rkeyDec_sm4Expandkey`).

`sm4_permutes`: after every key that is accepted, decryption and encryption undo each other.
-/

namespace Server6

namespace KernelCrypto

/-! ## The code -/

def SM4_KEY_SIZE : ℕ := 16
def SM4_BLOCK_SIZE : ℕ := 16

def fk : List UInt32 := [0xa3b1bac6, 0x56aa3350, 0x677d9197, 0xb27022dc]

def ck : List UInt32 :=
  [ 0x00070e15, 0x1c232a31, 0x383f464d, 0x545b6269, 0x70777e85, 0x8c939aa1, 0xa8afb6bd, 0xc4cbd2d9,
    0xe0e7eef5, 0xfc030a11, 0x181f262d, 0x343b4249, 0x50575e65, 0x6c737a81, 0x888f969d, 0xa4abb2b9,
    0xc0c7ced5, 0xdce3eaf1, 0xf8ff060d, 0x141b2229, 0x30373e45, 0x4c535a61, 0x686f767d, 0x848b9299,
    0xa0a7aeb5, 0xbcc3cad1, 0xd8dfe6ed, 0xf4fb0209, 0x10171e25, 0x2c333a41, 0x484f565d, 0x646b7279 ]

def sbox : List UInt8 :=
  [ 0xd6, 0x90, 0xe9, 0xfe, 0xcc, 0xe1, 0x3d, 0xb7, 0x16, 0xb6, 0x14, 0xc2, 0x28, 0xfb, 0x2c, 0x05,
    0x2b, 0x67, 0x9a, 0x76, 0x2a, 0xbe, 0x04, 0xc3, 0xaa, 0x44, 0x13, 0x26, 0x49, 0x86, 0x06, 0x99,
    0x9c, 0x42, 0x50, 0xf4, 0x91, 0xef, 0x98, 0x7a, 0x33, 0x54, 0x0b, 0x43, 0xed, 0xcf, 0xac, 0x62,
    0xe4, 0xb3, 0x1c, 0xa9, 0xc9, 0x08, 0xe8, 0x95, 0x80, 0xdf, 0x94, 0xfa, 0x75, 0x8f, 0x3f, 0xa6,
    0x47, 0x07, 0xa7, 0xfc, 0xf3, 0x73, 0x17, 0xba, 0x83, 0x59, 0x3c, 0x19, 0xe6, 0x85, 0x4f, 0xa8,
    0x68, 0x6b, 0x81, 0xb2, 0x71, 0x64, 0xda, 0x8b, 0xf8, 0xeb, 0x0f, 0x4b, 0x70, 0x56, 0x9d, 0x35,
    0x1e, 0x24, 0x0e, 0x5e, 0x63, 0x58, 0xd1, 0xa2, 0x25, 0x22, 0x7c, 0x3b, 0x01, 0x21, 0x78, 0x87,
    0xd4, 0x00, 0x46, 0x57, 0x9f, 0xd3, 0x27, 0x52, 0x4c, 0x36, 0x02, 0xe7, 0xa0, 0xc4, 0xc8, 0x9e,
    0xea, 0xbf, 0x8a, 0xd2, 0x40, 0xc7, 0x38, 0xb5, 0xa3, 0xf7, 0xf2, 0xce, 0xf9, 0x61, 0x15, 0xa1,
    0xe0, 0xae, 0x5d, 0xa4, 0x9b, 0x34, 0x1a, 0x55, 0xad, 0x93, 0x32, 0x30, 0xf5, 0x8c, 0xb1, 0xe3,
    0x1d, 0xf6, 0xe2, 0x2e, 0x82, 0x66, 0xca, 0x60, 0xc0, 0x29, 0x23, 0xab, 0x0d, 0x53, 0x4e, 0x6f,
    0xd5, 0xdb, 0x37, 0x45, 0xde, 0xfd, 0x8e, 0x2f, 0x03, 0xff, 0x6a, 0x72, 0x6d, 0x6c, 0x5b, 0x51,
    0x8d, 0x1b, 0xaf, 0x92, 0xbb, 0xdd, 0xbc, 0x7f, 0x11, 0xd9, 0x5c, 0x41, 0x1f, 0x10, 0x5a, 0xd8,
    0x0a, 0xc1, 0x31, 0x88, 0xa5, 0xcd, 0x7b, 0xbd, 0x2d, 0x74, 0xd0, 0x12, 0xb8, 0xe5, 0xb4, 0xb0,
    0x89, 0x69, 0x97, 0x4a, 0x0c, 0x96, 0x77, 0x7e, 0x65, 0xb9, 0xf1, 0x09, 0xc5, 0x6e, 0xc6, 0x84,
    0x18, 0xf0, 0x7d, 0xec, 0x3a, 0xdc, 0x4d, 0x20, 0x79, 0xee, 0x5f, 0x3e, 0xd7, 0xcb, 0x39, 0x48 ]

/-- `rol32`. -/
def rol32 (x n : UInt32) : UInt32 := (x <<< n) ||| (x >>> (32 - n))

/-- The entry of the table at the lowest byte of a word. -/
def sboxAt (x : UInt32) : UInt32 := UInt32.ofNat (sbox.getD (x &&& 0xff).toNat 0).toNat

/-- `sm4_t_non_lin_sub`. -/
def sm4TNonLinSub (x : UInt32) : UInt32 :=
  sboxAt x ||| (sboxAt (x >>> 8) <<< 8) ||| (sboxAt (x >>> 16) <<< 16) |||
    (sboxAt (x >>> 24) <<< 24)

/-- `sm4_key_lin_sub`. -/
def sm4KeyLinSub (x : UInt32) : UInt32 := x ^^^ rol32 x 13 ^^^ rol32 x 23

/-- `sm4_enc_lin_sub`. -/
def sm4EncLinSub (x : UInt32) : UInt32 :=
  x ^^^ rol32 x 2 ^^^ rol32 x 10 ^^^ rol32 x 18 ^^^ rol32 x 24

/-- `sm4_key_sub`. -/
def sm4KeySub (x : UInt32) : UInt32 := sm4KeyLinSub (sm4TNonLinSub x)

/-- `sm4_enc_sub`. -/
def sm4EncSub (x : UInt32) : UInt32 := sm4EncLinSub (sm4TNonLinSub x)

/-- `sm4_round`. -/
def sm4Round (x0 x1 x2 x3 rk : UInt32) : UInt32 := x0 ^^^ sm4EncSub (x1 ^^^ x2 ^^^ x3 ^^^ rk)

/-- `struct sm4_ctx`. -/
structure Sm4Ctx where
  rkeyEnc : ℕ → UInt32
  rkeyDec : ℕ → UInt32

/-- The variables `rk` and `x`. -/
@[ext] structure Quad where
  x0 : UInt32
  x1 : UInt32
  x2 : UInt32
  x3 : UInt32

/-- Key `j` of the rounds is written to both places. -/
def Sm4Ctx.put (ctx : Sm4Ctx) (j : ℕ) (w : UInt32) : Sm4Ctx :=
  ⟨Function.update ctx.rkeyEnc j w, Function.update ctx.rkeyDec (31 - j) w⟩

/-- The body of the loop of `sm4_expandkey`. -/
def expandkeyStep (s : Quad × Sm4Ctx) (i : ℕ) : Quad × Sm4Ctx :=
  let rk := s.1
  let r0 := rk.x0 ^^^ sm4KeySub (rk.x1 ^^^ rk.x2 ^^^ rk.x3 ^^^ ck.getD (i + 0) 0)
  let r1 := rk.x1 ^^^ sm4KeySub (rk.x2 ^^^ rk.x3 ^^^ r0 ^^^ ck.getD (i + 1) 0)
  let r2 := rk.x2 ^^^ sm4KeySub (rk.x3 ^^^ r0 ^^^ r1 ^^^ ck.getD (i + 2) 0)
  let r3 := rk.x3 ^^^ sm4KeySub (r0 ^^^ r1 ^^^ r2 ^^^ ck.getD (i + 3) 0)
  (⟨r0, r1, r2, r3⟩, (((s.2.put (i + 0) r0).put (i + 1) r1).put (i + 2) r2).put (i + 3) r3)

/-- `sm4_expandkey`. -/
def sm4Expandkey (ctx : Sm4Ctx) (inKey : List UInt8) : Sm4Ctx × Int :=
  if inKey.length ≠ SM4_KEY_SIZE then (ctx, -EINVAL)
  else
    let rk : Quad :=
      ⟨getUnalignedBe32 inKey 0 ^^^ fk.getD 0 0, getUnalignedBe32 inKey 1 ^^^ fk.getD 1 0,
        getUnalignedBe32 inKey 2 ^^^ fk.getD 2 0, getUnalignedBe32 inKey 3 ^^^ fk.getD 3 0⟩
    (((List.range 8).foldl (fun s k => expandkeyStep s (4 * k)) (rk, ctx)).2, 0)

/-- The body of the loop of `sm4_crypt_block`, with its four keys. -/
def cryptBlockStep (x rk : Quad) : Quad :=
  let y0 := sm4Round x.x0 x.x1 x.x2 x.x3 rk.x0
  let y1 := sm4Round x.x1 x.x2 x.x3 y0 rk.x1
  let y2 := sm4Round x.x2 x.x3 y0 y1 rk.x2
  let y3 := sm4Round x.x3 y0 y1 y2 rk.x3
  ⟨y0, y1, y2, y3⟩

/-- The keys that the loop of `sm4_crypt_block` uses one after the other. -/
def roundKeys (rk : ℕ → UInt32) : List Quad :=
  (List.range 8).map fun k => ⟨rk (4 * k + 0), rk (4 * k + 1), rk (4 * k + 2), rk (4 * k + 3)⟩

/-- The four words read from a block. -/
def Quad.read (bs : List UInt8) : Quad :=
  ⟨getUnalignedBe32 bs 0, getUnalignedBe32 bs 1, getUnalignedBe32 bs 2, getUnalignedBe32 bs 3⟩

/-- The four words in the other order. -/
def Quad.rev (x : Quad) : Quad := ⟨x.x3, x.x2, x.x1, x.x0⟩

/-- The four words as a block. -/
def Quad.out (x : Quad) : List UInt8 :=
  putUnalignedBe32 x.x0 ++ putUnalignedBe32 x.x1 ++ putUnalignedBe32 x.x2 ++ putUnalignedBe32 x.x3

/-- `sm4_crypt_block`. -/
def sm4CryptBlock (rk : ℕ → UInt32) (bs : List UInt8) : List UInt8 :=
  ((roundKeys rk).foldl cryptBlockStep (Quad.read bs)).rev.out

/-- `sm4_encrypt`. -/
def sm4Encrypt (ctx : Sm4Ctx) : List UInt8 → List UInt8 := sm4CryptBlock ctx.rkeyEnc

/-- `sm4_decrypt`. -/
def sm4Decrypt (ctx : Sm4Ctx) : List UInt8 → List UInt8 := sm4CryptBlock ctx.rkeyDec

@[simp] theorem Sm4Ctx.put_rkeyEnc (ctx : Sm4Ctx) (j : ℕ) (w : UInt32) :
    (ctx.put j w).rkeyEnc = Function.update ctx.rkeyEnc j w := rfl

@[simp] theorem Sm4Ctx.put_rkeyDec (ctx : Sm4Ctx) (j : ℕ) (w : UInt32) :
    (ctx.put j w).rkeyDec = Function.update ctx.rkeyDec (31 - j) w := rfl

/-! ## The two orders of the keys -/

section

variable {ctx : Sm4Ctx} {bs inKey : List UInt8} {rk rk' : ℕ → UInt32}

/-- The keys up to `n` lie in both places, in opposite orders. -/
def Sm4Ctx.Mirrored (n : ℕ) (ctx : Sm4Ctx) : Prop := ∀ j < n, ctx.rkeyDec (31 - j) = ctx.rkeyEnc j

theorem Sm4Ctx.Mirrored.put {j : ℕ} (h : ctx.Mirrored j) (hj : j < 32) (w : UInt32) :
    (ctx.put j w).Mirrored (j + 1) := by
  intro i hi
  rcases Nat.lt_succ_iff_lt_or_eq.1 hi with hi | rfl
  · have hne : 31 - i ≠ 31 - j := by omega
    rw [put_rkeyEnc, put_rkeyDec, Function.update_of_ne hne, Function.update_of_ne (Nat.ne_of_lt hi),
      h i hi]
  · rw [put_rkeyEnc, put_rkeyDec, Function.update_self, Function.update_self]

theorem mirrored_expandkeyStep {s : Quad × Sm4Ctx} {i : ℕ} (h : s.2.Mirrored i) (hi : i + 4 ≤ 32) :
    (expandkeyStep s i).2.Mirrored (i + 4) :=
  (((h.put (by omega) _).put (by omega) _).put (by omega) _).put (by omega) _

theorem mirrored_foldl_expandkeyStep (s : Quad × Sm4Ctx) {n : ℕ} (hn : n ≤ 8) :
    ((List.range n).foldl (fun s k => expandkeyStep s (4 * k)) s).2.Mirrored (4 * n) := by
  induction n with
  | zero => exact fun j hj => absurd hj (Nat.not_lt_zero j)
  | succ n ih =>
    rw [List.range_succ, List.foldl_append]
    have hfits : 4 * n + 4 ≤ 32 := by omega
    exact mirrored_expandkeyStep (ih (by omega)) hfits

theorem rkeyDec_sm4Expandkey (ctx : Sm4Ctx) (h : inKey.length = SM4_KEY_SIZE) :
    (sm4Expandkey ctx inKey).1.Mirrored 32 := by
  rw [sm4Expandkey, if_neg (not_not.2 h)]
  exact mirrored_foldl_expandkeyStep _ (Nat.le_refl 8)

/-- Keys in opposite orders are used in opposite orders. -/
theorem roundKeys_of_mirrored (h : ∀ j < 32, rk' (31 - j) = rk j) :
    roundKeys rk' = ((roundKeys rk).map Quad.rev).reverse := by
  have hall : ∀ j < 32, rk' j = rk (31 - j) := by
    intro j hj
    rw [← h (31 - j) (by omega), Nat.sub_sub_self (by omega)]
  have hquad : ∀ k < 8, (⟨rk' (4 * k + 0), rk' (4 * k + 1), rk' (4 * k + 2), rk' (4 * k + 3)⟩ : Quad) =
      Quad.rev ⟨rk (4 * (7 - k) + 0), rk (4 * (7 - k) + 1), rk (4 * (7 - k) + 2),
        rk (4 * (7 - k) + 3)⟩ := by
    intro k hk
    apply Quad.ext
    · exact (hall _ (by omega)).trans (congrArg rk (by omega))
    · exact (hall _ (by omega)).trans (congrArg rk (by omega))
    · exact (hall _ (by omega)).trans (congrArg rk (by omega))
    · exact (hall _ (by omega)).trans (congrArg rk (by omega))
  apply List.ext_getElem
  · simp [roundKeys]
  · intro k hk hk'
    have hlt : k < 8 := by simpa [roundKeys] using hk
    simpa [roundKeys, List.getElem_reverse] using hquad k hlt

/-! ## Rounds and back -/

theorem xor_xor (x y : UInt32) : x ^^^ y ^^^ y = x := by
  rw [UInt32.xor_assoc, UInt32.xor_self, UInt32.xor_zero]

/-- Four rounds on the words in the other order, with the keys in the other order. -/
theorem cryptBlockStep_rev (x rk : Quad) :
    cryptBlockStep (cryptBlockStep x rk).rev rk.rev = x.rev := by
  have hround : ∀ w a b d k : UInt32, sm4Round (sm4Round w a b d k) d b a k = w := by
    intro w a b d k
    rw [sm4Round, sm4Round, UInt32.xor_comm d b, UInt32.xor_comm (b ^^^ d), ← UInt32.xor_assoc a,
      xor_xor]
  simp only [cryptBlockStep, Quad.rev, hround]

theorem foldl_cryptBlockStep_rev (rks : List Quad) (x : Quad) :
    ((rks.map Quad.rev).reverse).foldl cryptBlockStep (rks.foldl cryptBlockStep x).rev = x.rev := by
  induction rks generalizing x with
  | nil => rfl
  | cons rk rks ih =>
    rw [List.map_cons, List.reverse_cons, List.foldl_append, List.foldl_cons (b := x), ih]
    exact cryptBlockStep_rev x rk

theorem read_out (x : Quad) : Quad.read x.out = x :=
  Quad.ext (word_byte x.x0) (word_byte x.x1) (word_byte x.x2) (word_byte x.x3)

theorem out_read (h : bs.length = SM4_BLOCK_SIZE) : (Quad.read bs).out = bs := by
  have hwords := flatMap_putUnalignedBe32 (n := 4) h
  simpa [Quad.out, Quad.read, List.range_succ] using hwords

/-- **One function for both ways**: with the keys in the other order it undoes what it has done. -/
theorem sm4CryptBlock_sm4CryptBlock (h : ∀ j < 32, rk' (31 - j) = rk j)
    (hbs : bs.length = SM4_BLOCK_SIZE) : sm4CryptBlock rk' (sm4CryptBlock rk bs) = bs := by
  rw [sm4CryptBlock, sm4CryptBlock, read_out, roundKeys_of_mirrored h, foldl_cryptBlockStep_rev]
  exact out_read hbs

theorem length_sm4CryptBlock (rk : ℕ → UInt32) (bs : List UInt8) :
    (sm4CryptBlock rk bs).length = SM4_BLOCK_SIZE := rfl

theorem Sm4Ctx.Mirrored.symm (h : ctx.Mirrored 32) :
    ∀ j < 32, ctx.rkeyEnc (31 - j) = ctx.rkeyDec j := by
  intro j hj
  rw [← h (31 - j) (by omega), Nat.sub_sub_self (by omega)]

theorem mirrored_of_accepted (ctx : Sm4Ctx) (hkey : (sm4Expandkey ctx inKey).2 = 0) :
    (sm4Expandkey ctx inKey).1.Mirrored 32 := by
  refine rkeyDec_sm4Expandkey ctx ?_
  by_contra hne
  rw [sm4Expandkey, if_pos hne] at hkey
  exact absurd hkey (by decide : -EINVAL ≠ 0)

/-- The cipher with a key. -/
def Sm4Ctx.cipher (ctx : Sm4Ctx) : Cipher where
  blocksize := SM4_BLOCK_SIZE
  encrypt := sm4Encrypt ctx
  decrypt := sm4Decrypt ctx
  blocksize_pos := Nat.zero_lt_succ _
  length_encrypt _ _ := length_sm4CryptBlock ..
  length_decrypt _ _ := length_sm4CryptBlock ..

theorem Sm4Ctx.inverts_cipher (h : ctx.Mirrored 32) : ctx.cipher.Inverts :=
  fun _ hbs => sm4CryptBlock_sm4CryptBlock h hbs

/-- **SM4**: after a key that `sm4_expandkey` accepts, whatever was there before, the decryption keys are
the encryption keys in the opposite order, decryption undoes encryption and encryption undoes
decryption. -/
theorem sm4_permutes (ctx : Sm4Ctx) (inKey : List UInt8) (hkey : (sm4Expandkey ctx inKey).2 = 0)
    (bs : List UInt8) (hbs : bs.length = SM4_BLOCK_SIZE) :
    (sm4Expandkey ctx inKey).1.Mirrored 32 ∧
      sm4Decrypt (sm4Expandkey ctx inKey).1 (sm4Encrypt (sm4Expandkey ctx inKey).1 bs) = bs ∧
      sm4Encrypt (sm4Expandkey ctx inKey).1 (sm4Decrypt (sm4Expandkey ctx inKey).1 bs) = bs := by
  have hmirror := mirrored_of_accepted ctx hkey
  have hdecrypt := sm4CryptBlock_sm4CryptBlock hmirror hbs
  have hencrypt := sm4CryptBlock_sm4CryptBlock hmirror.symm hbs
  exact ⟨hmirror, hdecrypt, hencrypt⟩

/-- The context after a key, from one that is zero. -/
def sm4Ctx (inKey : List UInt8) : Sm4Ctx := (sm4Expandkey ⟨fun _ => 0, fun _ => 0⟩ inKey).1

theorem sm4_permutes_zero :
    let ctx := sm4Ctx (List.replicate 16 0)
    let bs : List UInt8 := [0, 1, 2, 3, 4, 5, 6, 7, 8, 9, 10, 11, 12, 13, 14, 15]
    ctx.Mirrored 32 ∧ sm4Decrypt ctx (sm4Encrypt ctx bs) = bs ∧
      sm4Encrypt ctx (sm4Decrypt ctx bs) = bs :=
  sm4_permutes _ _ rfl _ rfl

end

end KernelCrypto

end Server6
