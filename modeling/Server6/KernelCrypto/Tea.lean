import Mathlib.Logic.Function.Iterate
import Server6.KernelCrypto.Cipher
import Server6.KernelCrypto.Words

/-!
# TEA, XTEA and XETA

The three ciphers of `tea.c`: two words are changed in turn, each by a mix of the other one with the
sum and a word of the key. The loops of TEA count their rounds; those of XTEA and XETA go on until the
sum has a certain value, which it takes after as many rounds, as it grows by an odd number
(`xteaEncryptLoop_eq`, `xteaDecryptLoop_eq`).

`teaAlgs_permute`: under every key each of the three runs for 32 rounds, and decrypts what it has
encrypted, and the other way round.
-/

namespace Server6

namespace KernelCrypto

/-! ## The code -/

def TEA_BLOCK_SIZE : ℕ := 8
def TEA_ROUNDS : ℕ := 32
def TEA_DELTA : UInt32 := 0x9e3779b9
def XTEA_ROUNDS : UInt32 := 32
def XTEA_DELTA : UInt32 := 0x9e3779b9

/-- `struct tea_ctx` and `struct xtea_ctx`. -/
structure TeaCtx where
  key : Fin 4 → UInt32

/-- `tea_setkey`. -/
def teaSetkey (inKey : List UInt8) : TeaCtx := ⟨fun i => le32ToCpu inKey i⟩

/-- `xtea_setkey`. -/
def xteaSetkey : List UInt8 → TeaCtx := teaSetkey

/-- The word of the key at the two lowest bits of a number. -/
def TeaCtx.masked (ctx : TeaCtx) (n : UInt32) : UInt32 := ctx.key (Fin.ofNat 4 (n &&& 3).toNat)

/-- What the loops change. -/
structure TeaState where
  y : UInt32
  z : UInt32
  sum : UInt32

/-- The two words as the bytes of a block. -/
def TeaState.out (s : TeaState) : List UInt8 := cpuToLe32 s.y ++ cpuToLe32 s.z

section

variable (ctx : TeaCtx)

/-- A round of `tea_encrypt`. -/
def teaEncryptRound (s : TeaState) : TeaState :=
  let sum := s.sum + TEA_DELTA
  let y := s.y + (((s.z <<< 4) + ctx.key 0) ^^^ (s.z + sum) ^^^ ((s.z >>> 5) + ctx.key 1))
  let z := s.z + (((y <<< 4) + ctx.key 2) ^^^ (y + sum) ^^^ ((y >>> 5) + ctx.key 3))
  ⟨y, z, sum⟩

/-- `tea_encrypt`. -/
def teaEncrypt (src : List UInt8) : List UInt8 :=
  ((teaEncryptRound ctx)^[TEA_ROUNDS] ⟨le32ToCpu src 0, le32ToCpu src 1, 0⟩).out

/-- A round of `tea_decrypt`. -/
def teaDecryptRound (s : TeaState) : TeaState :=
  let z := s.z - (((s.y <<< 4) + ctx.key 2) ^^^ (s.y + s.sum) ^^^ ((s.y >>> 5) + ctx.key 3))
  let y := s.y - (((z <<< 4) + ctx.key 0) ^^^ (z + s.sum) ^^^ ((z >>> 5) + ctx.key 1))
  ⟨y, z, s.sum - TEA_DELTA⟩

/-- `tea_decrypt`. -/
def teaDecrypt (src : List UInt8) : List UInt8 :=
  ((teaDecryptRound ctx)^[TEA_ROUNDS] ⟨le32ToCpu src 0, le32ToCpu src 1, TEA_DELTA <<< 5⟩).out

/-- How a word is mixed with the sum and a word of the key. -/
abbrev Mix := UInt32 → UInt32 → UInt32 → UInt32

def xteaMix : Mix := fun x sum k => (((x <<< 4) ^^^ (x >>> 5)) + x) ^^^ (sum + k)

def xetaMix : Mix := fun x sum k => ((x <<< 4) ^^^ (x >>> 5)) + (x ^^^ sum) + k

variable (mix : Mix)

/-- A round of `xtea_encrypt` and `xeta_encrypt`. -/
def xteaEncryptRound (s : TeaState) : TeaState :=
  let y := s.y + mix s.z s.sum (ctx.masked s.sum)
  let sum := s.sum + XTEA_DELTA
  let z := s.z + mix y sum (ctx.masked (sum >>> 11))
  ⟨y, z, sum⟩

/-- A round of `xtea_decrypt` and `xeta_decrypt`. -/
def xteaDecryptRound (s : TeaState) : TeaState :=
  let z := s.z - mix s.y s.sum (ctx.masked (s.sum >>> 11))
  let sum := s.sum - XTEA_DELTA
  let y := s.y - mix z sum (ctx.masked sum)
  ⟨y, z, sum⟩

/-- The variable `limit`. -/
def limit : UInt32 := XTEA_DELTA * XTEA_ROUNDS

/-- The inverse of the odd number by which the sum changes. -/
def deltaInv : UInt32 := 0x144cbc89

/-- How often the number lies between two sums. -/
def roundsLeft (d : UInt32) : ℕ := (d * deltaInv).toNat

theorem delta_mul_deltaInv : XTEA_DELTA * deltaInv = 1 := by decide

theorem roundsLeft_eq {d : UInt32} (h : d ≠ 0) :
    roundsLeft d = roundsLeft (d - XTEA_DELTA) + 1 := by
  have hne : d * deltaInv ≠ 0 := by
    intro hzero
    have hd : d = d * deltaInv * XTEA_DELTA := by
      rw [UInt32.mul_assoc, UInt32.mul_comm deltaInv, delta_mul_deltaInv, UInt32.mul_one]
    rw [hzero, UInt32.zero_mul] at hd
    exact h hd
  have hpos : (1 : UInt32) ≤ d * deltaInv := by
    rw [UInt32.le_iff_toNat_le]
    exact Nat.one_le_iff_ne_zero.2 fun hzero => hne (UInt32.toNat_inj.1 hzero)
  have hle := UInt32.le_iff_toNat_le.1 hpos
  rw [roundsLeft, roundsLeft, UInt32.sub_mul, delta_mul_deltaInv, UInt32.toNat_sub_of_le _ _ hpos]
  exact (Nat.sub_add_cancel hle).symm

theorem limit_sub_eq_zero {sum : UInt32} : limit - sum = 0 ↔ sum = limit := by grind

theorem limit_sub_add (sum : UInt32) : limit - (sum + XTEA_DELTA) = limit - sum - XTEA_DELTA := by
  grind

/-- The loop of `xtea_encrypt` and `xeta_encrypt`, which ends as the sum grows by an odd number. -/
def xteaEncryptLoop (s : TeaState) : TeaState :=
  if _h : s.sum ≠ limit then xteaEncryptLoop (xteaEncryptRound ctx mix s) else s
termination_by roundsLeft (limit - s.sum)
decreasing_by
  rw [roundsLeft_eq (mt limit_sub_eq_zero.1 _h), ← limit_sub_add]
  exact Nat.lt_succ_self _

/-- The loop of `xtea_decrypt` and `xeta_decrypt`. -/
def xteaDecryptLoop (s : TeaState) : TeaState :=
  if _h : s.sum ≠ 0 then xteaDecryptLoop (xteaDecryptRound ctx mix s) else s
termination_by roundsLeft s.sum
decreasing_by
  rw [roundsLeft_eq _h]
  exact Nat.lt_succ_self _

/-- `xtea_encrypt` and `xeta_encrypt`, by the way they mix. -/
def mixEncrypt (src : List UInt8) : List UInt8 :=
  (xteaEncryptLoop ctx mix ⟨le32ToCpu src 0, le32ToCpu src 1, 0⟩).out

/-- `xtea_decrypt` and `xeta_decrypt`, by the way they mix. -/
def mixDecrypt (src : List UInt8) : List UInt8 :=
  (xteaDecryptLoop ctx mix ⟨le32ToCpu src 0, le32ToCpu src 1, XTEA_DELTA * XTEA_ROUNDS⟩).out

def xteaEncrypt : List UInt8 → List UInt8 := mixEncrypt ctx xteaMix

def xteaDecrypt : List UInt8 → List UInt8 := mixDecrypt ctx xteaMix

def xetaEncrypt : List UInt8 → List UInt8 := mixEncrypt ctx xetaMix

def xetaDecrypt : List UInt8 → List UInt8 := mixDecrypt ctx xetaMix

end

/-- The three entries of `tea_algs`. -/
inductive TeaAlg
  | tea
  | xtea
  | xeta
  deriving DecidableEq, Repr

/-- `cia_encrypt`, with the key that `cia_setkey` sets. -/
def TeaAlg.encrypt (inKey : List UInt8) : TeaAlg → List UInt8 → List UInt8
  | .tea => teaEncrypt (teaSetkey inKey)
  | .xtea => xteaEncrypt (xteaSetkey inKey)
  | .xeta => xetaEncrypt (xteaSetkey inKey)

/-- `cia_decrypt`. -/
def TeaAlg.decrypt (inKey : List UInt8) : TeaAlg → List UInt8 → List UInt8
  | .tea => teaDecrypt (teaSetkey inKey)
  | .xtea => xteaDecrypt (xteaSetkey inKey)
  | .xeta => xetaDecrypt (xteaSetkey inKey)

/-! ## Rounds and back -/

section

variable {ctx : TeaCtx} {mix : Mix} {s : TeaState} {src : List UInt8}

theorem le32ToCpu_out (s : TeaState) :
    (⟨le32ToCpu s.out 0, le32ToCpu s.out 1, s.sum⟩ : TeaState) = s :=
  congrArg₂ (TeaState.mk · · s.sum) (word_byte s.y) (word_byte s.z)

theorem out_le32ToCpu (sum : UInt32) (h : src.length = TEA_BLOCK_SIZE) :
    TeaState.out ⟨le32ToCpu src 0, le32ToCpu src 1, sum⟩ = src := by
  have hwords := flatMap_cpuToLe32 (n := 2) h
  simpa [TeaState.out, List.range_succ] using hwords

theorem teaDecryptRound_teaEncryptRound :
    Function.LeftInverse (teaDecryptRound ctx) (teaEncryptRound ctx) := by
  intro s
  simp only [teaDecryptRound, teaEncryptRound, UInt32.add_sub_cancel]

theorem teaEncryptRound_teaDecryptRound :
    Function.LeftInverse (teaEncryptRound ctx) (teaDecryptRound ctx) := by
  intro s
  simp only [teaDecryptRound, teaEncryptRound, UInt32.sub_add_cancel]

theorem xteaDecryptRound_xteaEncryptRound :
    Function.LeftInverse (xteaDecryptRound ctx mix) (xteaEncryptRound ctx mix) := by
  intro s
  simp only [xteaDecryptRound, xteaEncryptRound, UInt32.add_sub_cancel]

theorem xteaEncryptRound_xteaDecryptRound :
    Function.LeftInverse (xteaEncryptRound ctx mix) (xteaDecryptRound ctx mix) := by
  intro s
  simp only [xteaDecryptRound, xteaEncryptRound, UInt32.sub_add_cancel]

/-- What the rounds do to the sum does not depend on the words. -/
theorem sum_iterate {f : TeaState → TeaState} {k : UInt32 → UInt32} (hf : ∀ s, (f s).sum = k s.sum)
    (n : ℕ) (s : TeaState) : (f^[n] s).sum = k^[n] s.sum := by
  induction n generalizing s with
  | zero => rfl
  | succ n ih => rw [Function.iterate_succ_apply, ih, hf, Function.iterate_succ_apply]

/-- **Rounds and back**: rounds that undo others, on the block which these have written and with the
sum which they end with. -/
theorem out_iterate_out_iterate {f g : TeaState → TeaState} {k : UInt32 → UInt32} {n : ℕ}
    {sum sum' : UInt32} (hfg : Function.LeftInverse g f) (hf : ∀ s, (f s).sum = k s.sum)
    (hsum : k^[n] sum = sum') (h : src.length = TEA_BLOCK_SIZE) {out : List UInt8}
    (hout : out = (f^[n] ⟨le32ToCpu src 0, le32ToCpu src 1, sum⟩).out) :
    (g^[n] ⟨le32ToCpu out 0, le32ToCpu out 1, sum'⟩).out = src := by
  have hend : (f^[n] ⟨le32ToCpu src 0, le32ToCpu src 1, sum⟩).sum = sum' := by
    rw [sum_iterate hf, hsum]
  rw [hout, ← hend, le32ToCpu_out, hfg.iterate n]
  exact out_le32ToCpu sum h

theorem teaDecrypt_teaEncrypt (ctx : TeaCtx) (h : src.length = TEA_BLOCK_SIZE) :
    teaDecrypt ctx (teaEncrypt ctx src) = src :=
  out_iterate_out_iterate (k := fun x => x + TEA_DELTA) teaDecryptRound_teaEncryptRound
    (fun _ => rfl) (by decide) h rfl

theorem teaEncrypt_teaDecrypt (ctx : TeaCtx) (h : src.length = TEA_BLOCK_SIZE) :
    teaEncrypt ctx (teaDecrypt ctx src) = src :=
  out_iterate_out_iterate (k := fun x => x - TEA_DELTA) teaEncryptRound_teaDecryptRound
    (fun _ => rfl) (by decide) h rfl

theorem roundsLeft_zero : roundsLeft 0 = 0 := by decide

theorem roundsLeft_pos {d : UInt32} (h : d ≠ 0) : roundsLeft d ≠ 0 := by
  rw [roundsLeft_eq h]
  exact Nat.succ_ne_zero _

/-- The loop of encryption has as many rounds as the sum is away from the limit. -/
theorem xteaEncryptLoop_eq (ctx : TeaCtx) (mix : Mix) {n : ℕ} {sum : UInt32} (hsum : s.sum = sum)
    (h : roundsLeft (limit - sum) = n) :
    xteaEncryptLoop ctx mix s = (xteaEncryptRound ctx mix)^[n] s := by
  subst hsum
  induction n generalizing s with
  | zero =>
    have hend : limit - s.sum = 0 := not_not.1 fun hne => roundsLeft_pos hne h
    rw [xteaEncryptLoop.eq_def, dif_neg (not_not.2 (limit_sub_eq_zero.1 hend)),
      Function.iterate_zero_apply]
  | succ n ih =>
    have hne : limit - s.sum ≠ 0 := by
      intro hzero
      rw [hzero, roundsLeft_zero] at h
      exact Nat.succ_ne_zero n h.symm
    have hleft : roundsLeft (limit - (xteaEncryptRound ctx mix s).sum) = n := by
      rw [roundsLeft_eq hne] at h
      exact (congrArg roundsLeft (limit_sub_add s.sum)).trans (Nat.succ.inj h)
    rw [xteaEncryptLoop.eq_def, dif_pos (mt limit_sub_eq_zero.2 hne), ih hleft,
      Function.iterate_succ_apply]

/-- The loop of decryption has as many rounds as the sum is away from zero. -/
theorem xteaDecryptLoop_eq (ctx : TeaCtx) (mix : Mix) {n : ℕ} {sum : UInt32} (hsum : s.sum = sum)
    (h : roundsLeft sum = n) : xteaDecryptLoop ctx mix s = (xteaDecryptRound ctx mix)^[n] s := by
  subst hsum
  induction n generalizing s with
  | zero =>
    have hend : s.sum = 0 := not_not.1 fun hne => roundsLeft_pos hne h
    rw [xteaDecryptLoop, dif_neg (not_not.2 hend), Function.iterate_zero_apply]
  | succ n ih =>
    have hne : s.sum ≠ 0 := by
      intro hzero
      rw [hzero, roundsLeft_zero] at h
      exact Nat.succ_ne_zero n h.symm
    have hleft : roundsLeft (xteaDecryptRound ctx mix s).sum = n := by
      rw [roundsLeft_eq hne] at h
      exact Nat.succ.inj h
    rw [xteaDecryptLoop, dif_pos hne, ih hleft, Function.iterate_succ_apply]

theorem mixEncrypt_eq (ctx : TeaCtx) (mix : Mix) (src : List UInt8) :
    mixEncrypt ctx mix src =
      ((xteaEncryptRound ctx mix)^[TEA_ROUNDS] ⟨le32ToCpu src 0, le32ToCpu src 1, 0⟩).out := by
  have hleft : roundsLeft (limit - 0) = TEA_ROUNDS := by decide
  have hrun := xteaEncryptLoop_eq (s := ⟨le32ToCpu src 0, le32ToCpu src 1, 0⟩) ctx mix rfl hleft
  rw [mixEncrypt, hrun]

theorem mixDecrypt_eq (ctx : TeaCtx) (mix : Mix) (src : List UInt8) :
    mixDecrypt ctx mix src =
      ((xteaDecryptRound ctx mix)^[TEA_ROUNDS] ⟨le32ToCpu src 0, le32ToCpu src 1, limit⟩).out := by
  have hleft : roundsLeft limit = TEA_ROUNDS := by decide
  have hrun := xteaDecryptLoop_eq (s := ⟨le32ToCpu src 0, le32ToCpu src 1, limit⟩) ctx mix rfl hleft
  exact congrArg TeaState.out hrun

theorem mixDecrypt_mixEncrypt (ctx : TeaCtx) (mix : Mix) (h : src.length = TEA_BLOCK_SIZE) :
    mixDecrypt ctx mix (mixEncrypt ctx mix src) = src := by
  rw [mixDecrypt_eq]
  exact out_iterate_out_iterate (k := fun x => x + XTEA_DELTA) xteaDecryptRound_xteaEncryptRound
    (fun _ => rfl) (by decide) h (mixEncrypt_eq ctx mix src)

theorem mixEncrypt_mixDecrypt (ctx : TeaCtx) (mix : Mix) (h : src.length = TEA_BLOCK_SIZE) :
    mixEncrypt ctx mix (mixDecrypt ctx mix src) = src := by
  rw [mixEncrypt_eq]
  exact out_iterate_out_iterate (k := fun x => x - XTEA_DELTA) xteaEncryptRound_xteaDecryptRound
    (fun _ => rfl) (by decide) h (mixDecrypt_eq ctx mix src)

end

/-! ## The family -/

section

variable {inKey src : List UInt8} {alg : TeaAlg}

theorem TeaAlg.length_encrypt (inKey src : List UInt8) (alg : TeaAlg) :
    (alg.encrypt inKey src).length = TEA_BLOCK_SIZE := by
  cases alg <;> rfl

theorem TeaAlg.length_decrypt (inKey src : List UInt8) (alg : TeaAlg) :
    (alg.decrypt inKey src).length = TEA_BLOCK_SIZE := by
  cases alg <;> rfl

theorem TeaAlg.decrypt_encrypt (inKey : List UInt8) (alg : TeaAlg)
    (h : src.length = TEA_BLOCK_SIZE) : alg.decrypt inKey (alg.encrypt inKey src) = src := by
  cases alg with
  | tea => exact teaDecrypt_teaEncrypt (teaSetkey inKey) h
  | xtea => exact mixDecrypt_mixEncrypt (xteaSetkey inKey) xteaMix h
  | xeta => exact mixDecrypt_mixEncrypt (xteaSetkey inKey) xetaMix h

theorem TeaAlg.encrypt_decrypt (inKey : List UInt8) (alg : TeaAlg)
    (h : src.length = TEA_BLOCK_SIZE) : alg.encrypt inKey (alg.decrypt inKey src) = src := by
  cases alg with
  | tea => exact teaEncrypt_teaDecrypt (teaSetkey inKey) h
  | xtea => exact mixEncrypt_mixDecrypt (xteaSetkey inKey) xteaMix h
  | xeta => exact mixEncrypt_mixDecrypt (xteaSetkey inKey) xetaMix h

/-- The cipher with a key. -/
def TeaAlg.cipher (inKey : List UInt8) (alg : TeaAlg) : Cipher where
  blocksize := TEA_BLOCK_SIZE
  encrypt := alg.encrypt inKey
  decrypt := alg.decrypt inKey
  blocksize_pos := Nat.zero_lt_succ _
  length_encrypt _ _ := alg.length_encrypt ..
  length_decrypt _ _ := alg.length_decrypt ..

theorem TeaAlg.inverts_cipher (inKey : List UInt8) (alg : TeaAlg) : (alg.cipher inKey).Inverts :=
  fun _ h => alg.decrypt_encrypt inKey h

/-- A round of the encryption. -/
def TeaAlg.encryptRound (ctx : TeaCtx) : TeaAlg → TeaState → TeaState
  | .tea => teaEncryptRound ctx
  | .xtea => xteaEncryptRound ctx xteaMix
  | .xeta => xteaEncryptRound ctx xetaMix

/-- A round of the decryption. -/
def TeaAlg.decryptRound (ctx : TeaCtx) : TeaAlg → TeaState → TeaState
  | .tea => teaDecryptRound ctx
  | .xtea => xteaDecryptRound ctx xteaMix
  | .xeta => xteaDecryptRound ctx xetaMix

theorem TeaAlg.encrypt_eq (inKey src : List UInt8) (alg : TeaAlg) :
    alg.encrypt inKey src =
      ((alg.encryptRound (teaSetkey inKey))^[TEA_ROUNDS]
        ⟨le32ToCpu src 0, le32ToCpu src 1, 0⟩).out := by
  cases alg with
  | tea => rfl
  | xtea => exact mixEncrypt_eq _ xteaMix src
  | xeta => exact mixEncrypt_eq _ xetaMix src

theorem TeaAlg.decrypt_eq (inKey src : List UInt8) (alg : TeaAlg) :
    alg.decrypt inKey src =
      ((alg.decryptRound (teaSetkey inKey))^[TEA_ROUNDS]
        ⟨le32ToCpu src 0, le32ToCpu src 1, limit⟩).out := by
  cases alg with
  | tea =>
    have hsum : TEA_DELTA <<< 5 = limit := by decide
    rw [← hsum]
    rfl
  | xtea => exact mixDecrypt_eq _ xteaMix src
  | xeta => exact mixDecrypt_eq _ xetaMix src

/-- **The family**: under every key each of the three ciphers permutes the blocks, in 32 rounds, and its
decryption is the inverse permutation. -/
theorem teaAlgs_permute (alg : TeaAlg) (inKey : List UInt8) (src : List UInt8)
    (h : src.length = TEA_BLOCK_SIZE) :
    (alg.encrypt inKey src).length = TEA_BLOCK_SIZE ∧
      alg.decrypt inKey (alg.encrypt inKey src) = src ∧
      (alg.decrypt inKey src).length = TEA_BLOCK_SIZE ∧
      alg.encrypt inKey (alg.decrypt inKey src) = src ∧
      alg.encrypt inKey src = ((alg.encryptRound (teaSetkey inKey))^[32]
        ⟨le32ToCpu src 0, le32ToCpu src 1, 0⟩).out ∧
      alg.decrypt inKey src = ((alg.decryptRound (teaSetkey inKey))^[32]
        ⟨le32ToCpu src 0, le32ToCpu src 1, limit⟩).out := by
  refine ⟨alg.length_encrypt inKey src, ?_, alg.length_decrypt inKey src, ?_, ?_, ?_⟩
  · exact alg.decrypt_encrypt inKey h
  · exact alg.encrypt_decrypt inKey h
  · exact alg.encrypt_eq inKey src
  · exact alg.decrypt_eq inKey src

theorem teaAlgs_permute_xeta :
    let src : List UInt8 := [1, 2, 3, 4, 5, 6, 7, 8]
    let inKey : List UInt8 := [0, 1, 2, 3, 4, 5, 6, 7, 8, 9, 10, 11, 12, 13, 14, 15]
    TeaAlg.xeta.decrypt inKey (TeaAlg.xeta.encrypt inKey src) = src ∧
      TeaAlg.xeta.encrypt inKey src = ((xteaEncryptRound (xteaSetkey inKey) xetaMix)^[32]
        ⟨le32ToCpu src 0, le32ToCpu src 1, 0⟩).out := by
  intro src inKey
  have h := teaAlgs_permute .xeta inKey src rfl
  exact ⟨h.2.1, h.2.2.2.2.1⟩

end

end KernelCrypto

end Server6
