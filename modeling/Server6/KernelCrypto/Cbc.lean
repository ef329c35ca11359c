import Server6.KernelCrypto.Tea

/-!
# Cipher block chaining

The functions of the `cbc` template on a memory, with their loops and pointers: one pair for a result
that is written elsewhere, and one pair for a result that is written over the input. Decryption in
place runs from the last block to the first, since each block is still needed for the one behind it.

* `cryptoCbcEncrypt_chained` and `cryptoCbcDecrypt_chained`: both pairs compute the mode (`cbcEncrypt`,
  `cbcDecrypt`), answer with the number of bytes left over, and leave the rest of the memory alone.
* `cryptoCbc_inplaceAgrees`: the two pairs agree.
* `cryptoCbcDecrypt_cryptoCbcEncrypt`: decryption brings back the input of an encryption, wherever the
  two write.
-/

namespace Server6

namespace KernelCrypto

open Memory

/-- `is_power_of_2`. -/
def isPowerOf2 (n : ℕ) : Bool := n ≠ 0 && n &&& (n - 1) = 0

/-- An instance that `crypto_cbc_create` registers, for a cipher without a state of its own. -/
structure Cbc extends Cipher where
  isPowerOf2 : isPowerOf2 blocksize

/-- `crypto_cbc_create`, from the size check on. -/
def cryptoCbcCreate (c : Cipher) (statesize : ℕ) : Except Int Cbc :=
  if h : isPowerOf2 c.blocksize then
    if statesize ≠ 0 then .error (-EINVAL) else .ok ⟨c, h⟩
  else .error (-EINVAL)

/-! ## The code -/

section

variable (c : Cbc)

/-- `crypto_cbc_encrypt_segment`: the memory and the number of bytes left over. -/
def cryptoCbcEncryptSegment (mem : Memory) (src dst nbytes iv : ℕ) : Memory × ℕ :=
  if c.blocksize ≤ nbytes then
    let mem := cryptoXor mem iv src c.blocksize
    let mem := c.encryptOne mem iv dst
    let mem := memcpy mem iv dst c.blocksize
    cryptoCbcEncryptSegment mem (src + c.blocksize) (dst + c.blocksize) (nbytes - c.blocksize) iv
  else (mem, nbytes)
termination_by nbytes
decreasing_by
  have hpos := c.blocksize_pos
  omega

/-- The loop of `crypto_cbc_encrypt_inplace`, with the pointer `iv` it ends with. -/
def encryptInplaceLoop (mem : Memory) (src nbytes iv : ℕ) : Memory × ℕ × ℕ :=
  let mem := cryptoXor mem src iv c.blocksize
  let mem := c.encryptOne mem src src
  if c.blocksize ≤ nbytes - c.blocksize then
    encryptInplaceLoop mem (src + c.blocksize) (nbytes - c.blocksize) src
  else (mem, nbytes - c.blocksize, src)
termination_by nbytes
decreasing_by
  have hpos := c.blocksize_pos
  omega

/-- `crypto_cbc_encrypt_inplace`. -/
def cryptoCbcEncryptInplace (mem : Memory) (src nbytes oiv : ℕ) : Memory × ℕ :=
  if nbytes < c.blocksize then (mem, nbytes)
  else
    let r := encryptInplaceLoop c mem src nbytes oiv
    (memcpy r.1 oiv r.2.2 c.blocksize, r.2.1)

/-- `crypto_cbc_encrypt`. -/
def cryptoCbcEncrypt (mem : Memory) (src dst len iv : ℕ) (final : Bool) : Memory × Int :=
  let r :=
    if src = dst then cryptoCbcEncryptInplace c mem dst len iv
    else cryptoCbcEncryptSegment c mem src dst len iv
  (r.1, if r.2 ≠ 0 && final then -EINVAL else r.2)

/-- The loop of `crypto_cbc_decrypt_segment`, with the pointer `iv` it ends with. -/
def decryptSegmentLoop (mem : Memory) (src dst nbytes iv : ℕ) : Memory × ℕ × ℕ :=
  let mem := c.decryptOne mem src dst
  let mem := cryptoXor mem dst iv c.blocksize
  if c.blocksize ≤ nbytes - c.blocksize then
    decryptSegmentLoop mem (src + c.blocksize) (dst + c.blocksize) (nbytes - c.blocksize) src
  else (mem, nbytes - c.blocksize, src)
termination_by nbytes
decreasing_by
  have hpos := c.blocksize_pos
  omega

/-- `crypto_cbc_decrypt_segment`. -/
def cryptoCbcDecryptSegment (mem : Memory) (src dst nbytes oiv : ℕ) : Memory × ℕ :=
  if nbytes < c.blocksize then (mem, nbytes)
  else
    let r := decryptSegmentLoop c mem src dst nbytes oiv
    (memcpy r.1 oiv r.2.2 c.blocksize, r.2.1)

/-- The loop of `crypto_cbc_decrypt_inplace`, with the pointer `src` it ends with. -/
def decryptInplaceLoop (mem : Memory) (src nbytes : ℕ) : Memory × ℕ × ℕ :=
  let mem := c.decryptOne mem src src
  if nbytes - c.blocksize < c.blocksize then (mem, nbytes - c.blocksize, src)
  else
    let mem := cryptoXor mem src (src - c.blocksize) c.blocksize
    decryptInplaceLoop mem (src - c.blocksize) (nbytes - c.blocksize)
termination_by nbytes
decreasing_by
  have hpos := c.blocksize_pos
  omega

/-- `crypto_cbc_decrypt_inplace`; `lastIv` is its buffer `last_iv`. -/
def cryptoCbcDecryptInplace (mem : Memory) (src nbytes iv : ℕ) : Memory × ℕ :=
  if nbytes < c.blocksize then (mem, nbytes)
  else
    let src := src + (nbytes - (nbytes &&& (c.blocksize - 1)) - c.blocksize)
    let lastIv := load mem src c.blocksize
    let r := decryptInplaceLoop c mem src nbytes
    let mem := cryptoXor r.1 r.2.2 iv c.blocksize
    (assign mem iv lastIv, r.2.1)

/-- `crypto_cbc_decrypt`. -/
def cryptoCbcDecrypt (mem : Memory) (src dst len iv : ℕ) (final : Bool) : Memory × Int :=
  let r :=
    if src = dst then cryptoCbcDecryptInplace c mem dst len iv
    else cryptoCbcDecryptSegment c mem src dst len iv
  (r.1, if r.2 ≠ 0 && final then -EINVAL else r.2)

end

/-! ## The mode -/

/-- A block is combined with the one before it and encrypted. -/
def Cipher.cbcEncrypt (c : Cipher) : Step := fun iv x =>
  (c.encrypt (xorBytes iv x), c.encrypt (xorBytes iv x))

/-- A block is decrypted and combined with the one before it. -/
def Cipher.cbcDecrypt (c : Cipher) : Step := fun iv y => (xorBytes (c.decrypt y) iv, y)

variable {c : Cbc} {mem mem' : Memory} {src dst iv nbytes q : ℕ}

/-- What is kept after decryption is the last block of the input. -/
theorem kept_cbcDecrypt (d : Cipher) (mem : Memory) (p m q : ℕ) :
    (chain d.cbcDecrypt (load mem p m) (words mem (p + m) m q)).2 = load mem (p + m * q) m := by
  induction q generalizing p with
  | zero => rfl
  | succ q ih =>
    rw [words, chain, Nat.mul_succ, Nat.add_comm (m * q), ← Nat.add_assoc]
    exact ih (p + m)

/-- The blocks and the rest of a number of bytes. -/
theorem div_succ (h : nbytes / c.blocksize = q + 1) :
    c.blocksize ≤ nbytes ∧ (nbytes - c.blocksize) / c.blocksize = q ∧
      (nbytes - c.blocksize) % c.blocksize = nbytes % c.blocksize := by
  have hle : c.blocksize ≤ nbytes := by
    by_contra hlt
    rw [Nat.div_eq_of_lt (Nat.not_le.1 hlt)] at h
    cases h
  refine ⟨hle, ?_, (Nat.mod_eq_sub_mod hle).symm⟩
  rw [Nat.div_eq_sub_div c.blocksize_pos hle] at h
  exact Nat.succ.inj h

theorem lt_of_div_eq_zero (h : nbytes / c.blocksize = 0) : nbytes < c.blocksize :=
  (Nat.div_eq_zero_iff_lt c.blocksize_pos).1 h

theorem le_iff_div {n : ℕ} : c.blocksize ≤ n ↔ n / c.blocksize ≠ 0 := by
  rw [Ne, Nat.div_eq_zero_iff_lt c.blocksize_pos, Nat.not_lt]

/-! ## Encryption -/

theorem chained_encryptSegment_step (hp : Places c.blocksize src dst iv c.blocksize) :
    Chained c.cbcEncrypt c.blocksize src dst iv 1 mem
      (memcpy (c.encryptOne (cryptoXor mem iv src c.blocksize) iv dst) iv dst c.blocksize) := by
  have hapart := hp.target.symm
  refine chained_one ?_ ?_ fun a ha ha' => ?_
  · rw [load_memcpy_of_apart hapart, load_encryptOne, load_cryptoXor]
    rfl
  · rw [load_memcpy, load_encryptOne, load_cryptoXor]
    rfl
  · rw [memcpy_of_outside ha', encryptOne_of_outside ha, cryptoXor_of_outside ha']

theorem cryptoCbcEncryptSegment_chained (mem : Memory) (hq : nbytes / c.blocksize = q)
    (hp : Places c.blocksize src dst iv (c.blocksize * q)) :
    Chained c.cbcEncrypt c.blocksize src dst iv q mem
        (cryptoCbcEncryptSegment c mem src dst nbytes iv).1 ∧
      (cryptoCbcEncryptSegment c mem src dst nbytes iv).2 = nbytes % c.blocksize := by
  induction q generalizing mem src dst nbytes with
  | zero =>
    have hlt := lt_of_div_eq_zero hq
    rw [cryptoCbcEncryptSegment, if_neg (Nat.not_le.2 hlt)]
    exact ⟨Chained.zero .., (Nat.mod_eq_of_lt hlt).symm⟩
  | succ q ih =>
    obtain ⟨hle, hdiv, hmod⟩ := div_succ hq
    rw [cryptoCbcEncryptSegment, if_pos hle]
    obtain ⟨hrest, hleft⟩ := ih (memcpy (c.encryptOne (cryptoXor mem iv src c.blocksize) iv dst)
      iv dst c.blocksize) hdiv hp.tail
    exact ⟨(chained_encryptSegment_step hp.head).cons hp hrest, hleft.trans hmod⟩

theorem advanced_encryptInplace_step :
    Advanced c.cbcEncrypt c.blocksize src src iv src 1 mem
      (c.encryptOne (cryptoXor mem src iv c.blocksize) src src) := by
  have hload : load (c.encryptOne (cryptoXor mem src iv c.blocksize) src src) src c.blocksize =
      c.encrypt (xorBytes (load mem iv c.blocksize) (load mem src c.blocksize)) := by
    rw [load_encryptOne, load_cryptoXor, xorBytes_comm]
  refine advanced_one hload hload fun a ha => ?_
  rw [encryptOne_of_outside ha, cryptoXor_of_outside ha]

theorem encryptInplaceLoop_advanced (mem : Memory) (hq : nbytes / c.blocksize = q + 1) :
    Advanced c.cbcEncrypt c.blocksize src src iv (encryptInplaceLoop c mem src nbytes iv).2.2 (q + 1)
        mem (encryptInplaceLoop c mem src nbytes iv).1 ∧
      (encryptInplaceLoop c mem src nbytes iv).2.1 = nbytes % c.blocksize := by
  induction q generalizing mem src nbytes iv with
  | zero =>
    obtain ⟨hle, hdiv, hmod⟩ := div_succ hq
    have hlt := lt_of_div_eq_zero hdiv
    rw [encryptInplaceLoop]
    simp only [if_neg (Nat.not_le.2 hlt)]
    exact ⟨advanced_encryptInplace_step, by rw [← hmod, Nat.mod_eq_of_lt hlt]⟩
  | succ q ih =>
    obtain ⟨hle, hdiv, hmod⟩ := div_succ hq
    have hmore : c.blocksize ≤ nbytes - c.blocksize := le_iff_div.2 (by rw [hdiv]; simp)
    rw [encryptInplaceLoop]
    simp only [if_pos hmore]
    obtain ⟨hrest, hleft⟩ := ih
      (c.encryptOne (cryptoXor mem src iv c.blocksize) src src) hdiv
    exact ⟨advanced_encryptInplace_step.cons (.inl rfl) hrest, hleft.trans hmod⟩

theorem cryptoCbcEncryptInplace_chained (mem : Memory) (hq : nbytes / c.blocksize = q)
    (hp : Places c.blocksize src src iv (c.blocksize * q)) :
    Chained c.cbcEncrypt c.blocksize src src iv q mem
        (cryptoCbcEncryptInplace c mem src nbytes iv).1 ∧
      (cryptoCbcEncryptInplace c mem src nbytes iv).2 = nbytes % c.blocksize := by
  cases q with
  | zero =>
    have hlt := lt_of_div_eq_zero hq
    rw [cryptoCbcEncryptInplace, if_pos hlt]
    exact ⟨Chained.zero .., (Nat.mod_eq_of_lt hlt).symm⟩
  | succ q =>
    have hle := (div_succ hq).1
    rw [cryptoCbcEncryptInplace, if_neg (Nat.not_lt.2 hle)]
    obtain ⟨hloop, hleft⟩ := encryptInplaceLoop_advanced mem hq
    exact ⟨hloop.chained hp, hleft⟩

/-- What the two entry points answer, given the bytes left over. -/
def answer (nbytes : ℕ) (final : Bool) : Int := if nbytes ≠ 0 && final then -EINVAL else nbytes

/-- **Encryption computes the mode**, in place and elsewhere. -/
theorem cryptoCbcEncrypt_chained (c : Cbc) (mem : Memory) (src dst len iv : ℕ) (final : Bool)
    (hp : Places c.blocksize src dst iv (c.blocksize * (len / c.blocksize))) :
    Chained c.cbcEncrypt c.blocksize src dst iv (len / c.blocksize) mem
        (cryptoCbcEncrypt c mem src dst len iv final).1 ∧
      (cryptoCbcEncrypt c mem src dst len iv final).2 = answer (len % c.blocksize) final := by
  unfold cryptoCbcEncrypt
  by_cases hsame : src = dst
  · subst hsame
    obtain ⟨hchained, hleft⟩ := cryptoCbcEncryptInplace_chained mem rfl hp
    simp only [if_true, hleft]
    exact ⟨hchained, rfl⟩
  · obtain ⟨hchained, hleft⟩ := cryptoCbcEncryptSegment_chained mem rfl hp
    simp only [if_neg hsame, hleft]
    exact ⟨hchained, rfl⟩

/-! ## Decryption -/

theorem advanced_decryptSegment_step (hwords : Apart dst c.blocksize src c.blocksize)
    (hiv : Apart dst c.blocksize iv c.blocksize) :
    Advanced c.cbcDecrypt c.blocksize src dst iv src 1 mem
      (cryptoXor (c.decryptOne mem src dst) dst iv c.blocksize) := by
  refine advanced_one ?_ ?_ fun a ha => ?_
  · rw [load_cryptoXor, load_decryptOne, load_decryptOne_of_apart hiv]
    rfl
  · rw [load_cryptoXor_of_apart hwords, load_decryptOne_of_apart hwords]
    rfl
  · rw [cryptoXor_of_outside ha, decryptOne_of_outside ha]

/-- The pointer `iv` is at the buffer first and then at the block read before. -/
theorem decryptSegmentLoop_advanced (mem : Memory) (hq : nbytes / c.blocksize = q + 1)
    (hwords : Apart dst (c.blocksize * (q + 1)) src (c.blocksize * (q + 1)))
    (hiv : Apart dst (c.blocksize * (q + 1)) iv c.blocksize) :
    Advanced c.cbcDecrypt c.blocksize src dst iv
        (decryptSegmentLoop c mem src dst nbytes iv).2.2 (q + 1) mem
        (decryptSegmentLoop c mem src dst nbytes iv).1 ∧
      (decryptSegmentLoop c mem src dst nbytes iv).2.1 = nbytes % c.blocksize := by
  induction q generalizing mem src dst nbytes iv with
  | zero =>
    obtain ⟨hle, hdiv, hmod⟩ := div_succ hq
    have hlt := lt_of_div_eq_zero hdiv
    rw [Nat.zero_add, Nat.mul_one] at hwords hiv
    rw [decryptSegmentLoop]
    simp only [if_neg (Nat.not_le.2 hlt)]
    exact ⟨advanced_decryptSegment_step hwords hiv, by rw [← hmod, Nat.mod_eq_of_lt hlt]⟩
  | succ q ih =>
    obtain ⟨hle, hdiv, hmod⟩ := div_succ hq
    have hmore : c.blocksize ≤ nbytes - c.blocksize := le_iff_div.2 (by rw [hdiv]; simp)
    have hp := hwords
    rw [Nat.mul_succ] at hwords hiv
    rw [decryptSegmentLoop]
    simp only [if_pos hmore]
    have hfirst : Apart dst c.blocksize src c.blocksize := by
      unfold Apart at *
      omega
    have hfirst' : Apart dst c.blocksize iv c.blocksize := by
      unfold Apart at *
      omega
    -- the block read before lies in the source
    have hnext : Apart (dst + c.blocksize) (c.blocksize * (q + 1)) (src + c.blocksize)
        (c.blocksize * (q + 1)) := by
      unfold Apart at *
      omega
    have hnext' : Apart (dst + c.blocksize) (c.blocksize * (q + 1)) src c.blocksize := by
      unfold Apart at *
      omega
    obtain ⟨hrest, hleft⟩ :=
      ih (cryptoXor (c.decryptOne mem src dst) dst iv c.blocksize) hdiv hnext hnext'
    exact ⟨(advanced_decryptSegment_step hfirst hfirst').cons (.inr hp) hrest, hleft.trans hmod⟩

theorem cryptoCbcDecryptSegment_chained (mem : Memory) (hq : nbytes / c.blocksize = q)
    (hp : Places c.blocksize src dst iv (c.blocksize * q)) (hne : src ≠ dst) :
    Chained c.cbcDecrypt c.blocksize src dst iv q mem
        (cryptoCbcDecryptSegment c mem src dst nbytes iv).1 ∧
      (cryptoCbcDecryptSegment c mem src dst nbytes iv).2 = nbytes % c.blocksize := by
  cases q with
  | zero =>
    have hlt := lt_of_div_eq_zero hq
    rw [cryptoCbcDecryptSegment, if_pos hlt]
    exact ⟨Chained.zero .., (Nat.mod_eq_of_lt hlt).symm⟩
  | succ q =>
    have hle := (div_succ hq).1
    rw [cryptoCbcDecryptSegment, if_neg (Nat.not_lt.2 hle)]
    obtain ⟨hloop, hleft⟩ :=
      decryptSegmentLoop_advanced mem hq (hp.words.resolve_left hne.symm) hp.target
    exact ⟨hloop.chained hp, hleft⟩

/-- The loop on the blocks from `base` on, whose last one is at `src`: the first block is decrypted, and
the other ones are as the mode has them after the first. -/
theorem decryptInplaceLoop_spec (mem : Memory) (base : ℕ) (hq : nbytes / c.blocksize = q + 1)
    (hsrc : src = base + c.blocksize * q) :
    load (decryptInplaceLoop c mem src nbytes).1 base c.blocksize =
        c.decrypt (load mem base c.blocksize) ∧
      words (decryptInplaceLoop c mem src nbytes).1 (base + c.blocksize) c.blocksize q =
        (chain c.cbcDecrypt (load mem base c.blocksize)
          (words mem (base + c.blocksize) c.blocksize q)).1 ∧
      (∀ a, (a < base ∨ base + c.blocksize * (q + 1) ≤ a) →
        (decryptInplaceLoop c mem src nbytes).1 a = mem a) ∧
      (decryptInplaceLoop c mem src nbytes).2 = (nbytes % c.blocksize, base) := by
  induction q generalizing mem src nbytes with
  | zero =>
    obtain ⟨hle, hdiv, hmod⟩ := div_succ hq
    have hlt := lt_of_div_eq_zero hdiv
    obtain rfl : src = base := by simpa using hsrc
    rw [decryptInplaceLoop]
    simp only [if_pos hlt]
    refine ⟨load_decryptOne, rfl, fun a ha => ?_, by rw [← hmod, Nat.mod_eq_of_lt hlt]⟩
    exact decryptOne_of_outside (by simpa using ha)
  | succ q ih =>
    obtain ⟨hle, hdiv, hmod⟩ := div_succ hq
    have hmore : c.blocksize ≤ nbytes - c.blocksize := le_iff_div.2 (by rw [hdiv]; simp)
    have hprev : src - c.blocksize = base + c.blocksize * q := by
      rw [hsrc, Nat.mul_succ]
      omega
    rw [decryptInplaceLoop]
    simp only [if_neg (Nat.not_lt.2 hmore)]
    -- what the step leaves: the last block as the mode has it, and everything else
    have hlast : load (cryptoXor (c.decryptOne mem src src) src (src - c.blocksize) c.blocksize) src
        c.blocksize = xorBytes (c.decrypt (load mem src c.blocksize))
          (load mem (base + c.blocksize * q) c.blocksize) := by
      have hapart : Apart src c.blocksize (base + c.blocksize * q) c.blocksize := by
        rw [hsrc, Nat.mul_succ]
        exact .inr (by omega)
      rw [load_cryptoXor, load_decryptOne, hprev, load_decryptOne_of_apart hapart]
    have hbefore : ∀ a, (a < src ∨ src + c.blocksize ≤ a) →
        cryptoXor (c.decryptOne mem src src) src (src - c.blocksize) c.blocksize a = mem a := by
      intro a ha
      rw [cryptoXor_of_outside ha, decryptOne_of_outside ha]
    obtain ⟨hfirst, hrest, hframe, hend⟩ :=
      ih (cryptoXor (c.decryptOne mem src src) src (src - c.blocksize) c.blocksize) hdiv hprev
    have hmul : c.blocksize * (q + 1) = c.blocksize * q + c.blocksize := Nat.mul_succ ..
    have hmul' : c.blocksize * (q + 1 + 1) = c.blocksize * q + c.blocksize + c.blocksize := by
      rw [Nat.mul_succ, Nat.mul_succ]
    refine ⟨?_, ?_, fun a ha => ?_, by rw [hend, hmod]⟩
    · rw [hfirst, load_congr fun a ha ha' => hbefore a (by omega)]
    · have hkept := kept_cbcDecrypt c.toCipher mem base c.blocksize q
      have hsrc' : base + c.blocksize + c.blocksize * q = src := by omega
      rw [words_add, words_add, chain_append, hrest, hkept, hsrc', words_one, words_one,
        load_congr fun a ha ha' => hbefore a (by omega),
        words_congr fun a ha ha' => hbefore a (by omega),
        load_congr fun a ha ha' => hframe a (by omega), hlast]
      rfl
    · rw [hframe a (by omega), hbefore a (by omega)]

/-- The mask of a power of two. -/
theorem and_blocksize (c : Cbc) (n : ℕ) : n &&& (c.blocksize - 1) = n % c.blocksize := by
  have hpow := c.isPowerOf2
  simp only [KernelCrypto.isPowerOf2, Bool.and_eq_true, decide_eq_true_eq] at hpow
  obtain ⟨k, hk⟩ := Nat.ne_zero_and_sub_one_eq_zero_iff_isPowerOfTwo.1 hpow
  rw [hk, Nat.and_two_pow_sub_one_eq_mod]

theorem cryptoCbcDecryptInplace_chained (mem : Memory) (hq : nbytes / c.blocksize = q)
    (hp : Places c.blocksize src src iv (c.blocksize * q)) :
    Chained c.cbcDecrypt c.blocksize src src iv q mem
        (cryptoCbcDecryptInplace c mem src nbytes iv).1 ∧
      (cryptoCbcDecryptInplace c mem src nbytes iv).2 = nbytes % c.blocksize := by
  cases q with
  | zero =>
    have hlt := lt_of_div_eq_zero hq
    rw [cryptoCbcDecryptInplace, if_pos hlt]
    exact ⟨Chained.zero .., (Nat.mod_eq_of_lt hlt).symm⟩
  | succ q =>
    have hle := (div_succ hq).1
    have hmul : c.blocksize * (q + 1) = c.blocksize * q + c.blocksize := Nat.mul_succ ..
    have hapart := hp.source
    unfold Apart at hapart
    have hoffset : nbytes - (nbytes &&& (c.blocksize - 1)) - c.blocksize = c.blocksize * q := by
      have hdiv := Nat.div_add_mod nbytes c.blocksize
      rw [hq] at hdiv
      rw [and_blocksize]
      omega
    rw [cryptoCbcDecryptInplace, if_neg (Nat.not_lt.2 hle)]
    simp only [hoffset]
    obtain ⟨hfirst, hrest, hframe, hend⟩ := decryptInplaceLoop_spec mem src hq rfl
    simp only [hend]
    generalize (decryptInplaceLoop c mem (src + c.blocksize * q) nbytes).1 = mem' at *
    have hiv : load mem' iv c.blocksize = load mem iv c.blocksize :=
      load_congr fun a ha ha' => hframe a (by omega)
    have hstore : ∀ a, (a < iv ∨ iv + c.blocksize ≤ a) →
        assign (cryptoXor mem' src iv c.blocksize) iv (load mem (src + c.blocksize * q) c.blocksize)
          a = cryptoXor mem' src iv c.blocksize a :=
      fun a ha => assign_of_outside (by rwa [length_load])
    refine ⟨⟨?_, ?_, fun a ha ha' => ?_⟩, trivial⟩
    · rw [words, words, chain, load_congr fun a ha ha' => hstore a (by omega), load_cryptoXor,
        hfirst, hiv, words_congr fun a ha ha' => hstore a (by omega),
        words_congr fun a ha ha' => cryptoXor_of_outside (by omega), hrest]
      rfl
    · rw [load_assign _ (length_load ..), words, chain]
      exact (kept_cbcDecrypt c.toCipher mem src c.blocksize q).symm
    · rw [hstore a ha', cryptoXor_of_outside (by omega), hframe a ha]

/-- **Decryption computes the mode**, in place, from behind, and elsewhere. -/
theorem cryptoCbcDecrypt_chained (c : Cbc) (mem : Memory) (src dst len iv : ℕ) (final : Bool)
    (hp : Places c.blocksize src dst iv (c.blocksize * (len / c.blocksize))) :
    Chained c.cbcDecrypt c.blocksize src dst iv (len / c.blocksize) mem
        (cryptoCbcDecrypt c mem src dst len iv final).1 ∧
      (cryptoCbcDecrypt c mem src dst len iv final).2 = answer (len % c.blocksize) final := by
  unfold cryptoCbcDecrypt
  by_cases hsame : src = dst
  · subst hsame
    obtain ⟨hchained, hleft⟩ := cryptoCbcDecryptInplace_chained mem rfl hp
    simp only [if_true, hleft]
    exact ⟨hchained, rfl⟩
  · obtain ⟨hchained, hleft⟩ := cryptoCbcDecryptSegment_chained mem rfl hp hsame
    simp only [if_neg hsame, hleft]
    exact ⟨hchained, rfl⟩

/-! ## In place and elsewhere -/

/-- The function of an algorithm: memory, source, destination, length, initial value and the flag
`CRYPTO_LSKCIPHER_FLAG_FINAL`. -/
abbrev Crypt := Memory → ℕ → ℕ → ℕ → ℕ → Bool → Memory × Int

/-- An algorithm computes a chaining mode on blocks of `m` bytes. -/
def Computes (f : Step) (m : ℕ) (crypt : Crypt) : Prop :=
  ∀ mem src dst len iv final, Places m src dst iv (m * (len / m)) →
    Chained f m src dst iv (len / m) mem (crypt mem src dst len iv final).1 ∧
      (crypt mem src dst len iv final).2 = answer (len % m) final

theorem computes_cbcEncrypt (c : Cbc) : Computes c.cbcEncrypt c.blocksize (cryptoCbcEncrypt c) :=
  cryptoCbcEncrypt_chained c

theorem computes_cbcDecrypt (c : Cbc) : Computes c.cbcDecrypt c.blocksize (cryptoCbcDecrypt c) :=
  cryptoCbcDecrypt_chained c

/-- What an algorithm does in place and elsewhere, on `n` bytes in whole blocks. -/
structure InplaceAgrees (crypt : Crypt) (mem : Memory) (src dst len iv : ℕ) (final : Bool)
    (m n : ℕ) : Prop where
  answer : (crypt mem src src len iv final).2 = (crypt mem src dst len iv final).2
  output : load (crypt mem src src len iv final).1 src n =
    load (crypt mem src dst len iv final).1 dst n
  kept : load (crypt mem src src len iv final).1 iv m = load (crypt mem src dst len iv final).1 iv m
  source : load (crypt mem src dst len iv final).1 src n = load mem src n

theorem Computes.inplaceAgrees {f : Step} {m n : ℕ} {crypt : Crypt} (hc : Computes f m crypt)
    (mem : Memory) (src dst len iv : ℕ) (final : Bool) (hn : m * (len / m) = n)
    (hwords : Apart dst n src n) (hsource : Apart src n iv m) (htarget : Apart dst n iv m) :
    InplaceAgrees crypt mem src dst len iv final m n := by
  subst hn
  obtain ⟨hin, hanswer⟩ := hc mem src src len iv final ⟨.inl rfl, hsource, hsource⟩
  obtain ⟨hout, hanswer'⟩ := hc mem src dst len iv final ⟨.inr hwords, hsource, htarget⟩
  refine ⟨hanswer.trans hanswer'.symm, ?_, hin.kept.trans hout.kept.symm, ?_⟩
  · rw [← flatten_words, ← flatten_words, hin.output, hout.output]
  · refine load_congr fun a ha ha' => hout.frame a ?_ ?_ <;> unfold Apart at * <;> omega

/-- **The functions in place agree with those that write elsewhere**, for buffers apart from each other:
in what they answer, in the result and in the value left for the next call; the latter leave the source
as it is. -/
theorem cryptoCbc_inplaceAgrees (c : Cbc) (mem : Memory) (src dst len iv n : ℕ) (final : Bool)
    (hn : c.blocksize * (len / c.blocksize) = n) (hwords : Apart dst n src n)
    (hsource : Apart src n iv c.blocksize) (htarget : Apart dst n iv c.blocksize) :
    InplaceAgrees (cryptoCbcEncrypt c) mem src dst len iv final c.blocksize n ∧
      InplaceAgrees (cryptoCbcDecrypt c) mem src dst len iv final c.blocksize n := by
  constructor
  · exact (computes_cbcEncrypt c).inplaceAgrees mem src dst len iv final hn hwords hsource htarget
  · exact (computes_cbcDecrypt c).inplaceAgrees mem src dst len iv final hn hwords hsource htarget

/-- The instance for a cipher of the TEA family. -/
def TeaAlg.cbc (inKey : List UInt8) (alg : TeaAlg) : Cbc :=
  ⟨alg.cipher inKey, (by decide : isPowerOf2 TEA_BLOCK_SIZE)⟩

theorem cryptoCbc_inplaceAgrees_xtea :
    let c : Cbc := TeaAlg.xtea.cbc []
    let mem : Memory := fun a => UInt8.ofNat a
    InplaceAgrees (cryptoCbcEncrypt c) mem 0 100 20 200 false c.blocksize 16 ∧
      InplaceAgrees (cryptoCbcDecrypt c) mem 0 100 20 200 false c.blocksize 16 :=
  cryptoCbc_inplaceAgrees (TeaAlg.xtea.cbc []) _ 0 100 20 200 16 false rfl (.inr (by decide))
    (.inl (by decide)) (.inl (by decide))

/-! ## Decrypting what was encrypted -/

/-- The modes undo each other. -/
theorem chain_cbcDecrypt_cbcEncrypt (d : Cipher) (hd : d.Inverts) {s : List UInt8}
    {xs : List (List UInt8)} (hs : s.length = d.blocksize)
    (hxs : ∀ x ∈ xs, x.length = d.blocksize) :
    chain d.cbcDecrypt s (chain d.cbcEncrypt s xs).1 = (xs, (chain d.cbcEncrypt s xs).2) := by
  refine chain_chain (I := fun s => s.length = d.blocksize) (P := fun x => x.length = d.blocksize)
    (fun s x hs hx => ?_) hs hxs
  have hlen : (xorBytes s x).length = d.blocksize := length_xorBytes hs hx
  refine ⟨?_, d.length_encrypt _ hlen⟩
  rw [Cipher.cbcDecrypt, Cipher.cbcEncrypt, hd _ hlen, xorBytes_comm s x,
    xorBytes_xorBytes (hx.trans hs.symm)]

/-- **The round trip**: what was encrypted from `src` to `dst`, in place or not, is decrypted to `out`,
in place or not, with the same value to start with in a buffer at `iv'`; the bytes that are no whole
block are left out on both ways. -/
theorem cryptoCbcDecrypt_cryptoCbcEncrypt (c : Cbc) (hc : c.Inverts) (mem : Memory)
    (src dst out iv iv' len : ℕ) (final final' : Bool)
    (hp : Places c.blocksize src dst iv (c.blocksize * (len / c.blocksize)))
    (hp' : Places c.blocksize dst out iv' (c.blocksize * (len / c.blocksize)))
    (hiv : Apart iv c.blocksize iv' c.blocksize)
    (hsame : load mem iv' c.blocksize = load mem iv c.blocksize) :
    load (cryptoCbcDecrypt c (cryptoCbcEncrypt c mem src dst len iv final).1 dst out len iv'
        final').1 out (c.blocksize * (len / c.blocksize)) =
      load mem src (c.blocksize * (len / c.blocksize)) := by
  obtain ⟨henc, -⟩ := cryptoCbcEncrypt_chained c mem src dst len iv final hp
  generalize (cryptoCbcEncrypt c mem src dst len iv final).1 = mem' at *
  obtain ⟨hdec, -⟩ := cryptoCbcDecrypt_chained c mem' dst out len iv' final' hp'
  have hstart : load mem' iv' c.blocksize = load mem iv c.blocksize := by
    have htarget := hp'.source
    rw [← hsame]
    refine load_congr fun a ha ha' => henc.frame a ?_ ?_ <;> unfold Apart at * <;> omega
  rw [← flatten_words, ← flatten_words, hdec.output, hstart, henc.output,
    chain_cbcDecrypt_cbcEncrypt c.toCipher hc (length_load ..) fun x hx => length_of_mem_words hx]

theorem cryptoCbcDecrypt_cryptoCbcEncrypt_tea :
    let c : Cbc := TeaAlg.tea.cbc []
    let mem : Memory := fun a => if a < 20 then UInt8.ofNat a else 0
    load (cryptoCbcDecrypt c (cryptoCbcEncrypt c mem 0 0 20 200 true).1 0 100 20 300 true).1 100
      (c.blocksize * (20 / c.blocksize)) = load mem 0 (c.blocksize * (20 / c.blocksize)) :=
  cryptoCbcDecrypt_cryptoCbcEncrypt (TeaAlg.tea.cbc []) (TeaAlg.tea.inverts_cipher []) _ 0 0 100 200
    300 20 true true ⟨.inl rfl, .inl (by decide), .inl (by decide)⟩
    ⟨.inr (.inr (by decide)), .inl (by decide), .inl (by decide)⟩ (.inl (by decide)) rfl

end KernelCrypto

end Server6
