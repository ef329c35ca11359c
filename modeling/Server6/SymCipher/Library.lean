import Server6.SymCipher.Runtime

/-!
# The cipher libraries

The block ciphers, their modes and their padding come from two libraries outside the repository.
`Library` takes them as arbitrary functions of the key material: what an initialised cipher answers
depends on the cipher, the direction, the parameters and the data, and on nothing else.

`ZeroPadded` is what their documentation says of zero-padded ECB under one key: a key accepted for
encryption encrypts every non-empty input, and decryption returns that input and zero bytes. ECB has no
initial vector, so that the ciphers of .NET, which the code uses in ECB only, are functions of the key.
-/

namespace Server6

/-- The block ciphers of the library; `other` stands for any further implementation of
`IBlockCipher`. -/
inductive Engine
  | aes | aesLight | twofish | serpent | camelliaLight | cast5 | cast6 | gost28147 | idea
  | noekeon | rc2 | rc532 | rc6 | seed | skipjack | tea | tnepres | xtea
  | other (n : ℕ)
  deriving DecidableEq, Repr

/-- The implementation of `IBlockCipherPadding` the code uses. -/
inductive BlockCipherPadding
  | zeroBytePadding
  deriving DecidableEq, Repr

/-- The modes of operation a block cipher is wrapped in. -/
inductive BlockMode
  | cbc | ecb | cfb (size : Int) | ccm | cts | eax | gofb
  deriving DecidableEq, Repr

/-- A `PaddedBufferedBlockCipher` that is not initialised yet. -/
structure BufferedCipher where
  engine : Engine
  mode : BlockMode
  padding : Option BlockCipherPadding
  deriving DecidableEq, Repr

/-- A `KeyParameter`, or `ParametersWithIV` around one. -/
structure CipherParameters where
  key : Bytes
  iv : Option Bytes
  deriving DecidableEq, Repr

theorem CipherParameters.key_ne {q q' : CipherParameters} (hq : q.iv = none) (hq' : q'.iv = none)
    (h : q ≠ q') : q.key ≠ q'.key := by
  obtain ⟨key, iv⟩ := q
  obtain ⟨key', iv'⟩ := q'
  rintro rfl
  exact h (congrArg _ (hq.trans hq'.symm))

/-- A cipher after `Init(forEncryption, parameters)`. -/
structure InitCipher where
  cipher : BufferedCipher
  forEncryption : Bool
  parameters : CipherParameters
  deriving DecidableEq, Repr

/-- The two cipher libraries. -/
structure Library where
  /-- Whether `Init` throws. -/
  init : InitCipher → Except Exn Unit
  /-- The output array of `GetOutputSize` bytes after `ProcessBytes` and `DoFinal`. -/
  doFinal : InitCipher → Bytes → Except Exn Bytes
  /-- `ProcessBytes(data, 0, data.Length)` after these have thrown; it may return null. -/
  processBytes : InitCipher → Bytes → Except Exn (Option Bytes)
  /-- `ProcessBytes(data)` after that has thrown. -/
  processBytesAgain : InitCipher → Bytes → Except Exn (Option Bytes)
  /-- `TransformFinalBlock` of an encryptor or decryptor of `RijndaelManaged` in ECB, which reads no
  initial vector. -/
  rijndaelManaged : Bool → Bytes → Bytes → Except Exn Bytes
  /-- The `Key` setter of `TripleDESCryptoServiceProvider`, which rejects weak keys. -/
  tripleDesKey : Bytes → Except Exn Unit
  /-- `TransformFinalBlock` of an encryptor or decryptor of `TripleDESCryptoServiceProvider` in
  ECB. -/
  tripleDes : Bool → Bytes → Bytes → Except Exn Bytes

/-- A byte array the callee dereferences. -/
def deref (data : Option Bytes) : Except Exn Bytes :=
  match data with
  | none => .error .nullReference
  | some bs => .ok bs

/-- The check for a null or empty array. -/
def nonEmpty (data : Option Bytes) : Except Exn Bytes :=
  match data with
  | none | some [] => .error .argumentNull
  | some bs => .ok bs

theorem nonEmpty_some {bs : Bytes} (h : bs ≠ []) : nonEmpty (some bs) = .ok bs := by
  cases bs with
  | nil => exact absurd rfl h
  | cons b bs => rfl

namespace Library

variable (L : Library)

/-- Initialise the cipher and run it over the data. -/
def finish (q : InitCipher) (data : Option Bytes) : Except Exn (Option Bytes) := do
  L.init q
  let bs ← deref data
  let out ← L.doFinal q bs
  return some out

/-- The same, with the two nested `catch` blocks that try `ProcessBytes` alone. -/
def finishOrProcess (q : InitCipher) (data : Option Bytes) : Except Exn (Option Bytes) := do
  L.init q
  let bs ← deref data
  match L.doFinal q bs with
  | .ok out => return some out
  | .error _ =>
    match L.processBytes q bs with
    | .ok out => return out
    | .error _ => L.processBytesAgain q bs

/-- What zero-padded ECB promises under one key. The cipher text of Triple-DES is as many blocks of
eight bytes as hold the plain text. -/
structure ZeroPadded : Prop where
  buffered : ∀ (e : Engine) (d : Option BlockCipherPadding) (key p : Bytes),
    p ≠ [] → L.init ⟨⟨e, .ecb, d⟩, true, ⟨key, none⟩⟩ = .ok () →
      ∃ c, L.doFinal ⟨⟨e, .ecb, d⟩, true, ⟨key, none⟩⟩ p = .ok c ∧ c ≠ [] ∧
        L.init ⟨⟨e, .ecb, d⟩, false, ⟨key, none⟩⟩ = .ok () ∧
        ∃ n, L.doFinal ⟨⟨e, .ecb, d⟩, false, ⟨key, none⟩⟩ c = .ok (p ++ List.replicate n 0)
  rijndaelManaged : ∀ key p c : Bytes, p ≠ [] → L.rijndaelManaged true key p = .ok c →
    c ≠ [] ∧ ∃ n, L.rijndaelManaged false key c = .ok (p ++ List.replicate n 0)
  tripleDes : ∀ key p c : Bytes, p ≠ [] → L.tripleDes true key p = .ok c →
    c.length = 8 * ((p.length + 7) / 8) ∧
      ∃ n, L.tripleDes false key c = .ok (p ++ List.replicate n 0)

variable {L}

/-- A decrypted array that `DoFinal` returns is what both ways of decrypting return. -/
theorem finish_of_doFinal {c : InitCipher} {bs out : Bytes} (hi : L.init c = .ok ())
    (ho : L.doFinal c bs = .ok out) : L.finish c (some bs) = .ok (some out) := by
  rw [finish, hi, ok_bind, deref, ok_bind, ho]
  rfl

theorem finishOrProcess_of_doFinal {c : InitCipher} {bs out : Bytes} (hi : L.init c = .ok ())
    (ho : L.doFinal c bs = .ok out) : L.finishOrProcess c (some bs) = .ok (some out) := by
  rw [finishOrProcess, hi, ok_bind, deref, ok_bind, ho]
  rfl

namespace ZeroPadded

variable {e : Engine} {d : Option BlockCipherPadding} {key p : Bytes} {c : Option Bytes}

/-- What can be decrypted of an encryption by `ProcessBytes` and `DoFinal`. -/
theorem doFinal_of_finish (h : L.ZeroPadded) (hp : p ≠ [])
    (hc : L.finish ⟨⟨e, .ecb, d⟩, true, ⟨key, none⟩⟩ (some p) = .ok c) :
    ∃ bs n, c = some bs ∧ L.init ⟨⟨e, .ecb, d⟩, false, ⟨key, none⟩⟩ = .ok () ∧
      L.doFinal ⟨⟨e, .ecb, d⟩, false, ⟨key, none⟩⟩ bs = .ok (p ++ List.replicate n 0) := by
  cases hi : L.init ⟨⟨e, .ecb, d⟩, true, ⟨key, none⟩⟩ with
  | error x =>
    rw [finish, hi, error_bind] at hc
    cases hc
  | ok u =>
    obtain ⟨bs, hbs, -, hinit, n, hn⟩ := h.buffered e d key p hp hi
    rw [finish_of_doFinal hi hbs, Except.ok.injEq] at hc
    exact ⟨bs, n, hc.symm, hinit, hn⟩

/-- An encryption never comes to the `catch` blocks. -/
theorem finishOrProcess_eq_finish (h : L.ZeroPadded) (hp : p ≠ []) :
    L.finishOrProcess ⟨⟨e, .ecb, d⟩, true, ⟨key, none⟩⟩ (some p) =
      L.finish ⟨⟨e, .ecb, d⟩, true, ⟨key, none⟩⟩ (some p) := by
  cases hi : L.init ⟨⟨e, .ecb, d⟩, true, ⟨key, none⟩⟩ with
  | error x => rw [finish, finishOrProcess, hi, error_bind, error_bind]
  | ok u =>
    obtain ⟨bs, hbs, -⟩ := h.buffered e d key p hp hi
    rw [finish_of_doFinal hi hbs, finishOrProcess_of_doFinal hi hbs]

end ZeroPadded

end Library

end Server6
