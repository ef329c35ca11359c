import Server6.Foundations.Int32
import Server6.SymCipher.CryptHelper
import Server6.SymCipher.Library

/-!
# The static cipher classes

`Des3`, `Fish2`, `Fish3`, `Rijndael` and `Serpent` are static classes of one shape: the key and the
initial vector of the last keying call, with the secret key it was given. `Scheme` is what one of
them derives, `Scheme.genWithKey` the keying method they share, and each class below is its own
scheme with its own `Encrypt` and `Decrypt`. `Aes` keys a `RijndaelManaged` object and has a method
of its own.

* `Scheme.derived` is the key material of a secret key and a user hash, or the exception their
  derivation throws.
* `run_genWithKey_ok`, `run_genWithKey_error` and `run_genWithKey_false` are what a keying call
  leaves: with `init` it installs the derived material, and without it nothing changes.
-/

namespace Server6

open Method

/-- An array of exactly `n` bytes. -/
abbrev Key (n : ℕ) := Vector UInt8 n

/-- `Array.Copy(source, new byte[n], n)`. -/
def copyArray (source : Bytes) (n : ℕ) : Except Exn (Key n) :=
  if h : n ≤ source.length then .ok ⟨(source.take n).toArray, by simp [h]⟩
  else .error .argument

/-- The static fields of a cipher class that its calls change. -/
structure KeyStore (keyLen ivLen : ℕ) where
  privateKey : Utf16
  userHash : NString
  key : Key keyLen
  iv : Key ivLen

/-- What a static cipher class derives its key and its initial vector from: the resources, or a
secret key and a user hash. -/
structure Scheme (keyLen ivLen : ℕ) where
  builtIn : Runtime → Except Exn (Bytes × Bytes)
  derive : Runtime → NString → NString → Except Exn (Bytes × Bytes)

namespace Scheme

variable {keyLen ivLen : ℕ} (S : Scheme keyLen ivLen) (R : Runtime)

/-- The static constructor. -/
def start : Except Exn (KeyStore keyLen ivLen) := do
  let kv ← S.builtIn R
  let iv ← copyArray kv.2 ivLen
  let key ← copyArray kv.1 keyLen
  return { privateKey := [], userHash := some [], key := key, iv := iv }

/-- The first half of a keying call with `init`: it keeps the caller's strings and derives bytes. -/
def keep (secretKey usrHash : NString) : Method Exn (KeyStore keyLen ivLen) (Bytes × Bytes) :=
  if isNullOrEmpty secretKey then do
    modify fun s => { s with privateKey := [] }
    S.builtIn R
  else do
    modify fun s => { s with privateKey := orEmpty secretKey, userHash := usrHash }
    S.derive R secretKey usrHash

/-- The second half: the bytes are copied into new arrays. -/
def install (kv : Bytes × Bytes) : Method Exn (KeyStore keyLen ivLen) Unit := do
  modify fun s => { s with key := Vector.replicate keyLen 0, iv := Vector.replicate ivLen 0 }
  let key ← copyArray kv.1 keyLen
  modify fun s => { s with key := key }
  let iv ← copyArray kv.2 ivLen
  modify fun s => { s with iv := iv }

/-- The keying method: `Des3FromKey`, `Fish2GenWithKey`, `Fish3GenWithKey`, `RijndaelGenWithKey` and
`SerpentGenWithKey`. -/
def genWithKey (secretKey usrHash : NString) (init : Bool) :
    Method Exn (KeyStore keyLen ivLen) Bool := do
  let privateKey ← gets KeyStore.privateKey
  if !init && R.differs privateKey secretKey then return false
  else if init then do
    let kv ← S.keep R secretKey usrHash
    install kv
    return true
  else return true

/-- The bytes a secret key and a user hash give, before they are copied. -/
def material (secretKey usrHash : NString) : Except Exn (Bytes × Bytes) :=
  if isNullOrEmpty secretKey then S.builtIn R else S.derive R secretKey usrHash

/-- The key and the initial vector a secret key and a user hash give. -/
def derived (secretKey usrHash : NString) : Except Exn (Key keyLen × Key ivLen) := do
  let kv ← S.material R secretKey usrHash
  let key ← copyArray kv.1 keyLen
  let iv ← copyArray kv.2 ivLen
  return (key, iv)

end Scheme

/-! ## The classes -/

/-- The cipher that `Fish2`, `Fish3`, `Rijndael` and `Serpent` build for their `Mode`. -/
def paddedCipher (engine : Engine) (mode : Utf16) (size : Int)
    (padding : Option BlockCipherPadding) : BufferedCipher :=
  if mode = .ofString "ECB" then ⟨engine, .ecb, padding⟩
  else if mode = .ofString "CFB" then ⟨engine, .cfb size, padding⟩
  else ⟨engine, .cbc, padding⟩

/-- The parameters `Fish2`, `Fish3` and `Rijndael` initialise it with: in ECB the key alone. -/
def modeParameters (mode : Utf16) (key iv : Bytes) : CipherParameters :=
  if mode = .ofString "ECB" then ⟨key, none⟩ else ⟨key, some iv⟩

namespace Des3

def keyLen : ℕ := 24
def ivLen : ℕ := 8

def scheme : Scheme keyLen ivLen where
  builtIn R := do
    let key ← R.resourceBytes Constants.DES3_KEY
    let iv ← R.resourceBytes Constants.DES3_IV
    return (key, iv)
  derive R secretKey userHash := do
    let key ← CryptHelper.getUserKeyBytes R secretKey userHash 24
    let iv ← CryptHelper.getUserKeyBytes R secretKey userHash 8
    return (key, iv)

/-- `Des3FromKey`. -/
def des3FromKey (R : Runtime) := scheme.genWithKey R

/-- The `IV` is set as well, and not read in ECB. -/
def encrypt (L : Library) (s : KeyStore keyLen ivLen) (inBytes : Option Bytes) :
    Except Exn (Option Bytes) := do
  L.tripleDesKey s.key.toList
  let bs ← deref inBytes
  let out ← L.tripleDes true s.key.toList bs
  return some out

/-- The size of `toDecryptArray`: twice the length, in an `int`. -/
def toDecryptSize (cipherBytes : Bytes) : Int32 := Int32.ofNat cipherBytes.length * 2

/-- Nothing reads the array that is allocated first, but the allocation may throw. -/
def decrypt (L : Library) (s : KeyStore keyLen ivLen) (cipherBytes : Option Bytes) :
    Except Exn (Option Bytes) := do
  let bs ← nonEmpty cipherBytes
  L.tripleDesKey s.key.toList
  let _toDecryptArray ← newArray (toDecryptSize bs).toInt
  let out ← L.tripleDes false s.key.toList bs
  return some out

end Des3

namespace Fish2

def size : Int := 256
def mode : Utf16 := .ofString "ECB"

def scheme : Scheme 32 32 where
  builtIn R := do
    let key ← R.resourceBytes Constants.BOUNCEK
    let iv ← R.resourceBytes Constants.BOUNCE4
    return (key, iv)
  derive R secretKey userHash := do
    let key ← CryptHelper.getUserKeyBytes R secretKey userHash 32
    let iv ← CryptHelper.getUserKeyBytes R userHash secretKey 32
    return (key, iv)

/-- `Fish2GenWithKey`. -/
def fish2GenWithKey (R : Runtime) := scheme.genWithKey R

def initCipher (s : KeyStore 32 32) (forEncryption : Bool) : InitCipher :=
  ⟨paddedCipher .twofish mode size (some .zeroBytePadding), forEncryption,
    modeParameters mode s.key.toList s.iv.toList⟩

def encrypt (L : Library) (s : KeyStore 32 32) (plainData : Option Bytes) :=
  L.finish (initCipher s true) plainData

def decrypt (L : Library) (s : KeyStore 32 32) (cipherData : Option Bytes) :=
  L.finish (initCipher s false) cipherData

end Fish2

namespace Fish3

def size : Int := 256
def mode : Utf16 := .ofString "ECB"

def scheme : Scheme 32 32 where
  builtIn R := do
    let bounceK := some (R.getValue Constants.BOUNCEK)
    let bounce4 := some (R.getValue Constants.BOUNCE4)
    let key ← CryptHelper.getUserKeyBytes R bounceK bounce4 32
    let iv ← CryptHelper.getUserKeyBytes R bounce4 bounceK 32
    return (key, iv)
  derive R secretKey userHash := do
    let key ← CryptHelper.getUserKeyBytes R secretKey userHash 32
    let iv ← CryptHelper.getUserKeyBytes R userHash secretKey 32
    return (key, iv)

/-- `Fish3GenWithKey`. -/
def fish3GenWithKey (R : Runtime) := scheme.genWithKey R

def initCipher (s : KeyStore 32 32) (forEncryption : Bool) : InitCipher :=
  ⟨paddedCipher .twofish mode size (some .zeroBytePadding), forEncryption,
    modeParameters mode s.key.toList s.iv.toList⟩

def encrypt (L : Library) (s : KeyStore 32 32) (plainData : Option Bytes) :=
  L.finish (initCipher s true) plainData

def decrypt (L : Library) (s : KeyStore 32 32) (cipherData : Option Bytes) :=
  L.finish (initCipher s false) cipherData

end Fish3

namespace Rijndael

def size : Int := 256
def mode : Utf16 := .ofString "ECB"

def scheme : Scheme 32 16 where
  builtIn R := do
    let key ← R.resourceBytes Constants.AES_KEY
    let iv ← R.resourceBytes Constants.AES_IV
    return (key, iv)
  derive R secretKey userHash := do
    let key ← CryptHelper.getUserKeyBytes R secretKey userHash 32
    let iv ← CryptHelper.getUserKeyBytes R userHash secretKey 16
    return (key, iv)

/-- `RijndaelGenWithKey`. -/
def rijndaelGenWithKey (R : Runtime) := scheme.genWithKey R

def initCipher (s : KeyStore 32 16) (forEncryption : Bool) : InitCipher :=
  ⟨paddedCipher .aesLight mode size (some .zeroBytePadding), forEncryption,
    modeParameters mode s.key.toList s.iv.toList⟩

def encrypt (L : Library) (s : KeyStore 32 16) (plainData : Option Bytes) :=
  L.finish (initCipher s true) plainData

def decrypt (L : Library) (s : KeyStore 32 16) (cipherData : Option Bytes) :=
  L.finish (initCipher s false) cipherData

end Rijndael

namespace Serpent

def size : Int := 128
def mode : Utf16 := .ofString "ECB"

def scheme : Scheme 16 16 where
  builtIn R := do
    let key ← R.resourceBytes Constants.BOUNCEK
    let iv ← R.resourceBytes Constants.BOUNCE4
    return (key, iv)
  derive R secretKey userHash := do
    let key ← CryptHelper.getUserKeyBytes R secretKey userHash 16
    let iv ← CryptHelper.getUserKeyBytes R userHash secretKey 16
    return (key, iv)

/-- `SerpentGenWithKey`. -/
def serpentGenWithKey (R : Runtime) := scheme.genWithKey R

/-- `Serpent` initialises its cipher with the key alone in every mode. -/
def initCipher (s : KeyStore 16 16) (forEncryption : Bool) : InitCipher :=
  ⟨paddedCipher .serpent mode size (some .zeroBytePadding), forEncryption, ⟨s.key.toList, none⟩⟩

def encrypt (L : Library) (s : KeyStore 16 16) (plainData : Option Bytes) :=
  L.finishOrProcess (initCipher s true) plainData

def decrypt (L : Library) (s : KeyStore 16 16) (cipherData : Option Bytes) :=
  L.finishOrProcess (initCipher s false) cipherData

end Serpent

/-- The static fields of `Aes`; `algoKey` and `algoIv` are those of its `RijndaelManaged`. -/
structure Aes where
  privateKey : Utf16
  aesKey : Key 32
  aesIv : Key 16
  algoKey : Key 32
  algoIv : Key 16

namespace Aes

def scheme : Scheme 32 16 where
  builtIn R := do
    let key ← R.resourceBytes Constants.AES_KEY
    let iv ← R.resourceBytes Constants.AES_IV
    return (key, iv)
  derive R secretKey userHash := do
    let key ← CryptHelper.getUserKeyBytes R secretKey userHash 32
    let iv ← CryptHelper.getUserKeyBytes R secretKey userHash 16
    return (key, iv)

/-- The static constructor. -/
def start (R : Runtime) : Except Exn Aes := do
  let kv ← scheme.builtIn R
  let aesKey ← copyArray kv.1 32
  let aesIv ← copyArray kv.2 16
  return { privateKey := [], aesKey := aesKey, aesIv := aesIv, algoKey := aesKey, algoIv := aesIv }

/-- The first half of a keying call with `init`: no user hash is kept. -/
def keep (R : Runtime) (secretKey userHash : NString) : Method Exn Aes (Bytes × Bytes) :=
  if isNullOrEmpty secretKey then do
    modify fun s => { s with privateKey := [] }
    scheme.builtIn R
  else do
    modify fun s => { s with privateKey := orEmpty secretKey }
    scheme.derive R secretKey userHash

/-- The second half. -/
def install (kv : Bytes × Bytes) : Method Exn Aes Unit := do
  modify fun s => { s with aesKey := Vector.replicate 32 0, aesIv := Vector.replicate 16 0 }
  let key ← copyArray kv.1 32
  modify fun s => { s with aesKey := key }
  let iv ← copyArray kv.2 16
  modify fun s => { s with aesIv := iv }

/-- `AesGenWithNewKey`. -/
def aesGenWithNewKey (R : Runtime) (secretKey userHash : NString) (init : Bool) :
    Method Exn Aes Bool := do
  let privateKey ← gets privateKey
  if !init && R.differs privateKey secretKey then return false
  else do
    if init then do
      let kv ← keep R secretKey userHash
      install kv
    modify fun s => { s with algoKey := s.aesKey }
    modify fun s => { s with algoIv := s.aesIv }
    return true

/-- `CreateEncryptor` is given the `IV` as well, and does not read it in ECB. -/
def encrypt (L : Library) (s : Aes) (plainData : Option Bytes) : Except Exn (Option Bytes) := do
  let bs ← nonEmpty plainData
  let out ← L.rijndaelManaged true s.algoKey.toList bs
  return some out

def decrypt (L : Library) (s : Aes) (encryptedBytes : Option Bytes) :
    Except Exn (Option Bytes) := do
  let bs ← nonEmpty encryptedBytes
  let out ← L.rijndaelManaged false s.algoKey.toList bs
  return some out

end Aes

/-! ## The array that `Des3` allocates -/

namespace Des3

/-- Half the limit of an array can be doubled. -/
theorem newArray_of_double_le {bs : Bytes} (h : 2 * bs.length ≤ maxLength) :
    newArray (toDecryptSize bs).toInt = .ok (List.replicate (2 * bs.length) 0) := by
  unfold maxLength at h
  have hsize : toDecryptSize bs = Int32.ofNat (2 * bs.length) := by
    rw [toDecryptSize, Nat.mul_comm, Int32.ofNat_mul]
    rfl
  rw [hsize, Int32.toInt_ofNat_of_lt (by omega), newArray_of_le h]

/-- Beyond it the size is too large, or has become negative. -/
theorem newArray_of_lt_double {bs : Bytes} (h : maxLength < 2 * bs.length)
    (hlen : bs.length < 2 ^ 31) : ∃ e, newArray (toDecryptSize bs).toInt = .error e := by
  have hsize : (toDecryptSize bs).toInt = (2 * (bs.length : Int)).bmod (2 ^ 32) := by
    rw [toDecryptSize, Int32.toInt_mul, Int32.toInt_ofNat_of_lt hlen, Int.mul_comm]
    rfl
  by_cases hsmall : bs.length < 2 ^ 30
  · refine ⟨.outOfMemory, ?_⟩
    rw [hsize, Int.bmod_eq_of_le (by omega) (by omega)]
    exact newArray_of_lt h
  · refine ⟨.overflow, ?_⟩
    have hneg : (2 * (bs.length : Int)).bmod (2 ^ 32) = 2 * bs.length - 2 ^ 32 := by
      rw [← Int.sub_bmod_right, Int.bmod_eq_of_le (by omega) (by omega)]
      rfl
    rw [hsize, hneg, newArray, if_neg (by omega), newBytes, if_pos (by omega)]

end Des3

/-! ## What a keying call leaves -/

theorem copyArray_of_le {source : Bytes} {n : ℕ} (h : n ≤ source.length) :
    copyArray source n = .ok ⟨(source.take n).toArray, List.length_take_of_le h⟩ := by
  rw [copyArray, dif_pos h]

namespace Scheme

variable {keyLen ivLen : ℕ}

/-- The resources can be read, and whatever is derived is long enough to be copied. -/
structure Fits (S : Scheme keyLen ivLen) (R : Runtime) : Prop where
  builtIn : ∃ kv, S.builtIn R = .ok kv
  length_le : ∀ secretKey usrHash kv, S.material R secretKey usrHash = .ok kv →
    keyLen ≤ kv.1.length ∧ ivLen ≤ kv.2.length

variable {S : Scheme keyLen ivLen} {R : Runtime} {secretKey usrHash : NString}

theorem derived_of_material (h : S.Fits R) {kv : Bytes × Bytes}
    (hkv : S.material R secretKey usrHash = .ok kv) :
    ∃ key iv, copyArray kv.1 keyLen = .ok key ∧ copyArray kv.2 ivLen = .ok iv ∧
      S.derived R secretKey usrHash = .ok (key, iv) := by
  obtain ⟨hk, hv⟩ := h.length_le _ _ _ hkv
  refine ⟨_, _, copyArray_of_le hk, copyArray_of_le hv, ?_⟩
  rw [derived, hkv, ok_bind, copyArray_of_le hk, ok_bind, copyArray_of_le hv]
  rfl

theorem derived_of_material_error {e : Exn} (he : S.material R secretKey usrHash = .error e) :
    S.derived R secretKey usrHash = .error e := by
  rw [derived, he, error_bind]

theorem run_keep (S : Scheme keyLen ivLen) (R : Runtime) (secretKey usrHash : NString)
    (s : KeyStore keyLen ivLen) :
    ∃ t : KeyStore keyLen ivLen, t.key = s.key ∧ t.iv = s.iv ∧ t.privateKey = orEmpty secretKey ∧
      (S.keep R secretKey usrHash).run s = (S.material R secretKey usrHash, t) := by
  by_cases h : isNullOrEmpty secretKey = true
  · refine ⟨{ s with privateKey := [] }, rfl, rfl, (orEmpty_of_isNullOrEmpty h).symm, ?_⟩
    simp only [keep, h, if_true, run_bind, run_modify, run_liftM, material]
  · refine ⟨{ s with privateKey := orEmpty secretKey, userHash := usrHash }, rfl, rfl, rfl, ?_⟩
    simp only [keep, h, run_bind, run_modify, run_liftM, material, Bool.false_eq_true, if_false]

theorem run_install {kv : Bytes × Bytes} {key : Key keyLen} {iv : Key ivLen}
    (hk : copyArray kv.1 keyLen = .ok key) (hv : copyArray kv.2 ivLen = .ok iv)
    (s : KeyStore keyLen ivLen) :
    (install kv).run s = (.ok (), { s with key := key, iv := iv }) := by
  simp only [install, run_bind, run_modify, run_liftM, hk, hv]

/-- **Keying with `init`**: the derived key material is installed. -/
theorem run_genWithKey_ok (h : S.Fits R) {kv : Key keyLen × Key ivLen}
    (hkv : S.derived R secretKey usrHash = .ok kv) (s : KeyStore keyLen ivLen) :
    ∃ t, (S.genWithKey R secretKey usrHash true).run s = (.ok true, t) ∧
      t.key = kv.1 ∧ t.iv = kv.2 ∧ t.privateKey = orEmpty secretKey := by
  obtain ⟨t, -, -, hprivateKey, hkeep⟩ := run_keep S R secretKey usrHash s
  cases hm : S.material R secretKey usrHash with
  | error e => simp [derived_of_material_error hm] at hkv
  | ok m =>
    obtain ⟨key, iv, hk, hv, hd⟩ := derived_of_material h hm
    obtain rfl : (key, iv) = kv := Except.ok.inj (hd.symm.trans hkv)
    rw [hm] at hkeep
    refine ⟨{ t with key := key, iv := iv }, ?_, rfl, rfl, hprivateKey⟩
    refine Eq.trans (run_bind_ok (run_gets _ _) _) ?_
    exact (run_bind_ok hkeep _).trans (run_bind_ok (run_install hk hv t) _)

/-- **Keying with `init` when the derivation throws**: the key stays as it was, but the secret key is
remembered. -/
theorem run_genWithKey_error (h : S.Fits R) {e : Exn}
    (he : S.derived R secretKey usrHash = .error e) (s : KeyStore keyLen ivLen) :
    ∃ t, (S.genWithKey R secretKey usrHash true).run s = (.error e, t) ∧
      t.key = s.key ∧ t.iv = s.iv ∧ t.privateKey = orEmpty secretKey := by
  obtain ⟨t, htk, htv, hprivateKey, hkeep⟩ := run_keep S R secretKey usrHash s
  cases hm : S.material R secretKey usrHash with
  | error e' =>
    obtain rfl : e' = e := by
      rw [derived_of_material_error hm, Except.error.injEq] at he
      exact he
    rw [hm] at hkeep
    refine ⟨t, ?_, htk, htv, hprivateKey⟩
    refine Eq.trans (run_bind_ok (run_gets _ _) _) ?_
    exact run_bind_error hkeep _
  | ok m =>
    obtain ⟨key, iv, -, -, hd⟩ := derived_of_material h hm
    simp [hd] at he

/-- Keying without `init` changes nothing, and answers whether the secret key is the remembered
one. -/
theorem run_genWithKey_false (S : Scheme keyLen ivLen) (R : Runtime) (secretKey usrHash : NString)
    (s : KeyStore keyLen ivLen) :
    (S.genWithKey R secretKey usrHash false).run s =
      (.ok (!R.differs s.privateKey secretKey), s) := by
  unfold genWithKey
  rw [run_bind_ok (run_gets _ _)]
  cases R.differs s.privateKey secretKey <;> rfl

/-- The static constructor installs what an empty secret key derives. -/
theorem start_ok (h : S.Fits R) :
    ∃ kv s, S.derived R none none = .ok kv ∧ S.start R = .ok s ∧ s.key = kv.1 ∧ s.iv = kv.2 ∧
      s.privateKey = [] := by
  obtain ⟨m, hm⟩ := h.builtIn
  have hmat : S.material R none none = .ok m := hm
  obtain ⟨key, iv, hk, hv, hd⟩ := derived_of_material h hmat
  refine ⟨(key, iv), ⟨[], some [], key, iv⟩, hd, ?_, rfl, rfl, rfl⟩
  rw [start, hm, ok_bind, hv, ok_bind, hk]
  rfl

/-- Two derivations in a row. -/
theorem pair_eq_ok {x y : Except Exn Bytes} {kv : Bytes × Bytes}
    (h : (do let k ← x; let v ← y; return (k, v)) = Except.ok kv) :
    x = .ok kv.1 ∧ y = .ok kv.2 := by
  rcases x with e | k
  · cases h
  · rcases y with e | v
    · cases h
    · cases h
      exact ⟨rfl, rfl⟩

theorem fits_of_length_le (hb : ∃ kv, S.builtIn R = .ok kv ∧ keyLen ≤ kv.1.length ∧
      ivLen ≤ kv.2.length)
    (hd : ∀ secretKey usrHash kv, S.derive R secretKey usrHash = .ok kv →
      keyLen ≤ kv.1.length ∧ ivLen ≤ kv.2.length) : S.Fits R := by
  obtain ⟨kv, hkv, hlen⟩ := hb
  refine ⟨⟨kv, hkv⟩, fun secretKey usrHash m hm => ?_⟩
  unfold material at hm
  split at hm
  · obtain rfl : kv = m := Except.ok.inj (hkv.symm.trans hm)
    exact hlen
  · exact hd _ _ _ hm

end Scheme

section Deployment

variable (D : Deployment)

/-- Two resources a static constructor reads, with the bytes it copies of them. -/
theorem resources_fit (key iv : Utf16 × ℕ) (hk : key ∈ keyResources) (hv : iv ∈ keyResources) :
    ∃ kv : Bytes × Bytes, (do
        let k ← D.resourceBytes key.1
        let v ← D.resourceBytes iv.1
        return (k, v)) = Except.ok kv ∧ key.2 ≤ kv.1.length ∧ iv.2 ≤ kv.2.length := by
  obtain ⟨k, hk, hklen⟩ := D.resources key hk
  obtain ⟨v, hv, hvlen⟩ := D.resources iv hv
  refine ⟨(k, v), ?_, hklen, hvlen⟩
  rw [hk, hv]
  rfl

/-- Two keys of the lengths they are copied with. -/
theorem userKeys_fit {R : Runtime} {a b c d : NString} {n m : ℕ} {kv : Bytes × Bytes}
    (h : (do
        let k ← CryptHelper.getUserKeyBytes R a b n
        let v ← CryptHelper.getUserKeyBytes R c d m
        return (k, v)) = Except.ok kv) : n ≤ kv.1.length ∧ m ≤ kv.2.length := by
  obtain ⟨hk, hv⟩ := Scheme.pair_eq_ok h
  exact ⟨(CryptHelper.length_of_getUserKeyBytes hk).ge,
    (CryptHelper.length_of_getUserKeyBytes hv).ge⟩

/-- Deriving two keys from strings that are not null never throws. -/
theorem userKeys_ok (R : Runtime) (a c : Utf16) (b d : NString) (n m : ℕ) :
    ∃ kv, (do
        let k ← CryptHelper.getUserKeyBytes R (some a) b n
        let v ← CryptHelper.getUserKeyBytes R (some c) d m
        return (k, v)) = Except.ok kv := by
  rw [CryptHelper.getUserKeyBytes_eq, ok_bind, CryptHelper.getUserKeyBytes_eq, ok_bind]
  exact ⟨_, rfl⟩

theorem Des3.fits : Des3.scheme.Fits D.toRuntime :=
  Scheme.fits_of_length_le
    (resources_fit D (Constants.DES3_KEY, 24) (Constants.DES3_IV, 8)
      (by simp [keyResources]) (by simp [keyResources]))
    fun _ _ _ h => userKeys_fit h

theorem Fish2.fits : Fish2.scheme.Fits D.toRuntime :=
  Scheme.fits_of_length_le
    (resources_fit D (Constants.BOUNCEK, 32) (Constants.BOUNCE4, 32)
      (by simp [keyResources]) (by simp [keyResources]))
    fun _ _ _ h => userKeys_fit h

theorem Fish3.fits (R : Runtime) : Fish3.scheme.Fits R := by
  obtain ⟨kv, hkv⟩ := userKeys_ok R (R.getValue Constants.BOUNCEK) (R.getValue Constants.BOUNCE4)
    (some (R.getValue Constants.BOUNCE4)) (some (R.getValue Constants.BOUNCEK)) 32 32
  have hb : Fish3.scheme.builtIn R = .ok kv := hkv
  exact Scheme.fits_of_length_le ⟨kv, hb, userKeys_fit hkv⟩ fun _ _ _ h => userKeys_fit h

theorem Rijndael.fits : Rijndael.scheme.Fits D.toRuntime :=
  Scheme.fits_of_length_le
    (resources_fit D (Constants.AES_KEY, 32) (Constants.AES_IV, 16)
      (by simp [keyResources]) (by simp [keyResources]))
    fun _ _ _ h => userKeys_fit h

theorem Serpent.fits : Serpent.scheme.Fits D.toRuntime := by
  obtain ⟨kv, hkv, hk, hv⟩ := resources_fit D (Constants.BOUNCEK, 32) (Constants.BOUNCE4, 32)
    (by simp [keyResources]) (by simp [keyResources])
  exact Scheme.fits_of_length_le ⟨kv, hkv, by omega, by omega⟩ fun _ _ _ h => userKeys_fit h

theorem Aes.fits : Aes.scheme.Fits D.toRuntime :=
  Scheme.fits_of_length_le
    (resources_fit D (Constants.AES_KEY, 32) (Constants.AES_IV, 16)
      (by simp [keyResources]) (by simp [keyResources]))
    fun _ _ _ h => userKeys_fit h

end Deployment

namespace Aes

variable {R : Runtime} {secretKey userHash : NString}

/-- The derivation of `Aes` never throws: it needs no user hash. -/
theorem exists_derived (h : scheme.Fits R) (secretKey userHash : NString) :
    ∃ kv, scheme.derived R secretKey userHash = .ok kv := by
  have hmaterial : ∃ m, scheme.material R secretKey userHash = .ok m := by
    rcases secretKey with _ | s
    · exact h.builtIn
    · by_cases hs : s = []
      · subst hs
        exact h.builtIn
      · obtain ⟨m, hm⟩ := userKeys_ok R s s userHash userHash 32 16
        refine ⟨m, ?_⟩
        rw [Scheme.material, if_neg (by simpa using hs)]
        exact hm
  obtain ⟨m, hm⟩ := hmaterial
  obtain ⟨key, iv, -, -, hd⟩ := Scheme.derived_of_material h hm
  exact ⟨_, hd⟩

/-- The `RijndaelManaged` object holds the key of the class. -/
structure Synced (s : Aes) : Prop where
  algoKey : s.algoKey = s.aesKey
  algoIv : s.algoIv = s.aesIv

theorem run_keep (R : Runtime) (secretKey userHash : NString) (s : Aes) :
    (keep R secretKey userHash).run s =
      (scheme.material R secretKey userHash, { s with privateKey := orEmpty secretKey }) := by
  by_cases h : isNullOrEmpty secretKey = true
  · simp only [keep, h, if_true, run_bind, run_modify, run_liftM, Scheme.material,
      orEmpty_of_isNullOrEmpty h]
  · simp only [keep, h, run_bind, run_modify, run_liftM, Scheme.material, Bool.false_eq_true,
      if_false]

theorem run_install {kv : Bytes × Bytes} {key : Key 32} {iv : Key 16}
    (hk : copyArray kv.1 32 = .ok key) (hv : copyArray kv.2 16 = .ok iv) (s : Aes) :
    (install kv).run s = (.ok (), { s with aesKey := key, aesIv := iv }) := by
  simp only [install, run_bind, run_modify, run_liftM, hk, hv]

/-- **Keying with `init`**: both the class and its `RijndaelManaged` get the derived material. -/
theorem run_aesGenWithNewKey_ok (h : scheme.Fits R) {kv : Key 32 × Key 16}
    (hkv : scheme.derived R secretKey userHash = .ok kv) (s : Aes) :
    (aesGenWithNewKey R secretKey userHash true).run s =
      (.ok true, ⟨orEmpty secretKey, kv.1, kv.2, kv.1, kv.2⟩) := by
  have hkeep := run_keep R secretKey userHash s
  cases hm : scheme.material R secretKey userHash with
  | error e => simp [Scheme.derived_of_material_error hm] at hkv
  | ok m =>
    obtain ⟨key, iv, hk, hv, hd⟩ := Scheme.derived_of_material h hm
    obtain rfl : (key, iv) = kv := Except.ok.inj (hd.symm.trans hkv)
    rw [hm] at hkeep
    simp only [aesGenWithNewKey, run_bind, run_gets, Bool.not_true, Bool.false_and,
      Bool.false_eq_true, if_false, if_true, hkeep, run_install hk hv, run_modify, run_pure]

/-- **Keying with `init` when the derivation throws**: the keys stay as they were. -/
theorem run_aesGenWithNewKey_error (h : scheme.Fits R) {e : Exn}
    (he : scheme.derived R secretKey userHash = .error e) (s : Aes) :
    (aesGenWithNewKey R secretKey userHash true).run s =
      (.error e, { s with privateKey := orEmpty secretKey }) := by
  have hkeep := run_keep R secretKey userHash s
  cases hm : scheme.material R secretKey userHash with
  | error e' =>
    obtain rfl : e' = e := by
      rw [Scheme.derived_of_material_error hm, Except.error.injEq] at he
      exact he
    rw [hm] at hkeep
    simp only [aesGenWithNewKey, run_bind, run_gets, Bool.not_true, Bool.false_and,
      Bool.false_eq_true, if_false, if_true, hkeep]
  | ok m =>
    obtain ⟨key, iv, -, -, hd⟩ := Scheme.derived_of_material h hm
    simp [hd] at he

/-- Keying without `init` hands the key to the object once more. -/
theorem run_aesGenWithNewKey_false (R : Runtime) (secretKey userHash : NString) {s : Aes}
    (hs : s.Synced) :
    (aesGenWithNewKey R secretKey userHash false).run s =
      (.ok (!R.differs s.privateKey secretKey), s) := by
  obtain ⟨privateKey, aesKey, aesIv, algoKey, algoIv⟩ := s
  obtain ⟨hkey, hiv⟩ := hs
  simp only at hkey hiv
  subst hkey hiv
  unfold aesGenWithNewKey
  rw [run_bind_ok (run_gets _ _)]
  cases R.differs privateKey secretKey <;> rfl

/-- The static constructor installs what an empty secret key derives. -/
theorem start_ok (h : scheme.Fits R) :
    ∃ kv s, scheme.derived R none none = .ok kv ∧ start R = .ok s ∧ s.Synced ∧
      s.algoKey = kv.1 ∧ s.algoIv = kv.2 ∧ s.privateKey = [] := by
  obtain ⟨m, hm⟩ := h.builtIn
  have hmat : scheme.material R none none = .ok m := hm
  obtain ⟨key, iv, hk, hv, hd⟩ := Scheme.derived_of_material h hmat
  refine ⟨(key, iv), ⟨[], key, iv, key, iv⟩, hd, ?_, ⟨rfl, rfl⟩, rfl, rfl, rfl⟩
  rw [start, hm, ok_bind, hk, ok_bind, hv]
  rfl

end Aes

end Server6
