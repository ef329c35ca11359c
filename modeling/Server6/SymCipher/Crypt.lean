import Server6.SymCipher.BounceCastle
import Server6.SymCipher.StaticCiphers
import Server6.SymCipher.ZenMatrixRoundTrip

/-!
# The dispatcher

`Crypt.EncryptBytes` and `Crypt.DecryptBytes` choose a cipher by its name. Seven names belong to
static classes, whose keys stay in the process between the calls; fourteen are block ciphers for
which every call makes a `CryptBounceCastle` of its own; any other name returns the input.

The state of a process is the fields of the seven classes (`Process`). Its key material, class by
class, is `StaticClass.parameters`; encryption and decryption under given key material are
`encryptUnder` and `decryptUnder`. A keying call replaces the material of its own class and of no
other (`run_genWithKey_ok`), or none at all (`run_genWithKey_error`, `run_genWithKey_false`); for
the five classes of one shape this is proved once, from what they have in common (`SchemeClass`).
-/

namespace Server6

open Method

/-- The static classes the dispatcher keys. -/
inductive StaticClass
  | fish2 | fish3 | des3 | aes | rijndael | serpent | zenMatrix
  deriving DecidableEq, Repr

/-- The branches of the dispatcher. -/
inductive Arm
  | static (cls : StaticClass)
  | bounceCastle
  deriving DecidableEq, Repr

/-- The names that are handed to `CryptHelper.GetBlockCipher`. -/
def blockCipherNames : List Utf16 :=
  ["Camellia", "Cast5", "Cast6", "Gost28147", "Idea", "Noekeon", "RC2", "RC532", "RC6", "Seed",
    "Skipjack", "Tea", "Tnepres", "XTea"].map Utf16.ofString

/-- The branch of an algorithm name; an unknown name has none. -/
def Arm.ofName (algo : NString) : Option Arm :=
  if algo = some (.ofString "2FISH") then some (.static .fish2)
  else if algo = some (.ofString "3FISH") then some (.static .fish3)
  else if algo = some (.ofString "3DES") then some (.static .des3)
  else if algo = some (.ofString "AES") then some (.static .aes)
  else if algo = some (.ofString "Rijndael") then some (.static .rijndael)
  else if algo = some (.ofString "Serpent") then some (.static .serpent)
  else if algo = some (.ofString "ZenMatrix") then some (.static .zenMatrix)
  else if algo ∈ blockCipherNames.map some then some .bounceCastle
  else none

/-- The cases of `CryptHelper.GetBlockCipher`: engine, block size and key length of a name. -/
def CryptHelper.blockCiphers : List (Utf16 × Engine × ℕ × ℕ) :=
  [(.ofString "Camellia", .camelliaLight, 128, 16),
    (.ofString "Cast5", .cast5, 128, 16),
    (.ofString "Cast6", .cast6, 256, 32),
    (.ofString "Gost28147", .gost28147, 256, 32),
    (.ofString "Idea", .idea, 256, 32),
    (.ofString "Noekeon", .noekeon, 128, 16),
    (.ofString "RC2", .rc2, 128, 32),
    (.ofString "RC532", .rc532, 256, 32),
    (.ofString "RC6", .rc6, 256, 32),
    (.ofString "Seed", .seed, 128, 16),
    (.ofString "Skipjack", .skipjack, 256, 32),
    (.ofString "Tea", .tea, 128, 16),
    (.ofString "Tnepres", .tnepres, 128, 16),
    (.ofString "XTea", .xtea, 256, 32)]

/-- `CryptHelper.GetBlockCipher`: the engine, with the block size and the key length it writes,
whatever these held. The mode it writes is always `ECB`. -/
def CryptHelper.getBlockCipher (requestedAlgorithm : NString) : Engine × ℕ × ℕ :=
  match CryptHelper.blockCiphers.find? fun r => some r.1 = requestedAlgorithm with
  | some r => r.2
  | none => (.aes, 256, 32)

/-- The static fields of the seven classes. -/
structure Process where
  fish2 : KeyStore 32 32
  fish3 : KeyStore 32 32
  des3 : KeyStore Des3.keyLen Des3.ivLen
  aes : Aes
  rijndael : KeyStore 32 16
  serpent : KeyStore 16 16
  zenMatrix : ZenMatrix

/-- The static constructors, all of which read only the resources. -/
def Process.start (R : Runtime) : Except Exn Process := do
  let fish2 ← Fish2.scheme.start R
  let fish3 ← Fish3.scheme.start R
  let des3 ← Des3.scheme.start R
  let aes ← Aes.start R
  let rijndael ← Rijndael.scheme.start R
  let serpent ← Serpent.scheme.start R
  return { fish2, fish3, des3, aes, rijndael, serpent, zenMatrix := ZenMatrix.initial }

namespace StaticClass

/-- The keying method of the class. -/
def genWithKey (R : Runtime) (cls : StaticClass) (secretKey keyIv : NString) (init : Bool) :
    Method Exn Process Bool :=
  match cls with
  | .fish2 => (Fish2.fish2GenWithKey R secretKey keyIv init).on Process.fish2
      fun p s => { p with fish2 := s }
  | .fish3 => (Fish3.fish3GenWithKey R secretKey keyIv init).on Process.fish3
      fun p s => { p with fish3 := s }
  | .des3 => (Des3.des3FromKey R secretKey keyIv init).on Process.des3
      fun p s => { p with des3 := s }
  | .aes => (Aes.aesGenWithNewKey R secretKey keyIv init).on Process.aes
      fun p s => { p with aes := s }
  | .rijndael => (Rijndael.rijndaelGenWithKey R secretKey keyIv init).on Process.rijndael
      fun p s => { p with rijndael := s }
  | .serpent => (Serpent.serpentGenWithKey R secretKey keyIv init).on Process.serpent
      fun p s => { p with serpent := s }
  | .zenMatrix => (ZenMatrix.zenMatrixGenWithKey R secretKey keyIv init).on Process.zenMatrix
      fun p s => { p with zenMatrix := s }

/-- The `Encrypt` method of the class. -/
def encrypt (L : Library) (cls : StaticClass) (p : Process) (inBytes : Option Bytes) :
    Except Exn (Option Bytes) :=
  match cls with
  | .fish2 => Fish2.encrypt L p.fish2 inBytes
  | .fish3 => Fish3.encrypt L p.fish3 inBytes
  | .des3 => Des3.encrypt L p.des3 inBytes
  | .aes => Aes.encrypt L p.aes inBytes
  | .rijndael => Rijndael.encrypt L p.rijndael inBytes
  | .serpent => Serpent.encrypt L p.serpent inBytes
  | .zenMatrix => (p.zenMatrix.encrypt inBytes).map some

/-- The `Decrypt` method of the class. -/
def decrypt (L : Library) (cls : StaticClass) (p : Process) (cipherBytes : Option Bytes) :
    Except Exn (Option Bytes) :=
  match cls with
  | .fish2 => Fish2.decrypt L p.fish2 cipherBytes
  | .fish3 => Fish3.decrypt L p.fish3 cipherBytes
  | .des3 => Des3.decrypt L p.des3 cipherBytes
  | .aes => Aes.decrypt L p.aes cipherBytes
  | .rijndael => Rijndael.decrypt L p.rijndael cipherBytes
  | .serpent => Serpent.decrypt L p.serpent cipherBytes
  | .zenMatrix => (p.zenMatrix.decrypt cipherBytes).map some

/-- The `init` argument with which `DecryptBytes` calls the keying method. -/
def initOnDecrypt : StaticClass → Bool
  | .fish2 => false
  | .fish3 => true
  | .des3 => true
  | .aes => false
  | .rijndael => false
  | .serpent => false
  | .zenMatrix => false

end StaticClass

namespace Crypt

/-- The object the dispatcher makes for a block cipher's name. -/
def newCryptBounceCastle (R : Runtime) (algo secretKey keyIv : NString) :
    Except Exn CryptBounceCastle :=
  let b := CryptHelper.getBlockCipher algo
  match (CryptBounceCastle.constructor R (some b.1) b.2.1 b.2.2 (some (.ofString "ECB")) keyIv
    secretKey true).run CryptBounceCastle.blank with
  | (.ok (), o) => .ok o
  | (.error e, _) => .error e

/-- `EncryptBytes`. -/
def encryptBytes (L : Library) (R : Runtime) (inBytes : Option Bytes)
    (algo secretKey keyIv : NString) : Method Exn Process (Option Bytes) :=
  match Arm.ofName algo with
  | some (.static cls) => do
    let _ ← cls.genWithKey R secretKey keyIv true
    let p ← gets id
    cls.encrypt L p inBytes
  | some .bounceCastle => do
    let o ← newCryptBounceCastle R algo secretKey keyIv
    o.encrypt L inBytes
  | none => return inBytes

/-- `DecryptBytes`: what the keying method answers is not used. -/
def decryptBytes (L : Library) (R : Runtime) (cipherBytes : Option Bytes)
    (algorithmName secretKey keyIv : NString) : Method Exn Process (Option Bytes) :=
  match Arm.ofName algorithmName with
  | some (.static cls) => do
    let _ ← cls.genWithKey R secretKey keyIv cls.initOnDecrypt
    let p ← gets id
    cls.decrypt L p cipherBytes
  | some .bounceCastle => do
    let o ← newCryptBounceCastle R algorithmName secretKey keyIv
    o.decrypt L cipherBytes
  | none => return cipherBytes

end Crypt

/-! ## Key material -/

namespace StaticClass

variable (R : Runtime) (cls : StaticClass) (secretKey keyIv : NString)

/-- The key material a class holds: in ECB the key alone. The matrix cipher's is the same in every
state the dispatcher reaches: its permutation is the identity. -/
def parameters (p : Process) : CipherParameters :=
  match cls with
  | .fish2 => ⟨p.fish2.key.toList, none⟩
  | .fish3 => ⟨p.fish3.key.toList, none⟩
  | .des3 => ⟨p.des3.key.toList, none⟩
  | .aes => ⟨p.aes.algoKey.toList, none⟩
  | .rijndael => ⟨p.rijndael.key.toList, none⟩
  | .serpent => ⟨p.serpent.key.toList, none⟩
  | .zenMatrix => ⟨[], none⟩

/-- The key material a secret key and a user hash give, or the exception of their derivation. -/
def derived : Except Exn CipherParameters :=
  match cls with
  | .fish2 => (Fish2.scheme.derived R secretKey keyIv).map fun kv => ⟨kv.1.toList, none⟩
  | .fish3 => (Fish3.scheme.derived R secretKey keyIv).map fun kv => ⟨kv.1.toList, none⟩
  | .des3 => (Des3.scheme.derived R secretKey keyIv).map fun kv => ⟨kv.1.toList, none⟩
  | .aes => (Aes.scheme.derived R secretKey keyIv).map fun kv => ⟨kv.1.toList, none⟩
  | .rijndael => (Rijndael.scheme.derived R secretKey keyIv).map fun kv => ⟨kv.1.toList, none⟩
  | .serpent => (Serpent.scheme.derived R secretKey keyIv).map fun kv => ⟨kv.1.toList, none⟩
  | .zenMatrix => .ok ⟨[], none⟩

/-- The cipher of a class that works on a buffered block cipher. -/
def engine : StaticClass → Engine
  | .rijndael => .aesLight
  | .serpent => .serpent
  | _ => .twofish

/-- Encryption under given key material. -/
def encryptUnder (L : Library) (q : CipherParameters) (data : Option Bytes) :
    Except Exn (Option Bytes) :=
  match cls with
  | .des3 => do
    L.tripleDesKey q.key
    let bs ← deref data
    let out ← L.tripleDes true q.key bs
    return some out
  | .aes => do
    let bs ← nonEmpty data
    let out ← L.rijndaelManaged true q.key bs
    return some out
  | .serpent => L.finishOrProcess ⟨⟨.serpent, .ecb, some .zeroBytePadding⟩, true, q⟩ data
  | .zenMatrix => do
    let bs ← nonEmpty data
    return some (ZenMatrix.cipher 1 bs)
  | cls => L.finish ⟨⟨cls.engine, .ecb, some .zeroBytePadding⟩, true, q⟩ data

/-- Decryption under given key material. -/
def decryptUnder (L : Library) (q : CipherParameters) (data : Option Bytes) :
    Except Exn (Option Bytes) :=
  match cls with
  | .des3 => do
    let bs ← nonEmpty data
    L.tripleDesKey q.key
    let _toDecryptArray ← newArray (Des3.toDecryptSize bs).toInt
    let out ← L.tripleDes false q.key bs
    return some out
  | .aes => do
    let bs ← nonEmpty data
    let out ← L.rijndaelManaged false q.key bs
    return some out
  | .serpent => L.finishOrProcess ⟨⟨.serpent, .ecb, some .zeroBytePadding⟩, false, q⟩ data
  | .zenMatrix => do
    let bs ← nonEmpty data
    return some (ZenMatrix.cipher 1 bs)
  | cls => L.finish ⟨⟨cls.engine, .ecb, some .zeroBytePadding⟩, false, q⟩ data

end StaticClass

/-- What holds in every state the dispatcher reaches: the `RijndaelManaged` object has the key of
its class, and the matrix cipher is keyed by the identity. -/
structure Process.Valid (p : Process) : Prop where
  aes : p.aes.Synced
  zenMatrix : ZenMatrix.Keyed p.zenMatrix 1

namespace StaticClass

variable {p : Process}

@[simp] theorem parameters_iv (cls : StaticClass) (p : Process) : (cls.parameters p).iv = none := by
  cases cls <;> rfl

theorem map_eq_ok {α β : Type} {f : α → β} {x : Except Exn α} {b : β} (h : x.map f = .ok b) :
    ∃ a, x = .ok a ∧ f a = b := by
  cases x with
  | error e => cases h
  | ok a => exact ⟨a, rfl, Except.ok.inj h⟩

theorem map_eq_error {α β : Type} {f : α → β} {x : Except Exn α} {e : Exn}
    (h : x.map f = .error e) : x = .error e := by
  cases x with
  | error e' => exact congrArg Except.error (Except.error.inj h)
  | ok a => cases h

/-- No initial vector is derived for a cipher in ECB. -/
theorem iv_of_derived {R : Runtime} {cls : StaticClass} {secretKey keyIv : NString}
    {q : CipherParameters} (h : cls.derived R secretKey keyIv = .ok q) : q.iv = none := by
  cases cls with
  | zenMatrix => exact congrArg CipherParameters.iv (Except.ok.inj h).symm
  | _ =>
    obtain ⟨kv, -, rfl⟩ := map_eq_ok h
    rfl

/-- **Encryption depends on the process through the key material of the class only.** -/
theorem encrypt_eq (L : Library) (cls : StaticClass) (hp : p.Valid) (data : Option Bytes) :
    cls.encrypt L p data = cls.encryptUnder L (cls.parameters p) data := by
  cases cls with
  | zenMatrix =>
    rcases data with _ | _ | ⟨b, bs⟩
    · rfl
    · rfl
    · rw [encrypt, ZenMatrix.encrypt_eq hp.zenMatrix (List.cons_ne_nil b bs)]
      rfl
  | _ => rfl

/-- So does decryption. -/
theorem decrypt_eq (L : Library) (cls : StaticClass) (hp : p.Valid) (data : Option Bytes) :
    cls.decrypt L p data = cls.decryptUnder L (cls.parameters p) data := by
  cases cls with
  | zenMatrix =>
    rcases data with _ | _ | ⟨b, bs⟩
    · rfl
    · rfl
    · rw [decrypt, ZenMatrix.decrypt_eq hp.zenMatrix (List.cons_ne_nil b bs)]
      rfl
  | _ => rfl

/-- A class whose keying method is that of a scheme, on its own component of the process. -/
structure SchemeClass (cls : StaticClass) where
  keyLen : ℕ
  ivLen : ℕ
  scheme : Scheme keyLen ivLen
  get : Process → KeyStore keyLen ivLen
  set : Process → KeyStore keyLen ivLen → Process
  fits : ∀ D : Deployment, scheme.Fits D.toRuntime
  genWithKey : ∀ R secretKey keyIv init,
    cls.genWithKey R secretKey keyIv init = (scheme.genWithKey R secretKey keyIv init).on get set
  derived : ∀ R secretKey keyIv, cls.derived R secretKey keyIv =
    (scheme.derived R secretKey keyIv).map fun kv => ⟨kv.1.toList, none⟩
  parameters : ∀ p, cls.parameters p = ⟨(get p).key.toList, none⟩
  get_set : ∀ p t, get (set p t) = t
  set_get : ∀ p, set p (get p) = p
  others : ∀ p t c, c ≠ cls → c.parameters (set p t) = c.parameters p
  valid : ∀ p t, p.Valid → (set p t).Valid

namespace SchemeClass

def fish2 : SchemeClass .fish2 where
  keyLen := 32
  ivLen := 32
  scheme := Fish2.scheme
  get := Process.fish2
  set p t := { p with fish2 := t }
  fits := Fish2.fits
  genWithKey _ _ _ _ := rfl
  derived _ _ _ := rfl
  parameters _ := rfl
  get_set _ _ := rfl
  set_get _ := rfl
  others _ _ c hc := by cases c <;> first | rfl | exact absurd rfl hc
  valid _ _ h := ⟨h.aes, h.zenMatrix⟩

def fish3 : SchemeClass .fish3 where
  keyLen := 32
  ivLen := 32
  scheme := Fish3.scheme
  get := Process.fish3
  set p t := { p with fish3 := t }
  fits D := Fish3.fits D.toRuntime
  genWithKey _ _ _ _ := rfl
  derived _ _ _ := rfl
  parameters _ := rfl
  get_set _ _ := rfl
  set_get _ := rfl
  others _ _ c hc := by cases c <;> first | rfl | exact absurd rfl hc
  valid _ _ h := ⟨h.aes, h.zenMatrix⟩

def des3 : SchemeClass .des3 where
  keyLen := Des3.keyLen
  ivLen := Des3.ivLen
  scheme := Des3.scheme
  get := Process.des3
  set p t := { p with des3 := t }
  fits := Des3.fits
  genWithKey _ _ _ _ := rfl
  derived _ _ _ := rfl
  parameters _ := rfl
  get_set _ _ := rfl
  set_get _ := rfl
  others _ _ c hc := by cases c <;> first | rfl | exact absurd rfl hc
  valid _ _ h := ⟨h.aes, h.zenMatrix⟩

def rijndael : SchemeClass .rijndael where
  keyLen := 32
  ivLen := 16
  scheme := Rijndael.scheme
  get := Process.rijndael
  set p t := { p with rijndael := t }
  fits := Rijndael.fits
  genWithKey _ _ _ _ := rfl
  derived _ _ _ := rfl
  parameters _ := rfl
  get_set _ _ := rfl
  set_get _ := rfl
  others _ _ c hc := by cases c <;> first | rfl | exact absurd rfl hc
  valid _ _ h := ⟨h.aes, h.zenMatrix⟩

def serpent : SchemeClass .serpent where
  keyLen := 16
  ivLen := 16
  scheme := Serpent.scheme
  get := Process.serpent
  set p t := { p with serpent := t }
  fits := Serpent.fits
  genWithKey _ _ _ _ := rfl
  derived _ _ _ := rfl
  parameters _ := rfl
  get_set _ _ := rfl
  set_get _ := rfl
  others _ _ c hc := by cases c <;> first | rfl | exact absurd rfl hc
  valid _ _ h := ⟨h.aes, h.zenMatrix⟩

variable {cls : StaticClass} (C : SchemeClass cls) (D : Deployment) {secretKey keyIv : NString}

include C

theorem run_ok {q : CipherParameters} (h : cls.derived D.toRuntime secretKey keyIv = .ok q)
    (hp : p.Valid) :
    ∃ p', (cls.genWithKey D.toRuntime secretKey keyIv true).run p = (.ok true, p') ∧ p'.Valid ∧
      cls.parameters p' = q ∧ ∀ c ≠ cls, c.parameters p' = c.parameters p := by
  rw [C.derived] at h
  obtain ⟨kv, hkv, rfl⟩ := map_eq_ok h
  obtain ⟨t, hrun, hk, -⟩ := Scheme.run_genWithKey_ok (C.fits D) hkv (C.get p)
  refine ⟨C.set p t, ?_, C.valid p t hp, ?_, C.others p t⟩
  · rw [C.genWithKey, run_on, hrun]
  · rw [C.parameters, C.get_set, hk]

theorem run_error {e : Exn} (h : cls.derived D.toRuntime secretKey keyIv = .error e)
    (hp : p.Valid) :
    ∃ p', (cls.genWithKey D.toRuntime secretKey keyIv true).run p = (.error e, p') ∧ p'.Valid ∧
      ∀ c : StaticClass, c.parameters p' = c.parameters p := by
  rw [C.derived] at h
  obtain ⟨t, hrun, hk, -⟩ := Scheme.run_genWithKey_error (C.fits D) (map_eq_error h) (C.get p)
  refine ⟨C.set p t, ?_, C.valid p t hp, fun c => ?_⟩
  · rw [C.genWithKey, run_on, hrun]
  · by_cases hc : c = cls
    · subst hc
      rw [C.parameters, C.parameters, C.get_set, hk]
    · exact C.others p t c hc

theorem run_false (R : Runtime) (secretKey keyIv : NString) (p : Process) :
    ∃ b, (cls.genWithKey R secretKey keyIv false).run p = (.ok b, p) := by
  refine ⟨!R.differs (C.get p).privateKey secretKey, ?_⟩
  rw [C.genWithKey, run_on, Scheme.run_genWithKey_false, C.set_get]

end SchemeClass

variable (D : Deployment) {secretKey keyIv : NString}

/-- **Keying with `init`** replaces the key material of the class, and of no other. -/
theorem run_genWithKey_ok (cls : StaticClass) {q : CipherParameters}
    (h : cls.derived D.toRuntime secretKey keyIv = .ok q) (hp : p.Valid) :
    ∃ p', (cls.genWithKey D.toRuntime secretKey keyIv true).run p = (.ok true, p') ∧ p'.Valid ∧
      cls.parameters p' = q ∧ ∀ c ≠ cls, c.parameters p' = c.parameters p := by
  cases cls with
  | fish2 => exact SchemeClass.fish2.run_ok D h hp
  | fish3 => exact SchemeClass.fish3.run_ok D h hp
  | des3 => exact SchemeClass.des3.run_ok D h hp
  | rijndael => exact SchemeClass.rijndael.run_ok D h hp
  | serpent => exact SchemeClass.serpent.run_ok D h hp
  | aes =>
    obtain ⟨kv, hkv, rfl⟩ := map_eq_ok h
    let s : Aes := ⟨orEmpty secretKey, kv.1, kv.2, kv.1, kv.2⟩
    refine ⟨{ p with aes := s }, ?_, ⟨⟨rfl, rfl⟩, hp.zenMatrix⟩, rfl, ?_⟩
    · rw [genWithKey, run_on, Aes.run_aesGenWithNewKey_ok (Aes.fits D) hkv]
    · intro c hc
      cases c <;> first | rfl | exact absurd rfl hc
  | zenMatrix =>
    let z := ZenMatrix.identity (ZenMatrix.heldKey secretKey) (ZenMatrix.heldHash keyIv)
    refine ⟨{ p with zenMatrix := z }, ?_, ⟨hp.aes, ZenMatrix.keyed_identity _ _⟩,
      Except.ok.inj h, ?_⟩
    · rw [genWithKey, run_on, ZenMatrix.run_zenMatrixGenWithKey]
    · intro c _
      cases c <;> rfl

/-- **Keying with `init` when the derivation throws** leaves all key material as it was. -/
theorem run_genWithKey_error (cls : StaticClass) {e : Exn}
    (h : cls.derived D.toRuntime secretKey keyIv = .error e) (hp : p.Valid) :
    ∃ p', (cls.genWithKey D.toRuntime secretKey keyIv true).run p = (.error e, p') ∧ p'.Valid ∧
      ∀ c : StaticClass, c.parameters p' = c.parameters p := by
  cases cls with
  | fish2 => exact SchemeClass.fish2.run_error D h hp
  | fish3 => exact SchemeClass.fish3.run_error D h hp
  | des3 => exact SchemeClass.des3.run_error D h hp
  | rijndael => exact SchemeClass.rijndael.run_error D h hp
  | serpent => exact SchemeClass.serpent.run_error D h hp
  | aes =>
    refine ⟨{ p with aes := { p.aes with privateKey := orEmpty secretKey } }, ?_,
      ⟨⟨hp.aes.algoKey, hp.aes.algoIv⟩, hp.zenMatrix⟩, fun c => ?_⟩
    · rw [genWithKey, run_on, Aes.run_aesGenWithNewKey_error (Aes.fits D) (map_eq_error h)]
    · cases c <;> rfl
  | zenMatrix => cases h

/-- **Keying without `init`** changes nothing. -/
theorem run_genWithKey_false (cls : StaticClass) (secretKey keyIv : NString) (hp : p.Valid) :
    ∃ b, (cls.genWithKey D.toRuntime secretKey keyIv false).run p = (.ok b, p) := by
  cases cls with
  | fish2 => exact SchemeClass.fish2.run_false D.toRuntime secretKey keyIv p
  | fish3 => exact SchemeClass.fish3.run_false D.toRuntime secretKey keyIv p
  | des3 => exact SchemeClass.des3.run_false D.toRuntime secretKey keyIv p
  | rijndael => exact SchemeClass.rijndael.run_false D.toRuntime secretKey keyIv p
  | serpent => exact SchemeClass.serpent.run_false D.toRuntime secretKey keyIv p
  | aes =>
    refine ⟨!D.toRuntime.differs p.aes.privateKey secretKey, ?_⟩
    rw [genWithKey, run_on, Aes.run_aesGenWithNewKey_false D.toRuntime secretKey keyIv hp.aes]
  | zenMatrix =>
    refine ⟨!D.toRuntime.differs p.zenMatrix.privateKey secretKey, ?_⟩
    rw [genWithKey, run_on, ZenMatrix.run_zenMatrixGenWithKey_false]

end StaticClass

/-! ## The fresh process -/

/-- The static constructors return, and leave the key material of an empty secret key. -/
theorem Process.exists_start (D : Deployment) :
    ∃ p, Process.start D.toRuntime = .ok p ∧ p.Valid ∧
      ∀ cls : StaticClass, cls.derived D.toRuntime none none = .ok (cls.parameters p) := by
  obtain ⟨kv₁, fish2, hd₁, hs₁, hk₁, -⟩ := Scheme.start_ok (Fish2.fits D)
  obtain ⟨kv₂, fish3, hd₂, hs₂, hk₂, -⟩ := Scheme.start_ok (Fish3.fits D.toRuntime)
  obtain ⟨kv₃, des3, hd₃, hs₃, hk₃, -⟩ := Scheme.start_ok (Des3.fits D)
  obtain ⟨kv₄, aes, hd₄, hs₄, hsync, hk₄, -⟩ := Aes.start_ok (Aes.fits D)
  obtain ⟨kv₅, rijndael, hd₅, hs₅, hk₅, -⟩ := Scheme.start_ok (Rijndael.fits D)
  obtain ⟨kv₆, serpent, hd₆, hs₆, hk₆, -⟩ := Scheme.start_ok (Serpent.fits D)
  refine ⟨⟨fish2, fish3, des3, aes, rijndael, serpent, ZenMatrix.initial⟩, ?_,
    ⟨hsync, ?_⟩, fun cls => ?_⟩
  · rw [start, hs₁, ok_bind, hs₂, ok_bind, hs₃, ok_bind, hs₄, ok_bind, hs₅, ok_bind, hs₆]
    rfl
  · rw [ZenMatrix.initial_eq_identity]
    exact ZenMatrix.keyed_identity _ _
  · cases cls <;> simp only [StaticClass.derived, StaticClass.parameters, Except.map, *]

/-- The state of a fresh process. -/
def Deployment.initial (D : Deployment) : Process :=
  (Process.start D.toRuntime).toOption.get <| by
    obtain ⟨p, hp, -⟩ := Process.exists_start D
    rw [hp]
    rfl

theorem Deployment.initial_spec (D : Deployment) :
    Process.start D.toRuntime = .ok D.initial ∧ D.initial.Valid ∧
      ∀ cls : StaticClass, cls.derived D.toRuntime none none = .ok (cls.parameters D.initial) := by
  obtain ⟨p, hp, hvalid, hderived⟩ := Process.exists_start D
  have heq : D.initial = p := by
    simp only [Deployment.initial, hp, Except.toOption, Option.get_some]
  rw [heq]
  exact ⟨hp, hvalid, hderived⟩

end Server6
