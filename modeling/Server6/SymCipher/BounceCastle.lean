import Server6.SymCipher.CryptHelper
import Server6.SymCipher.Library

/-!
# Initialising a `CryptBounceCastle`

The object keeps its key material in `Key` and `Iv` and works on the fields `tmpKey` and `tmpIv` on
the way. Its `GetUserKeyBytes` writes `tmpKey`, `privateKey` and `userHostIpAddress` as well as
returning the key, and every initialising path calls it twice before it copies: the second call, for
the `Iv`, replaces the array the first one left in `tmpKey`.

* `run_getUserKeyBytes` is what one call returns and leaves.
* `run_deriveKeys` is what the two calls leave: `tmpKey` and `tmpIv` hold the same bytes.
* `run_initPath_eq` is what each of the three paths leaves: `Key` and `Iv` are both the bytes derived
  from the resource, and the caller's secret reaches neither unless the resource is short.
-/

namespace Server6

/-- The fields of a `CryptBounceCastle`; `none` is a null reference. -/
structure CryptBounceCastle where
  privateKey : Utf16
  userHostIpAddress : NString
  tmpIv : Option Bytes
  tmpKey : Option Bytes
  key : Option Bytes
  iv : Option Bytes
  size : Int
  keyLen : Int
  cryptoBlockCipher : Option Engine
  cryptoBlockCipherPadding : Option BlockCipherPadding
  mode : NString
  deriving DecidableEq, Repr

namespace CryptBounceCastle

open Method

variable (R : Runtime)

/-- An object whose constructor has not run yet: the field initialisers only. -/
def blank : CryptBounceCastle where
  privateKey := []
  userHostIpAddress := some []
  tmpIv := none
  tmpKey := none
  key := none
  iv := none
  size := 0
  keyLen := 0
  cryptoBlockCipher := none
  cryptoBlockCipherPadding := none
  mode := none

def privateUserKey (o : CryptBounceCastle) : Utf16 := o.privateKey ++ o.privateKey

def privateUserHostKey (o : CryptBounceCastle) : Utf16 :=
  o.privateKey ++ orEmpty o.userHostIpAddress ++ o.privateKey ++ orEmpty o.userHostIpAddress

/-- The string `GetUserKeyBytes` takes the key from. -/
def keyByteHashString (o : CryptBounceCastle) : Utf16 :=
  let s := if byteCount o.privateKey < o.keyLen then o.privateUserKey else o.privateKey
  if byteCount s < o.keyLen then o.privateUserHostKey else s

/-- `GetUserKeyBytes`: it stores its arguments and builds the key in the field `tmpKey`. -/
def getUserKeyBytes (secretKey : Utf16) (usrHostAddr : NString) :
    Method Exn CryptBounceCastle Bytes := do
  modify fun o => { o with privateKey := secretKey, userHostIpAddress := usrHostAddr }
  let keyLen ← gets keyLen
  let tmpKey ← newBytes keyLen
  modify fun o => { o with tmpKey := some tmpKey }
  let s ← gets keyByteHashString
  let tmpKey ← fillKey R s tmpKey keyLen
  modify fun o => { o with tmpKey := some tmpKey }
  return tmpKey

/-- `tmpKey = new byte[keyLen]; tmpIv = new byte[keyLen];` -/
def newTmp (keyLen : Int) : Method Exn CryptBounceCastle Unit := do
  let k ← newBytes keyLen
  modify fun o => { o with tmpKey := some k }
  let v ← newBytes keyLen
  modify fun o => { o with tmpIv := some v }

/-- `Key = new byte[keyLen]; Iv = new byte[keyLen];` -/
def newKeys (keyLen : Int) : Method Exn CryptBounceCastle Unit := do
  let k ← newBytes keyLen
  modify fun o => { o with key := some k }
  let v ← newBytes keyLen
  modify fun o => { o with iv := some v }

/-- `Array.Copy(tmpKey, Key, keyLen)` -/
def copyKey (keyLen : Int) : Method Exn CryptBounceCastle Unit := do
  let k ← gets tmpKey
  let bs ← arrayCopy k keyLen
  modify fun o => { o with key := some bs }

/-- `Array.Copy(tmpIv, Iv, keyLen)` -/
def copyIv (keyLen : Int) : Method Exn CryptBounceCastle Unit := do
  let v ← gets tmpIv
  let bs ← arrayCopy v keyLen
  modify fun o => { o with iv := some bs }

/-- The two derivations every initialising path makes, by whether it has a secret key. -/
def deriveKeys (userHostAddr secretKey : NString) : Method Exn CryptBounceCastle Unit :=
  if isNullOrEmpty secretKey then do
    modify fun o => { o with privateKey := [] }
    let addr ← gets userHostIpAddress
    let k ← getUserKeyBytes R (R.getValue Constants.BOUNCEK) addr
    modify fun o => { o with tmpKey := some k }
    let addr ← gets userHostIpAddress
    let v ← getUserKeyBytes R (R.getValue Constants.BOUNCE4) addr
    modify fun o => { o with tmpIv := some v }
  else do
    modify fun o => { o with privateKey := orEmpty secretKey }
    let k ← getUserKeyBytes R (orEmpty secretKey) userHostAddr
    modify fun o => { o with tmpKey := some k }
    let v ← getUserKeyBytes R (R.getValue Constants.BOUNCE4) secretKey
    modify fun o => { o with tmpIv := some v }

/-- What a path with `init` false does: refill the working arrays if they are missing. -/
def keepKeys (keyLen : Int) : Method Exn CryptBounceCastle Unit := do
  let short ← gets fun o => o.tmpKey.all (·.length ≤ 1) || o.tmpIv.all (·.length ≤ 1)
  if short then do
    newTmp keyLen
    let iv ← gets iv
    let v ← arrayCopy iv keyLen
    modify fun o => { o with tmpIv := some v }
    let key ← gets key
    let k ← arrayCopy key keyLen
    modify fun o => { o with tmpKey := some k }
  else return ()

/-- The assignments with which the constructor and `InitBounceCastleAlgo` start. -/
def setParameters (blockCipher : Option Engine) (size keyLen : Int) (mode : NString) :
    Method Exn CryptBounceCastle Unit :=
  modify fun o =>
    { o with
      cryptoBlockCipher := some (blockCipher.getD .aes)
      cryptoBlockCipherPadding := some .zeroBytePadding
      keyLen := keyLen
      size := size
      mode := mode }

/-- The parameterless constructor. -/
def defaultConstructor : Method Exn CryptBounceCastle Unit := do
  modify fun o =>
    { o with
      cryptoBlockCipher := none
      cryptoBlockCipherPadding := none
      keyLen := 32
      size := 256
      mode := some (.ofString "ECB")
      privateKey := []
      userHostIpAddress := some [] }
  let k ← R.resourceBytes Constants.BOUNCEK
  modify fun o => { o with tmpKey := some k }
  let v ← R.resourceBytes Constants.BOUNCE4
  modify fun o => { o with tmpIv := some v }
  newKeys 32
  copyIv 32
  copyKey 32
  modify fun o => { o with tmpKey := none, tmpIv := none }

/-- The constructor. -/
def constructor (blockCipher : Option Engine) (size keyLen : Int)
    (mode userHostAddr secretKey : NString) (init : Bool) : Method Exn CryptBounceCastle Unit := do
  setParameters blockCipher size keyLen mode
  if init then do
    newTmp keyLen
    modify fun o =>
      { o with
        userHostIpAddress := if isNullOrEmpty userHostAddr then some [] else userHostAddr }
    deriveKeys R userHostAddr secretKey
    newKeys keyLen
    copyIv keyLen
    copyKey keyLen
  else keepKeys keyLen

/-- `InitBounceCastleAlgo`. -/
def initBounceCastleAlgo (blockCipher : Option Engine) (size keyLen : Int)
    (mode userHostAddr secretKey : NString) (init : Bool) : Method Exn CryptBounceCastle Bool := do
  setParameters blockCipher size keyLen mode
  if init then do
    newTmp keyLen
    deriveKeys R userHostAddr secretKey
    newKeys keyLen
    copyIv keyLen
    copyKey keyLen
    return true
  else do
    keepKeys keyLen
    return false

/-- `CryptBounceCastleGenWithKey`. -/
def cryptBounceCastleGenWithKey (userHostAddr secretKey : NString) (init : Bool) :
    Method Exn CryptBounceCastle Bool := do
  let privateKey ← gets privateKey
  let keyLen ← gets keyLen
  if !init && R.differs privateKey secretKey then return false
  else if init then do
    newTmp keyLen
    deriveKeys R userHostAddr secretKey
    newKeys keyLen
    copyKey keyLen
    copyIv keyLen
    return true
  else do
    keepKeys keyLen
    return true

/-- The cipher `Encrypt` and `Decrypt` build for the `Mode`; a mode they do not know is CBC. -/
def cipherMode (o : CryptBounceCastle) : Except Exn BufferedCipher :=
  match o.cryptoBlockCipher with
  | none => .error .nullReference
  | some engine =>
    let mode :=
      if o.mode = some (.ofString "CBC") then .cbc
      else if o.mode = some (.ofString "ECB") then .ecb
      else if o.mode = some (.ofString "CFB") then .cfb o.size
      else if o.mode = some (.ofString "CCM") then .ccm
      else if o.mode = some (.ofString "CTS") then .cts
      else if o.mode = some (.ofString "EAX") then .eax
      else if o.mode = some (.ofString "GOFB") then .gofb
      else .cbc
    .ok ⟨engine, mode, o.cryptoBlockCipherPadding⟩

/-- The parameters they build: both take the key alone, whatever the mode, but not before they
have put the `Iv` beside it. -/
def cipherParameters (o : CryptBounceCastle) : Except Exn CipherParameters :=
  match o.key, o.iv with
  | none, _ => .error .argumentNull
  | some _, none => .error .nullReference
  | some key, some _ => .ok ⟨key, none⟩

theorem iv_of_cipherParameters {o : CryptBounceCastle} {q : CipherParameters}
    (h : o.cipherParameters = .ok q) : q.iv = none := by
  unfold cipherParameters at h
  split at h
  · cases h
  · cases h
  · rw [← Except.ok.inj h]

/-- `Encrypt`. -/
def encrypt (L : Library) (o : CryptBounceCastle) (plainData : Option Bytes) :
    Except Exn (Option Bytes) := do
  let cipher ← o.cipherMode
  let q ← o.cipherParameters
  L.finish ⟨cipher, true, q⟩ plainData

/-- `Decrypt`. -/
def decrypt (L : Library) (o : CryptBounceCastle) (cipherData : Option Bytes) :
    Except Exn (Option Bytes) := do
  let cipher ← o.cipherMode
  let q ← o.cipherParameters
  L.finishOrProcess ⟨cipher, false, q⟩ cipherData

/-! ## What a call derives -/

/-- The string a key of `n` bytes is taken from. -/
def keySource (n : ℕ) (secretKey : Utf16) (usrHostAddr : NString) : Utf16 :=
  pick n secretKey (secretKey ++ secretKey)
    (secretKey ++ orEmpty usrHostAddr ++ secretKey ++ orEmpty usrHostAddr)

/-- The bytes `GetUserKeyBytes` returns in an object of key length `n`. -/
def userKeyBytes (n : ℕ) (secretKey : Utf16) (usrHostAddr : NString) : Bytes :=
  spread n (keySource n secretKey usrHostAddr)

variable {R}

theorem keySource_ne_nil {n : ℕ} {secretKey : Utf16} (h : secretKey ≠ []) (addr : NString) :
    keySource n secretKey addr ≠ [] ∨ n = 0 :=
  pick_ne_nil (by simp [h])

theorem keyByteHashString_eq {o : CryptBounceCastle} {n : ℕ} (hn : o.keyLen = n) :
    o.keyByteHashString = keySource n o.privateKey o.userHostIpAddress := by
  simp only [keyByteHashString, hn]
  exact pick_eq_ite _ _ _ _

/-- **What one derivation returns and leaves.** -/
theorem run_getUserKeyBytes {o : CryptBounceCastle} {n : ℕ} (hn : o.keyLen = n)
    {secretKey : Utf16} (hs : secretKey ≠ []) (addr : NString) :
    (getUserKeyBytes R secretKey addr).run o =
      (.ok (userKeyBytes n secretKey addr),
        { o with
          privateKey := secretKey
          userHostIpAddress := addr
          tmpKey := some (userKeyBytes n secretKey addr) }) := by
  have hnew : newBytes o.keyLen = .ok (List.replicate n 0) := by rw [hn, newBytes_natCast]
  have hsource : ∀ t, keyByteHashString
      { o with privateKey := secretKey, userHostIpAddress := addr, tmpKey := t } =
        keySource n secretKey addr := fun t => keyByteHashString_eq hn
  have hfill : fillKey R (keySource n secretKey addr) (List.replicate n 0) o.keyLen =
      .ok (userKeyBytes n secretKey addr) := by
    rw [hn]
    exact fillKey_eq R (keySource_ne_nil hs addr) (by simp)
  simp only [getUserKeyBytes, run_bind, run_modify, run_gets, run_liftM, hnew, hsource, hfill,
    run_pure]

/-- **What the two derivations leave when there is a secret key**: the second one has replaced the
array of the first. -/
theorem run_deriveKeys_some {o : CryptBounceCastle} {n : ℕ} (hn : o.keyLen = n)
    {secretKey : Utf16} (hs : secretKey ≠ []) (addr : NString) :
    (deriveKeys R addr (some secretKey)).run o =
      (.ok (),
        { o with
          privateKey := R.getValue Constants.BOUNCE4
          userHostIpAddress := some secretKey
          tmpKey := some (userKeyBytes n (R.getValue Constants.BOUNCE4) (some secretKey))
          tmpIv := some (userKeyBytes n (R.getValue Constants.BOUNCE4) (some secretKey)) }) := by
  have hr : R.getValue Constants.BOUNCE4 ≠ [] := R.getValue_ne_nil (by decide)
  simp only [deriveKeys, isNullOrEmpty_some, hs, decide_false, Bool.false_eq_true, if_false,
    orEmpty, Option.getD_some]
  have hk := run_getUserKeyBytes (R := R) (o := { o with privateKey := secretKey }) hn hs addr
  have hv := run_getUserKeyBytes (R := R) (n := n)
    (o := { o with
      privateKey := secretKey
      userHostIpAddress := addr
      tmpKey := some (userKeyBytes n secretKey addr) }) hn hr (some secretKey)
  rw [run_bind_ok (run_modify _ _), run_bind_ok hk, run_bind_ok (run_modify _ _), run_bind_ok hv,
    run_modify]

/-- Without a secret key both arrays are derived from resources, and the second one has replaced the
first all the same. -/
theorem run_deriveKeys_none {o : CryptBounceCastle} {n : ℕ} (hn : o.keyLen = n)
    {secretKey : NString} (hs : isNullOrEmpty secretKey = true) (addr : NString) :
    (deriveKeys R addr secretKey).run o =
      (.ok (),
        { o with
          privateKey := R.getValue Constants.BOUNCE4
          tmpKey := some (userKeyBytes n (R.getValue Constants.BOUNCE4) o.userHostIpAddress)
          tmpIv := some (userKeyBytes n (R.getValue Constants.BOUNCE4) o.userHostIpAddress) }) := by
  have hk := run_getUserKeyBytes (R := R) (o := { o with privateKey := [] }) hn
    (R.getValue_ne_nil (by decide : Constants.BOUNCEK ≠ [])) o.userHostIpAddress
  have hv := run_getUserKeyBytes (R := R) (n := n)
    (o := { o with
      privateKey := R.getValue Constants.BOUNCEK
      tmpKey := some (userKeyBytes n (R.getValue Constants.BOUNCEK) o.userHostIpAddress) }) hn
    (R.getValue_ne_nil (by decide : Constants.BOUNCE4 ≠ [])) o.userHostIpAddress
  simp only [deriveKeys, hs, if_true]
  rw [run_bind_ok (run_modify _ _), run_bind_ok (run_gets _ _), run_bind_ok hk,
    run_bind_ok (run_modify _ _), run_bind_ok (run_gets _ _), run_bind_ok hv, run_modify]

/-- The string a derivation puts behind the resource: the secret key, or the address that the object
holds already where there is none. -/
def salt (secretKey userHostIpAddress : NString) : NString :=
  if isNullOrEmpty secretKey then userHostIpAddress else secretKey

/-- **What the two derivations leave**, either way: in both arrays the bytes of the resource and the
salt. -/
theorem run_deriveKeys {o : CryptBounceCastle} {n : ℕ} (hn : o.keyLen = n)
    (addr secretKey : NString) :
    (deriveKeys R addr secretKey).run o =
      (.ok (),
        { o with
          privateKey := R.getValue Constants.BOUNCE4
          userHostIpAddress := salt secretKey o.userHostIpAddress
          tmpKey := some (userKeyBytes n (R.getValue Constants.BOUNCE4)
            (salt secretKey o.userHostIpAddress))
          tmpIv := some (userKeyBytes n (R.getValue Constants.BOUNCE4)
            (salt secretKey o.userHostIpAddress)) }) := by
  unfold salt
  by_cases hs : isNullOrEmpty secretKey = true
  · rw [if_pos hs, run_deriveKeys_none hn hs addr]
  · rw [if_neg hs]
    rcases secretKey with _ | s
    · exact absurd rfl hs
    · exact run_deriveKeys_some hn (by simpa using hs) addr

theorem run_newTmp (n : ℕ) (o : CryptBounceCastle) :
    (newTmp n).run o =
      (.ok (), { o with
        tmpKey := some (List.replicate n 0), tmpIv := some (List.replicate n 0) }) := by
  simp [newTmp, run_bind, newBytes_natCast]

theorem run_newKeys (n : ℕ) (o : CryptBounceCastle) :
    (newKeys n).run o =
      (.ok (), { o with
        key := some (List.replicate n 0), iv := some (List.replicate n 0) }) := by
  simp [newKeys, run_bind, newBytes_natCast]

theorem run_copyKey {o : CryptBounceCastle} {bs : Bytes} (h : o.tmpKey = some bs) {n : ℕ}
    (hn : bs.length = n) : (copyKey n).run o = (.ok (), { o with key := some bs }) := by
  subst hn
  simp [copyKey, run_bind, h, arrayCopy_some]

theorem run_copyIv {o : CryptBounceCastle} {bs : Bytes} (h : o.tmpIv = some bs) {n : ℕ}
    (hn : bs.length = n) : (copyIv n).run o = (.ok (), { o with iv := some bs }) := by
  subst hn
  simp [copyIv, run_bind, h, arrayCopy_some]

/-! ## What the initialising paths install -/

/-- The three paths that initialise an object, with their parameters other than the secret. -/
inductive InitPath
  | constructor (blockCipher : Option Engine) (size keyLen : Int) (mode : NString)
  | initBounceCastleAlgo (blockCipher : Option Engine) (size keyLen : Int) (mode : NString)
  | cryptBounceCastleGenWithKey

namespace InitPath

/-- The path, called with `init` true. -/
def call (R : Runtime) (userHostAddr secretKey : NString) :
    InitPath → Method Exn CryptBounceCastle Unit
  | .constructor blockCipher size keyLen mode =>
    CryptBounceCastle.constructor R blockCipher size keyLen mode userHostAddr secretKey true
  | .initBounceCastleAlgo blockCipher size keyLen mode => do
    let _ ← CryptBounceCastle.initBounceCastleAlgo R blockCipher size keyLen mode userHostAddr
      secretKey true
  | .cryptBounceCastleGenWithKey => do
    let _ ← CryptBounceCastle.cryptBounceCastleGenWithKey R userHostAddr secretKey true

/-- The key length the path installs keys of. -/
def keyLen (o : CryptBounceCastle) : InitPath → Int
  | .constructor _ _ keyLen _ => keyLen
  | .initBounceCastleAlgo _ _ keyLen _ => keyLen
  | .cryptBounceCastleGenWithKey => o.keyLen

/-- The object with the path's parameters set. -/
def parameters (o : CryptBounceCastle) : InitPath → CryptBounceCastle
  | .constructor blockCipher size keyLen mode =>
    ((setParameters blockCipher size keyLen mode).run o).2
  | .initBounceCastleAlgo blockCipher size keyLen mode =>
    ((setParameters blockCipher size keyLen mode).run o).2
  | .cryptBounceCastleGenWithKey => o

/-- The address in the object when the path comes to derive the keys. -/
def address (userHostAddr : NString) (o : CryptBounceCastle) : InitPath → NString
  | .constructor _ _ _ _ => if isNullOrEmpty userHostAddr then some [] else userHostAddr
  | .initBounceCastleAlgo _ _ _ _ => o.userHostIpAddress
  | .cryptBounceCastleGenWithKey => o.userHostIpAddress

end InitPath

/-- The bytes every initialising path installs, twice. -/
def installedBytes (R : Runtime) (n : ℕ) (secretKey : Utf16) : Bytes :=
  userKeyBytes n (R.getValue Constants.BOUNCE4) (some secretKey)

/-- An object whose `Key`, `Iv` and working arrays are the installed bytes. -/
def install (R : Runtime) (n : ℕ) (secretKey : Utf16) (o : CryptBounceCastle) :
    CryptBounceCastle :=
  { o with
    privateKey := R.getValue Constants.BOUNCE4
    userHostIpAddress := some secretKey
    tmpKey := some (installedBytes R n secretKey)
    tmpIv := some (installedBytes R n secretKey)
    key := some (installedBytes R n secretKey)
    iv := some (installedBytes R n secretKey) }

/-- An object keyed by the resource and the given salt. -/
def keyedBy (R : Runtime) (n : ℕ) (addr : NString) (o : CryptBounceCastle) : CryptBounceCastle :=
  { o with
    privateKey := R.getValue Constants.BOUNCE4
    userHostIpAddress := addr
    tmpKey := some (userKeyBytes n (R.getValue Constants.BOUNCE4) addr)
    tmpIv := some (userKeyBytes n (R.getValue Constants.BOUNCE4) addr)
    key := some (userKeyBytes n (R.getValue Constants.BOUNCE4) addr)
    iv := some (userKeyBytes n (R.getValue Constants.BOUNCE4) addr) }

theorem length_userKeyBytes (n : ℕ) (secretKey : Utf16) (addr : NString) :
    (userKeyBytes n secretKey addr).length = n := length_spread _ _

/-- `InitBounceCastleAlgo` with `init` answers true and keys the object. -/
theorem run_initBounceCastleAlgo (blockCipher : Option Engine) (size : Int) (n : ℕ)
    (mode addr secretKey : NString) (o : CryptBounceCastle) :
    (initBounceCastleAlgo R blockCipher size n mode addr secretKey true).run o =
      (.ok true, keyedBy R n (salt secretKey o.userHostIpAddress)
        ((setParameters blockCipher size n mode).run o).2) := by
  refine Eq.trans (run_bind_ok (run_modify _ _) _) ?_
  refine Eq.trans (run_bind_ok (run_newTmp n _) _) ?_
  refine Eq.trans (run_bind_ok (run_deriveKeys rfl addr secretKey) _) ?_
  refine Eq.trans (run_bind_ok (run_newKeys n _) _) ?_
  refine Eq.trans (run_bind_ok (run_copyIv rfl (length_userKeyBytes ..)) _) ?_
  exact run_bind_ok (run_copyKey rfl (length_userKeyBytes ..)) _

/-- So does `CryptBounceCastleGenWithKey`. -/
theorem run_cryptBounceCastleGenWithKey {o : CryptBounceCastle} {n : ℕ} (hn : o.keyLen = n)
    (addr secretKey : NString) :
    (cryptBounceCastleGenWithKey R addr secretKey true).run o =
      (.ok true, keyedBy R n (salt secretKey o.userHostIpAddress) o) := by
  refine Eq.trans (run_bind_ok (run_gets _ _) _) ?_
  refine Eq.trans (run_bind_ok (run_gets _ _) _) ?_
  rw [hn]
  refine Eq.trans (run_bind_ok (run_newTmp n _) _) ?_
  refine Eq.trans (run_bind_ok (run_deriveKeys (by exact hn) addr secretKey) _) ?_
  refine Eq.trans (run_bind_ok (run_newKeys n _) _) ?_
  refine Eq.trans (run_bind_ok (run_copyKey rfl (length_userKeyBytes ..)) _) ?_
  exact run_bind_ok (run_copyIv rfl (length_userKeyBytes ..)) _

/-- **What an initialising path leaves**: it returns, and `Key` and `Iv` are both the bytes of the
resource and the salt. -/
theorem run_initPath_eq {path : InitPath} {o : CryptBounceCastle} {n : ℕ}
    (hn : path.keyLen o = n) (addr secretKey : NString) :
    (path.call R addr secretKey).run o =
      (.ok (), keyedBy R n (salt secretKey (path.address addr o)) (path.parameters o)) := by
  cases path with
  | constructor blockCipher size keyLen mode =>
    obtain rfl : keyLen = n := hn
    refine Eq.trans (run_bind_ok (run_modify _ _) _) ?_
    refine Eq.trans (run_bind_ok (run_newTmp n _) _) ?_
    refine Eq.trans (run_bind_ok (run_modify _ _) _) ?_
    refine Eq.trans (run_bind_ok (run_deriveKeys rfl addr secretKey) _) ?_
    refine Eq.trans (run_bind_ok (run_newKeys n _) _) ?_
    refine Eq.trans (run_bind_ok (run_copyIv rfl (length_userKeyBytes ..)) _) ?_
    exact run_copyKey rfl (length_userKeyBytes ..)
  | initBounceCastleAlgo blockCipher size keyLen mode =>
    obtain rfl : keyLen = n := hn
    exact run_bind_ok (run_initBounceCastleAlgo ..) _
  | cryptBounceCastleGenWithKey =>
    exact run_bind_ok (run_cryptBounceCastleGenWithKey hn addr secretKey) _

/-- With a secret key the salt is that key, whatever the object held. -/
theorem run_initPath {path : InitPath} {o : CryptBounceCastle} {n : ℕ}
    (hn : path.keyLen o = n) {secretKey : Utf16} (hs : secretKey ≠ []) (addr : NString) :
    (path.call R addr (some secretKey)).run o =
      (.ok (), install R n secretKey (path.parameters o)) := by
  have hsalt : salt (some secretKey) (path.address addr o) = some secretKey := by
    unfold salt
    rw [if_neg (by simpa using hs)]
  rw [run_initPath_eq hn, hsalt]
  rfl

/-- `bs` is what `GetUserKeyBytes` derives in every object of key length `n`. -/
def Derives (R : Runtime) (n : ℕ) (secretKey : Utf16) (usrHostAddr : NString) (bs : Bytes) :
    Prop :=
  ∀ o : CryptBounceCastle, o.keyLen = n →
    ((getUserKeyBytes R secretKey usrHostAddr).run o).1 = .ok bs

theorem derives_iff {n : ℕ} {secretKey : Utf16} (hs : secretKey ≠ []) {addr : NString}
    {bs : Bytes} : Derives R n secretKey addr bs ↔ bs = userKeyBytes n secretKey addr := by
  constructor
  · intro h
    have h := h { blank with keyLen := n } rfl
    rw [run_getUserKeyBytes rfl hs, Except.ok.injEq] at h
    exact h.symm
  · rintro rfl o ho
    rw [run_getUserKeyBytes ho hs]

/-- The outcome of an initialising path is as its callers expect: it returned, `Key` is what the
secret key and the address derive, and `Iv` is what the resource and the secret key derive. -/
def HoldsDerivedKeys (R : Runtime) (n : ℕ) (secretKey : Utf16) (userHostAddr : NString)
    (outcome : Except Exn Unit × CryptBounceCastle) : Prop :=
  outcome.1 = .ok () ∧
    (∃ k, outcome.2.key = some k ∧ k.length = n ∧ Derives R n secretKey userHostAddr k) ∧
    ∃ v, outcome.2.iv = some v ∧ Derives R n (R.getValue Constants.BOUNCE4) (some secretKey) v

/-- The strings that the secret key and that the resource are expanded to agree on the bytes a key
of length `n` takes from them. -/
def SourcesAgree (R : Runtime) (n : ℕ) (secretKey : Utf16) (userHostAddr : NString) : Prop :=
  ∀ i < n, keyStream (keySource n secretKey userHostAddr) i =
    keyStream (keySource n (R.getValue Constants.BOUNCE4) (some secretKey)) i

instance (n : ℕ) (secretKey : Utf16) (userHostAddr : NString) :
    Decidable (SourcesAgree R n secretKey userHostAddr) :=
  inferInstanceAs (Decidable (∀ i < n, _))

theorem holdsDerivedKeys_install_iff {n : ℕ} {secretKey : Utf16} (hs : secretKey ≠ [])
    {addr : NString} {o : CryptBounceCastle} :
    HoldsDerivedKeys R n secretKey addr (.ok (), install R n secretKey o) ↔
      SourcesAgree R n secretKey addr := by
  have hr : R.getValue Constants.BOUNCE4 ≠ [] := R.getValue_ne_nil (by decide)
  have hkey : HoldsDerivedKeys R n secretKey addr (.ok (), install R n secretKey o) ↔
      userKeyBytes n secretKey addr = installedBytes R n secretKey := by
    constructor
    · rintro ⟨-, ⟨k, hk, -, hd⟩, -⟩
      rw [derives_iff hs] at hd
      exact hd.symm.trans (Option.some.inj hk).symm
    · intro h
      exact ⟨rfl, ⟨_, rfl, length_spread _ _, (derives_iff hs).2 h.symm⟩, _, rfl,
        (derives_iff hr).2 rfl⟩
  rw [hkey]
  exact spread_eq_spread_iff

/-- **When an initialised object holds the caller's key**: exactly when the expanded secret and the
expanded resource agree. -/
theorem holdsDerivedKeys_iff (R : Runtime) (path : InitPath) (o : CryptBounceCastle)
    (userHostAddr : NString) (secretKey : Utf16) (hs : secretKey ≠ [])
    (hn : 0 < path.keyLen o) :
    HoldsDerivedKeys R (path.keyLen o).toNat secretKey userHostAddr
        ((path.call R userHostAddr (some secretKey)).run o) ↔
      SourcesAgree R (path.keyLen o).toNat secretKey userHostAddr := by
  have hn : path.keyLen o = ((path.keyLen o).toNat : Int) := by omega
  rw [run_initPath hn hs, holdsDerivedKeys_install_iff hs]

/-- The deployment's resource itself, used as a secret key, is installed as the key. -/
theorem holdsDerivedKeys_resource :
    let R := (Deployment.resx (fun _ _ => 0) (· == ·)).toRuntime
    HoldsDerivedKeys R 32 (R.getValue Constants.BOUNCE4) (some [])
      (((InitPath.constructor none 256 32 (some (.ofString "ECB"))).call R (some [])
        (some (R.getValue Constants.BOUNCE4))).run blank) :=
  (holdsDerivedKeys_iff (Deployment.resx (fun _ _ => 0) (· == ·)).toRuntime
    (.constructor none 256 32 (some (.ofString "ECB"))) blank (some []) _
    (Runtime.getValue_ne_nil _ (by decide)) (by decide)).2 (by decide)

/-- Another secret key is not: the cipher is keyed with bytes of the resource. -/
theorem not_holdsDerivedKeys_secret :
    let R := (Deployment.resx (fun _ _ => 0) (· == ·)).toRuntime
    ¬ HoldsDerivedKeys R 32 (.ofString "correct horse battery staple") (some (.ofString "::1"))
      (((InitPath.constructor none 256 32 (some (.ofString "ECB"))).call R
        (some (.ofString "::1")) (some (.ofString "correct horse battery staple"))).run blank) := by
  intro R
  have hs : Utf16.ofString "correct horse battery staple" ≠ [] := by decide
  rw [run_initPath (n := 32) rfl hs, holdsDerivedKeys_install_iff hs]
  decide

end CryptBounceCastle

end Server6
