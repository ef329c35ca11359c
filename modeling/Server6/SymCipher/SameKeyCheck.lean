import Server6.SymCipher.Crypt
import Server6.SymCipher.ZenMatrixStates

/-!
# The same-key check of the static classes

A keying call without `init` answers whether the class holds the key of its arguments, by comparing
the secret key with the one it remembers. What it compares is the case-insensitive text of one of
the two strings that the key material comes from.

* `Told` is what the calls so far have told a class, and `Told.material` the key material that
  follows from it, byte by byte.
* `remembers_finalState`: whatever has been called, a class remembers and holds what it was told.
* `sameKeyCheck_iff` is when the check tells keys apart and recognises the one it was given.
-/

namespace Server6

open Method

/-- The key material of a static class: two arrays, for `Aes` those of its algorithm as well, and for
the matrix cipher its two matrices. -/
inductive KeyMaterial
  | arrays (key iv : Bytes)
  | algorithm (aesKey aesIv algoKey algoIv : Bytes)
  | matrices (matrixPermKey matrixReverse : List Int)
  deriving DecidableEq

namespace StaticClass

/-- The secret key a class remembers. -/
def privateKey (cls : StaticClass) (p : Process) : Utf16 :=
  match cls with
  | .fish2 => p.fish2.privateKey
  | .fish3 => p.fish3.privateKey
  | .des3 => p.des3.privateKey
  | .aes => p.aes.privateKey
  | .rijndael => p.rijndael.privateKey
  | .serpent => p.serpent.privateKey
  | .zenMatrix => p.zenMatrix.privateKey

/-- The key material it holds. -/
def keyMaterial (cls : StaticClass) (p : Process) : KeyMaterial :=
  match cls with
  | .fish2 => .arrays p.fish2.key.toList p.fish2.iv.toList
  | .fish3 => .arrays p.fish3.key.toList p.fish3.iv.toList
  | .des3 => .arrays p.des3.key.toList p.des3.iv.toList
  | .aes => .algorithm p.aes.aesKey.toList p.aes.aesIv.toList p.aes.algoKey.toList
      p.aes.algoIv.toList
  | .rijndael => .arrays p.rijndael.key.toList p.rijndael.iv.toList
  | .serpent => .arrays p.serpent.key.toList p.serpent.iv.toList
  | .zenMatrix => .matrices p.zenMatrix.matrixPermKey p.zenMatrix.matrixReverse

/-! ## The bytes of a key -/

def keyLen : StaticClass → ℕ
  | .fish2 => 32
  | .fish3 => 32
  | .des3 => 24
  | .aes => 32
  | .rijndael => 32
  | .serpent => 16
  | .zenMatrix => 0

def ivLen : StaticClass → ℕ
  | .fish2 => 32
  | .fish3 => 32
  | .des3 => 8
  | .aes => 16
  | .rijndael => 16
  | .serpent => 16
  | .zenMatrix => 0

/-- Whether the class derives its initial vector from the user hash, followed by the secret key. -/
def hashFirst : StaticClass → Bool
  | .fish2 => true
  | .fish3 => true
  | .des3 => false
  | .aes => false
  | .rijndael => true
  | .serpent => true
  | .zenMatrix => false

/-- What a resource decodes to. -/
def resource (R : Runtime) (key : Utf16) : Bytes := (R.resourceBytes key).toOption.getD []

/-- The bytes the key is copied from where there is no secret key. -/
def builtInKey (R : Runtime) : StaticClass → Bytes
  | .fish2 => resource R Constants.BOUNCEK
  | .fish3 => spread 32 (CryptHelper.keySource 32 (R.getValue Constants.BOUNCEK)
      (some (R.getValue Constants.BOUNCE4)))
  | .des3 => resource R Constants.DES3_KEY
  | .aes => resource R Constants.AES_KEY
  | .rijndael => resource R Constants.AES_KEY
  | .serpent => resource R Constants.BOUNCEK
  | .zenMatrix => []

/-- The bytes the initial vector is copied from. -/
def builtInIv (R : Runtime) : StaticClass → Bytes
  | .fish2 => resource R Constants.BOUNCE4
  | .fish3 => spread 32 (CryptHelper.keySource 32 (R.getValue Constants.BOUNCE4)
      (some (R.getValue Constants.BOUNCEK)))
  | .des3 => resource R Constants.DES3_IV
  | .aes => resource R Constants.AES_IV
  | .rijndael => resource R Constants.AES_IV
  | .serpent => resource R Constants.BOUNCE4
  | .zenMatrix => []

section Bytes

variable (R : Runtime) (cls : StaticClass) (secretKey usrHash : NString)

/-- Byte `i` of the key. -/
def keyByte (i : ℕ) : UInt8 :=
  if isNullOrEmpty secretKey then (cls.builtInKey R).getD i 0
  else keyStream (CryptHelper.keySource cls.keyLen (orEmpty secretKey) usrHash) i

/-- Byte `i` of the initial vector. -/
def ivByte (i : ℕ) : UInt8 :=
  if isNullOrEmpty secretKey then (cls.builtInIv R).getD i 0
  else if cls.hashFirst then
    keyStream (CryptHelper.keySource cls.ivLen (orEmpty usrHash) secretKey) i
  else keyStream (CryptHelper.keySource cls.ivLen (orEmpty secretKey) usrHash) i

def keyBytes : Bytes := (List.range cls.keyLen).map (cls.keyByte R secretKey usrHash)

def ivBytes : Bytes := (List.range cls.ivLen).map (cls.ivByte R secretKey usrHash)

/-- The derivation of the initial vector throws: it takes it from a user hash that is null. -/
def Refuses : Prop := cls.hashFirst = true ∧ isNullOrEmpty secretKey = false ∧ usrHash = none

instance : Decidable (cls.Refuses secretKey usrHash) := inferInstanceAs (Decidable (_ ∧ _ ∧ _))

/-- The secret key the class remembers after it was given one. -/
def remembers : Utf16 :=
  if cls = .zenMatrix then ZenMatrix.heldKey secretKey else orEmpty secretKey

end Bytes

end StaticClass

/-! ## What a class has been told -/

/-- A call that sets static fields of the seven classes. -/
inductive StaticCall
  | genWithKey (cls : StaticClass) (secretKey usrHash : NString) (init : Bool)
  | initMatrixSymChiffer
  | getMatrixPermutation (key : NString)

/-- The call, without its result. -/
def StaticCall.call (R : Runtime) : StaticCall → Method Exn Process Unit
  | .genWithKey cls secretKey usrHash init => do
    let _ ← cls.genWithKey R secretKey usrHash init
  | .initMatrixSymChiffer => ZenMatrix.initMatrixSymChiffer.on Process.zenMatrix
      fun p s => { p with zenMatrix := s }
  | .getMatrixPermutation key => do
    let _ ← (ZenMatrix.getMatrixPermutation key).on Process.zenMatrix
      fun p s => { p with zenMatrix := s }

/-- What the calls so far have told a class: the secret key to remember, the secret key and the user
hash of the last call that has keyed it, and the key of the last `GetMatrixPermutation`, or the
empty one if the matrices have been reset since. -/
structure Told where
  remembered : Utf16
  secretKey : NString
  usrHash : NString
  permutation : Utf16

namespace Told

/-- In the beginning it was told nothing. -/
def nothing : Told := ⟨[], none, none, []⟩

/-- What a call adds. -/
def step (cls : StaticClass) (t : Told) : StaticCall → Told
  | .genWithKey c secretKey usrHash init =>
    if c = cls ∧ init = true then
      if cls.Refuses secretKey usrHash then
        { t with remembered := cls.remembers secretKey }
      else ⟨cls.remembers secretKey, secretKey, usrHash, []⟩
    else t
  | .initMatrixSymChiffer => { t with permutation := [] }
  | .getMatrixPermutation key => { t with permutation := orEmpty key }

/-- What a list of calls tells it. -/
def after (cls : StaticClass) (calls : List StaticCall) : Told := calls.foldl (step cls) nothing

/-- The key material of a class that was told this. -/
def material (R : Runtime) (cls : StaticClass) (t : Told) : KeyMaterial :=
  match cls with
  | .aes => .algorithm (StaticClass.aes.keyBytes R t.secretKey t.usrHash)
      (StaticClass.aes.ivBytes R t.secretKey t.usrHash)
      (StaticClass.aes.keyBytes R t.secretKey t.usrHash)
      (StaticClass.aes.ivBytes R t.secretKey t.usrHash)
  | .zenMatrix => .matrices (ZenMatrix.table (ZenMatrix.keySchedule (Utf16.utf8 t.permutation)))
      (ZenMatrix.table (ZenMatrix.keySchedule (Utf16.utf8 t.permutation)).symm)
  | cls => .arrays (cls.keyBytes R t.secretKey t.usrHash) (cls.ivBytes R t.secretKey t.usrHash)

end Told

/-- A class remembers and holds what it was told. -/
structure Remembers (R : Runtime) (cls : StaticClass) (t : Told) (p : Process) : Prop where
  privateKey : cls.privateKey p = t.remembered
  keyMaterial : cls.keyMaterial p = t.material R cls

/-! ## What a scheme derives -/

namespace Scheme

variable {keyLen ivLen : ℕ}

/-- The derivation of an initial vector of `n` bytes. -/
def deriveIv (R : Runtime) (cls : StaticClass) (secretKey usrHash : NString) (n : ℕ) :
    Except Exn Bytes :=
  if cls.hashFirst then CryptHelper.getUserKeyBytes R usrHash secretKey n
  else CryptHelper.getUserKeyBytes R secretKey usrHash n

/-- A scheme derives the bytes of a class. -/
structure Describes (S : Scheme keyLen ivLen) (R : Runtime) (cls : StaticClass) : Prop where
  keyLen_eq : cls.keyLen = keyLen
  ivLen_eq : cls.ivLen = ivLen
  builtIn : S.builtIn R = .ok (cls.builtInKey R, cls.builtInIv R)
  derive : ∀ secretKey usrHash, S.derive R secretKey usrHash = do
    let key ← CryptHelper.getUserKeyBytes R secretKey usrHash keyLen
    let iv ← deriveIv R cls secretKey usrHash ivLen
    return (key, iv)

theorem map_range_getD {bs : Bytes} {n : ℕ} (h : n ≤ bs.length) :
    (List.range n).map (fun i => bs.getD i 0) = bs.take n := by
  apply List.ext_getElem
  · simp [h]
  · intro i hi _
    have hi : i < n := by simpa using hi
    simp [List.getElem_take, hi.trans_le h]

theorem toList_copyArray {source : Bytes} {n : ℕ} {bs : Key n} (h : copyArray source n = .ok bs) :
    bs.toList = source.take n := by
  unfold copyArray at h
  split_ifs at h with hn
  cases h
  rfl

variable {S : Scheme keyLen ivLen} {R : Runtime} {cls : StaticClass} {secretKey usrHash : NString}

/-- The initial vector's half of the derivation. -/
theorem deriveIv_eq (h : ¬ cls.Refuses secretKey usrHash) (hk : isNullOrEmpty secretKey = false) :
    deriveIv R cls secretKey usrHash cls.ivLen = .ok (cls.ivBytes R secretKey usrHash) := by
  have hbytes : cls.ivBytes R secretKey usrHash = spread cls.ivLen (if cls.hashFirst then
      CryptHelper.keySource cls.ivLen (orEmpty usrHash) secretKey
      else CryptHelper.keySource cls.ivLen (orEmpty secretKey) usrHash) := by
    refine List.map_congr_left fun i _ => ?_
    unfold StaticClass.ivByte
    rw [hk, if_neg Bool.false_ne_true]
    split <;> rfl
  obtain ⟨k, rfl⟩ : ∃ k, secretKey = some k := by
    cases secretKey with
    | none => cases hk
    | some k => exact ⟨k, rfl⟩
  rw [hbytes, deriveIv]
  split_ifs with hfirst
  · obtain ⟨u, rfl⟩ : ∃ u, usrHash = some u := by
      cases usrHash with
      | none => exact absurd ⟨hfirst, hk, rfl⟩ h
      | some u => exact ⟨u, rfl⟩
    exact CryptHelper.getUserKeyBytes_eq R u _ _
  · exact CryptHelper.getUserKeyBytes_eq R k _ _

/-- What is derived, unless the user hash is missing. -/
theorem Describes.material (hS : S.Describes R cls) (hfits : S.Fits R)
    (h : ¬ cls.Refuses secretKey usrHash) :
    ∃ kv, S.material R secretKey usrHash = .ok kv ∧
      kv.1.take keyLen = cls.keyBytes R secretKey usrHash ∧
      kv.2.take ivLen = cls.ivBytes R secretKey usrHash := by
  obtain ⟨rfl, rfl, hbuiltIn, hderive⟩ := hS
  cases hk : isNullOrEmpty secretKey with
  | true =>
    have hmaterial : S.material R secretKey usrHash =
        .ok (cls.builtInKey R, cls.builtInIv R) := by
      rw [Scheme.material, if_pos hk, hbuiltIn]
    obtain ⟨hkey, hiv⟩ := hfits.length_le _ _ _ hmaterial
    refine ⟨_, hmaterial, ?_, ?_⟩
    · rw [← map_range_getD hkey]
      refine List.map_congr_left fun i _ => ?_
      rw [StaticClass.keyByte, if_pos hk]
    · rw [← map_range_getD hiv]
      refine List.map_congr_left fun i _ => ?_
      rw [StaticClass.ivByte, if_pos hk]
  | false =>
    have hbytes : cls.keyBytes R secretKey usrHash = spread cls.keyLen
        (CryptHelper.keySource cls.keyLen (orEmpty secretKey) usrHash) := by
      refine List.map_congr_left fun i _ => ?_
      rw [StaticClass.keyByte, if_neg (by rw [hk]; exact Bool.false_ne_true)]
    have hkey : CryptHelper.getUserKeyBytes R secretKey usrHash cls.keyLen =
        .ok (cls.keyBytes R secretKey usrHash) := by
      rw [hbytes]
      cases secretKey with
      | none => cases hk
      | some k => exact CryptHelper.getUserKeyBytes_eq R k _ _
    refine ⟨(cls.keyBytes R secretKey usrHash, cls.ivBytes R secretKey usrHash), ?_, ?_, ?_⟩
    · rw [Scheme.material, if_neg (by rw [hk]; exact Bool.false_ne_true), hderive, hkey, ok_bind,
        deriveIv_eq h hk, ok_bind]
      rfl
    · exact List.take_of_length_le (by simp [StaticClass.keyBytes])
    · exact List.take_of_length_le (by simp [StaticClass.ivBytes])

theorem Describes.derived (hS : S.Describes R cls) (hfits : S.Fits R)
    (h : ¬ cls.Refuses secretKey usrHash) :
    ∃ kv, S.derived R secretKey usrHash = .ok kv ∧
      kv.1.toList = cls.keyBytes R secretKey usrHash ∧
      kv.2.toList = cls.ivBytes R secretKey usrHash := by
  obtain ⟨m, hm, hkey, hiv⟩ := hS.material hfits h
  obtain ⟨key, iv, hk, hv, hd⟩ := derived_of_material hfits hm
  exact ⟨(key, iv), hd, (toList_copyArray hk).trans hkey, (toList_copyArray hv).trans hiv⟩

theorem Describes.derived_refused (hS : S.Describes R cls) (h : cls.Refuses secretKey usrHash) :
    S.derived R secretKey usrHash = .error .argumentNull := by
  obtain ⟨hfirst, hk, rfl⟩ := h
  refine derived_of_material_error ?_
  rw [Scheme.material, if_neg (by rw [hk]; exact Bool.false_ne_true), hS.derive, deriveIv,
    if_pos hfirst]
  cases secretKey with
  | none => cases hk
  | some k =>
    rw [CryptHelper.getUserKeyBytes_eq, ok_bind, CryptHelper.getUserKeyBytes_none, error_bind]

end Scheme

/-! ## One keying call -/

namespace StaticClass

/-- What a class has been told by one keying call that returned. -/
def tells (cls : StaticClass) (secretKey usrHash : NString) : Told :=
  ⟨cls.remembers secretKey, secretKey, usrHash, []⟩

/-- What a keying call with `init` answers and leaves in its class. -/
structure Keys (R : Runtime) (cls : StaticClass) (secretKey usrHash : NString)
    (p : Process) (outcome : Except Exn Bool × Process) : Prop where
  privateKey : cls.privateKey outcome.2 = cls.remembers secretKey
  refused : cls.Refuses secretKey usrHash →
    outcome.1 = .error .argumentNull ∧ cls.keyMaterial outcome.2 = cls.keyMaterial p
  keyed : ¬ cls.Refuses secretKey usrHash →
    outcome.1 = .ok true ∧ cls.keyMaterial outcome.2 = (cls.tells secretKey usrHash).material R cls

/-- The classes with arrays keep them in the component of their scheme. -/
structure SchemeClass.Holds {cls : StaticClass} (C : SchemeClass cls) (D : Deployment) : Prop where
  privateKey : ∀ p, cls.privateKey p = (C.get p).privateKey
  keyMaterial : ∀ p, cls.keyMaterial p = .arrays (C.get p).key.toList (C.get p).iv.toList
  remembers : ∀ secretKey, cls.remembers secretKey = orEmpty secretKey
  material : ∀ t : Told, t.material D.toRuntime cls =
    .arrays (cls.keyBytes D.toRuntime t.secretKey t.usrHash)
      (cls.ivBytes D.toRuntime t.secretKey t.usrHash)
  describes : C.scheme.Describes D.toRuntime cls

namespace SchemeClass.Holds

variable {cls : StaticClass} {C : SchemeClass cls} {D : Deployment} {secretKey usrHash : NString}

theorem keys (h : C.Holds D) (p : Process) :
    Keys D.toRuntime cls secretKey usrHash p
      ((cls.genWithKey D.toRuntime secretKey usrHash true).run p) := by
  rw [C.genWithKey, run_on]
  by_cases hrefuses : cls.Refuses secretKey usrHash
  · obtain ⟨t, hrun, hk, hv, hprivateKey⟩ := Scheme.run_genWithKey_error (C.fits D)
      (h.describes.derived_refused hrefuses) (C.get p)
    rw [hrun]
    refine ⟨?_, fun _ => ⟨rfl, ?_⟩, fun hnot => absurd hrefuses hnot⟩
    · rw [h.privateKey, C.get_set, hprivateKey, h.remembers]
    · rw [h.keyMaterial, h.keyMaterial, C.get_set, hk, hv]
  · obtain ⟨kv, hkv, hkey, hiv⟩ := h.describes.derived (C.fits D) hrefuses
    obtain ⟨t, hrun, hk, hv, hprivateKey⟩ := Scheme.run_genWithKey_ok (C.fits D) hkv (C.get p)
    rw [hrun]
    refine ⟨?_, fun h => absurd h hrefuses, fun _ => ⟨rfl, ?_⟩⟩
    · rw [h.privateKey, C.get_set, hprivateKey, h.remembers]
    · rw [h.keyMaterial, h.material, C.get_set, hk, hv, hkey, hiv]
      rfl

theorem run_check (h : C.Holds D) (p : Process) :
    (cls.genWithKey D.toRuntime secretKey usrHash false).run p =
      (.ok (!D.toRuntime.differs (cls.privateKey p) secretKey), p) := by
  rw [C.genWithKey, run_on, Scheme.run_genWithKey_false, C.set_get, h.privateKey]

end SchemeClass.Holds

section Classes

variable (D : Deployment)

theorem resourceBytes_eq {r : Utf16 × ℕ} (hr : r ∈ keyResources) :
    D.resourceBytes r.1 = .ok (resource D.toRuntime r.1) := by
  obtain ⟨bs, hbs, -⟩ := D.resources r hr
  rw [resource, hbs]
  rfl

/-- Two resources in a row. -/
theorem resourcePair_eq (key iv : Utf16 × ℕ) (hk : key ∈ keyResources) (hv : iv ∈ keyResources) :
    (do
      let k ← D.resourceBytes key.1
      let v ← D.resourceBytes iv.1
      return (k, v)) = Except.ok (resource D.toRuntime key.1, resource D.toRuntime iv.1) := by
  rw [resourceBytes_eq D hk, ok_bind, resourceBytes_eq D hv]
  rfl

/-- Two derivations in a row. -/
theorem userKeyPair_eq (R : Runtime) (a c : Utf16) (b d : NString) (n m : ℕ) :
    (do
      let k ← CryptHelper.getUserKeyBytes R (some a) b n
      let v ← CryptHelper.getUserKeyBytes R (some c) d m
      return (k, v)) =
        Except.ok (spread n (CryptHelper.keySource n a b), spread m (CryptHelper.keySource m c d)) := by
  rw [CryptHelper.getUserKeyBytes_eq, ok_bind, CryptHelper.getUserKeyBytes_eq]
  rfl

theorem holds_fish2 : SchemeClass.fish2.Holds D where
  privateKey _ := rfl
  keyMaterial _ := rfl
  remembers _ := rfl
  material _ := rfl
  describes :=
    { keyLen_eq := rfl
      ivLen_eq := rfl
      builtIn := resourcePair_eq D (Constants.BOUNCEK, 32) (Constants.BOUNCE4, 32)
        (by simp [keyResources]) (by simp [keyResources])
      derive := fun _ _ => rfl }

theorem holds_fish3 : SchemeClass.fish3.Holds D where
  privateKey _ := rfl
  keyMaterial _ := rfl
  remembers _ := rfl
  material _ := rfl
  describes :=
    { keyLen_eq := rfl
      ivLen_eq := rfl
      builtIn := userKeyPair_eq D.toRuntime _ _ _ _ 32 32
      derive := fun _ _ => rfl }

theorem holds_des3 : SchemeClass.des3.Holds D where
  privateKey _ := rfl
  keyMaterial _ := rfl
  remembers _ := rfl
  material _ := rfl
  describes :=
    { keyLen_eq := rfl
      ivLen_eq := rfl
      builtIn := resourcePair_eq D (Constants.DES3_KEY, 24) (Constants.DES3_IV, 8)
        (by simp [keyResources]) (by simp [keyResources])
      derive := fun _ _ => rfl }

theorem holds_rijndael : SchemeClass.rijndael.Holds D where
  privateKey _ := rfl
  keyMaterial _ := rfl
  remembers _ := rfl
  material _ := rfl
  describes :=
    { keyLen_eq := rfl
      ivLen_eq := rfl
      builtIn := resourcePair_eq D (Constants.AES_KEY, 32) (Constants.AES_IV, 16)
        (by simp [keyResources]) (by simp [keyResources])
      derive := fun _ _ => rfl }

theorem holds_serpent : SchemeClass.serpent.Holds D where
  privateKey _ := rfl
  keyMaterial _ := rfl
  remembers _ := rfl
  material _ := rfl
  describes :=
    { keyLen_eq := rfl
      ivLen_eq := rfl
      builtIn := resourcePair_eq D (Constants.BOUNCEK, 32) (Constants.BOUNCE4, 32)
        (by simp [keyResources]) (by simp [keyResources])
      derive := fun _ _ => rfl }

theorem describes_aes : Aes.scheme.Describes D.toRuntime .aes where
  keyLen_eq := rfl
  ivLen_eq := rfl
  builtIn := resourcePair_eq D (Constants.AES_KEY, 32) (Constants.AES_IV, 16)
    (by simp [keyResources]) (by simp [keyResources])
  derive _ _ := rfl

/-- **What a keying call with `init` does to its class.** -/
theorem keys (cls : StaticClass) (secretKey usrHash : NString) (p : Process) :
    Keys D.toRuntime cls secretKey usrHash p
      ((cls.genWithKey D.toRuntime secretKey usrHash true).run p) := by
  cases cls with
  | fish2 => exact (holds_fish2 D).keys p
  | fish3 => exact (holds_fish3 D).keys p
  | des3 => exact (holds_des3 D).keys p
  | rijndael => exact (holds_rijndael D).keys p
  | serpent => exact (holds_serpent D).keys p
  | aes =>
    have hnot : ¬ StaticClass.aes.Refuses secretKey usrHash := fun h => Bool.false_ne_true h.1
    obtain ⟨kv, hkv, hkey, hiv⟩ := (describes_aes D).derived (Aes.fits D) hnot
    rw [genWithKey, run_on, Aes.run_aesGenWithNewKey_ok (Aes.fits D) hkv]
    refine ⟨rfl, fun h => absurd h hnot, fun _ => ⟨rfl, ?_⟩⟩
    simp only [keyMaterial, Told.material, tells, hkey, hiv]
  | zenMatrix =>
    have hnot : ¬ StaticClass.zenMatrix.Refuses secretKey usrHash := fun h => Bool.false_ne_true h.1
    rw [genWithKey, run_on, ZenMatrix.run_zenMatrixGenWithKey]
    exact ⟨rfl, fun h => absurd h hnot, fun _ => ⟨rfl, rfl⟩⟩

/-- **What one without `init` does**: nothing. -/
theorem run_check (cls : StaticClass) (secretKey usrHash : NString) {p : Process}
    (hp : p.aes.Synced) :
    (cls.genWithKey D.toRuntime secretKey usrHash false).run p =
      (.ok (!D.toRuntime.differs (cls.privateKey p) secretKey), p) := by
  cases cls with
  | fish2 => exact (holds_fish2 D).run_check p
  | fish3 => exact (holds_fish3 D).run_check p
  | des3 => exact (holds_des3 D).run_check p
  | rijndael => exact (holds_rijndael D).run_check p
  | serpent => exact (holds_serpent D).run_check p
  | aes =>
    rw [genWithKey, run_on, Aes.run_aesGenWithNewKey_false D.toRuntime secretKey usrHash hp]
    rfl
  | zenMatrix =>
    rw [genWithKey, run_on, ZenMatrix.run_zenMatrixGenWithKey_false]
    rfl

/-- A keying call touches no other class. -/
theorem untouched {c cls : StaticClass} (hne : c ≠ cls) (R : Runtime)
    (secretKey usrHash : NString) (init : Bool) (p : Process) :
    let p' := ((c.genWithKey R secretKey usrHash init).run p).2
    cls.privateKey p' = cls.privateKey p ∧ cls.keyMaterial p' = cls.keyMaterial p := by
  cases c <;> cases cls <;> first | exact absurd rfl hne | exact ⟨rfl, rfl⟩

end Classes

end StaticClass

/-! ## The fresh process -/

theorem Scheme.Describes.start {keyLen ivLen : ℕ} {S : Scheme keyLen ivLen} {R : Runtime}
    {cls : StaticClass} (hS : S.Describes R cls) (hfits : S.Fits R) :
    ∃ s, S.start R = .ok s ∧ s.privateKey = [] ∧
      KeyMaterial.arrays s.key.toList s.iv.toList =
        .arrays (cls.keyBytes R none none) (cls.ivBytes R none none) := by
  have hnot : ¬ cls.Refuses none none := fun h => Bool.false_ne_true h.2.1.symm
  obtain ⟨kv, s, hd, hs, hk, hv, hprivateKey⟩ := Scheme.start_ok hfits
  obtain ⟨kv', hd', hkey, hiv⟩ := hS.derived hfits hnot
  obtain rfl : kv = kv' := Except.ok.inj (hd.symm.trans hd')
  refine ⟨s, hs, hprivateKey, ?_⟩
  rw [hk, hv, hkey, hiv]

theorem Aes.start_eq (D : Deployment) :
    ∃ s, Aes.start D.toRuntime = .ok s ∧ s.privateKey = [] ∧
      KeyMaterial.algorithm s.aesKey.toList s.aesIv.toList s.algoKey.toList s.algoIv.toList =
        Told.nothing.material D.toRuntime .aes := by
  have hnot : ¬ StaticClass.aes.Refuses none none := fun h => Bool.false_ne_true h.1
  obtain ⟨kv, s, hd, hs, hsync, hk, hv, hprivateKey⟩ := Aes.start_ok (Aes.fits D)
  obtain ⟨kv', hd', hkey, hiv⟩ := (StaticClass.describes_aes D).derived (Aes.fits D) hnot
  obtain rfl : kv = kv' := Except.ok.inj (hd.symm.trans hd')
  refine ⟨s, hs, hprivateKey, ?_⟩
  rw [← hsync.algoKey, ← hsync.algoIv, hk, hv, hkey, hiv]
  rfl

/-- The static constructors leave what a class holds that has been told nothing. -/
theorem remembers_initial (D : Deployment) (cls : StaticClass) :
    Remembers D.toRuntime cls .nothing D.initial := by
  obtain ⟨s₁, hs₁, hp₁, hm₁⟩ := Scheme.Describes.start (S := Fish2.scheme)
    (StaticClass.holds_fish2 D).describes (Fish2.fits D)
  obtain ⟨s₂, hs₂, hp₂, hm₂⟩ := Scheme.Describes.start (S := Fish3.scheme)
    (StaticClass.holds_fish3 D).describes (Fish3.fits D.toRuntime)
  obtain ⟨s₃, hs₃, hp₃, hm₃⟩ := Scheme.Describes.start (S := Des3.scheme)
    (StaticClass.holds_des3 D).describes (Des3.fits D)
  obtain ⟨s₄, hs₄, hp₄, hm₄⟩ := Aes.start_eq D
  obtain ⟨s₅, hs₅, hp₅, hm₅⟩ := Scheme.Describes.start (S := Rijndael.scheme)
    (StaticClass.holds_rijndael D).describes (Rijndael.fits D)
  obtain ⟨s₆, hs₆, hp₆, hm₆⟩ := Scheme.Describes.start (S := Serpent.scheme)
    (StaticClass.holds_serpent D).describes (Serpent.fits D)
  have hstart : Process.start D.toRuntime = .ok ⟨s₁, s₂, s₃, s₄, s₅, s₆, ZenMatrix.initial⟩ := by
    rw [Process.start, hs₁, ok_bind, hs₂, ok_bind, hs₃, ok_bind, hs₄, ok_bind, hs₅, ok_bind, hs₆]
    rfl
  have hinitial := Except.ok.inj ((D.initial_spec.1).symm.trans hstart)
  rw [hinitial]
  cases cls with
  | fish2 => exact ⟨hp₁, hm₁⟩
  | fish3 => exact ⟨hp₂, hm₂⟩
  | des3 => exact ⟨hp₃, hm₃⟩
  | aes => exact ⟨hp₄, hm₄⟩
  | rijndael => exact ⟨hp₅, hm₅⟩
  | serpent => exact ⟨hp₆, hm₆⟩
  | zenMatrix =>
    have hzen := ZenMatrix.initial_eq_identity
    constructor
    · show ZenMatrix.initial.privateKey = []
      rw [hzen]
      rfl
    · show KeyMaterial.matrices ZenMatrix.initial.matrixPermKey ZenMatrix.initial.matrixReverse = _
      rw [hzen]
      rfl

/-! ## Runs of calls -/

theorem Remembers.synced {R : Runtime} {t : Told} {p : Process} (h : Remembers R .aes t p) :
    p.aes.Synced := by
  have hmaterial := h.keyMaterial
  simp only [StaticClass.keyMaterial, Told.material, KeyMaterial.algorithm.injEq] at hmaterial
  obtain ⟨hkey, hiv, halgoKey, halgoIv⟩ := hmaterial
  exact ⟨Vector.toList_inj.1 (halgoKey.trans hkey.symm),
    Vector.toList_inj.1 (halgoIv.trans hiv.symm)⟩

theorem run_genWithKey_call (R : Runtime) (c : StaticClass) (secretKey usrHash : NString)
    (init : Bool) (p : Process) :
    (((StaticCall.genWithKey c secretKey usrHash init).call R).run p).2 =
      ((c.genWithKey R secretKey usrHash init).run p).2 := by
  refine Eq.trans (congrArg Prod.snd (run_bind (c.genWithKey R secretKey usrHash init) _ p)) ?_
  rcases (c.genWithKey R secretKey usrHash init).run p with ⟨_ | _, _⟩ <;> rfl

/-- A call on the matrix cipher alone. -/
theorem Remembers.setMatrices {R : Runtime} {t : StaticClass → Told} {p : Process}
    (h : ∀ cls, Remembers R cls (t cls) p) {z : ZenMatrix} {key : Utf16}
    (hprivateKey : z.privateKey = p.zenMatrix.privateKey)
    (hz : ZenMatrix.Keyed z (ZenMatrix.keySchedule (Utf16.utf8 key))) (cls : StaticClass) :
    Remembers R cls { t cls with permutation := key } { p with zenMatrix := z } := by
  cases cls with
  | zenMatrix =>
    refine ⟨hprivateKey.trans (h .zenMatrix).privateKey, ?_⟩
    simp only [StaticClass.keyMaterial, Told.material, hz.matrixPermKey, hz.matrixReverse]
  | fish2 => exact ⟨(h .fish2).privateKey, (h .fish2).keyMaterial⟩
  | fish3 => exact ⟨(h .fish3).privateKey, (h .fish3).keyMaterial⟩
  | des3 => exact ⟨(h .des3).privateKey, (h .des3).keyMaterial⟩
  | aes => exact ⟨(h .aes).privateKey, (h .aes).keyMaterial⟩
  | rijndael => exact ⟨(h .rijndael).privateKey, (h .rijndael).keyMaterial⟩
  | serpent => exact ⟨(h .serpent).privateKey, (h .serpent).keyMaterial⟩

/-- **One call**: whatever it returns or throws, each class remembers and holds what it has been told
so far. -/
theorem Remembers.step {D : Deployment} {t : StaticClass → Told} {p : Process}
    (h : ∀ cls, Remembers D.toRuntime cls (t cls) p) (c : StaticCall) (cls : StaticClass) :
    Remembers D.toRuntime cls ((t cls).step cls c) ((c.call D.toRuntime).run p).2 := by
  cases c with
  | genWithKey c secretKey usrHash init =>
    rw [run_genWithKey_call]
    by_cases hc : c = cls
    · subst hc
      cases init with
      | false =>
        rw [StaticClass.run_check D c secretKey usrHash (h .aes).synced, Told.step,
          if_neg fun hinit => Bool.false_ne_true hinit.2]
        exact h c
      | true =>
        have hkeys := StaticClass.keys D c secretKey usrHash p
        rw [Told.step, if_pos ⟨rfl, rfl⟩]
        split_ifs with hrefuses
        · exact ⟨hkeys.privateKey, (hkeys.refused hrefuses).2.trans (h c).keyMaterial⟩
        · exact ⟨hkeys.privateKey, (hkeys.keyed hrefuses).2⟩
    · have hsame := StaticClass.untouched hc D.toRuntime secretKey usrHash init p
      rw [Told.step, if_neg fun hinit => hc hinit.1]
      exact ⟨hsame.1.trans (h cls).privateKey, hsame.2.trans (h cls).keyMaterial⟩
  | initMatrixSymChiffer =>
    refine Remembers.setMatrices h ?_ ?_ cls
    · rw [ZenMatrix.run_initMatrixSymChiffer]
    · rw [ZenMatrix.run_initMatrixSymChiffer]
      exact ⟨rfl, rfl⟩
  | getMatrixPermutation key =>
    have hrun : ((StaticCall.getMatrixPermutation key).call D.toRuntime).run p =
        ((((ZenMatrix.getMatrixPermutation key).run p.zenMatrix).1.map fun _ => ()),
          { p with zenMatrix := ((ZenMatrix.getMatrixPermutation key).run p.zenMatrix).2 }) := by
      rw [StaticCall.call, run_bind, run_on]
      rcases (ZenMatrix.getMatrixPermutation key).run p.zenMatrix with ⟨_ | _, _⟩ <;> rfl
    rw [hrun]
    refine Remembers.setMatrices h ?_ ?_ cls
    · cases key with
      | none => rw [ZenMatrix.run_getMatrixPermutation_none]
      | some key => rw [ZenMatrix.run_getMatrixPermutation_some]; rfl
    · cases key with
      | none =>
        rw [ZenMatrix.run_getMatrixPermutation_none]
        exact ⟨rfl, rfl⟩
      | some key =>
        rw [ZenMatrix.run_getMatrixPermutation_some]
        exact ⟨rfl, rfl⟩

/-- **Every class remembers and holds what the calls have told it.** -/
theorem remembers_finalState (D : Deployment) (calls : List StaticCall) (cls : StaticClass) :
    Remembers D.toRuntime cls (Told.after cls calls)
      (finalState (StaticCall.call D.toRuntime) calls D.initial) := by
  have hrun : ∀ (t : StaticClass → Told) (p : Process),
      (∀ cls, Remembers D.toRuntime cls (t cls) p) →
      ∀ cls, Remembers D.toRuntime cls (calls.foldl (Told.step cls) (t cls))
        (finalState (StaticCall.call D.toRuntime) calls p) := by
    induction calls with
    | nil => exact fun t p h => h
    | cons c calls ih =>
      exact fun t p h => ih (fun cls => (t cls).step cls c) _ fun cls => Remembers.step h c cls
  exact hrun (fun _ => .nothing) D.initial (remembers_initial D) cls

/-! ## The check -/

/-- What the check is for: it answers true only where the call with `init` would install what the
class holds, it does so directly after that call, and it changes nothing. -/
structure SameKeyCheck (R : Runtime) (cls : StaticClass) (secretKey usrHash : NString)
    (p : Process) : Prop where
  sound : ((cls.genWithKey R secretKey usrHash false).run p).1 = .ok true →
    ∃ p', (cls.genWithKey R secretKey usrHash true).run p = (.ok true, p') ∧
      cls.keyMaterial p' = cls.keyMaterial p
  complete : ∀ p', (cls.genWithKey R secretKey usrHash true).run p = (.ok true, p') →
    ((cls.genWithKey R secretKey usrHash false).run p').1 = .ok true
  keeps : cls.keyMaterial ((cls.genWithKey R secretKey usrHash false).run p).2 = cls.keyMaterial p

/-- A secret key and a user hash give the bytes that the class has been told. -/
def KeysAgree (R : Runtime) (cls : StaticClass) (t : Told) (secretKey usrHash : NString) : Prop :=
  ¬ cls.Refuses secretKey usrHash ∧
    (∀ i < cls.keyLen, cls.keyByte R t.secretKey t.usrHash i = cls.keyByte R secretKey usrHash i) ∧
    (∀ i < cls.ivLen, cls.ivByte R t.secretKey t.usrHash i = cls.ivByte R secretKey usrHash i) ∧
    (cls = .zenMatrix → IsInvolution (ZenMatrix.nibbles (Utf16.utf8 t.permutation)))

theorem table_pair_inj {σ τ : Equiv.Perm (Fin 16)} :
    KeyMaterial.matrices (ZenMatrix.table σ) (ZenMatrix.table σ.symm) =
      .matrices (ZenMatrix.table τ) (ZenMatrix.table τ.symm) ↔ σ = τ := by
  constructor
  · intro h
    exact ZenMatrix.table_injective (KeyMaterial.matrices.inj h).1
  · rintro rfl
    rfl

/-- What the class holds is what the call would install. -/
theorem material_tells_iff {R : Runtime} {cls : StaticClass} {t : Told}
    {secretKey usrHash : NString} (h : ¬ cls.Refuses secretKey usrHash) :
    (cls.tells secretKey usrHash).material R cls = t.material R cls ↔
      KeysAgree R cls t secretKey usrHash := by
  have hbytes : ∀ (n : ℕ) (f g : ℕ → UInt8),
      (List.range n).map f = (List.range n).map g ↔ ∀ i < n, g i = f i := fun n f g => by
    simp only [List.map_inj_left, List.mem_range, eq_comm]
  unfold KeysAgree
  cases cls with
  | zenMatrix =>
    have hone : ZenMatrix.keySchedule (Utf16.utf8 t.permutation) = 1 ↔
        IsInvolution (ZenMatrix.nibbles (Utf16.utf8 t.permutation)) :=
      swapProd_scheduleOf_eq_one_iff (nodup_firstSeen_nil _)
    refine Iff.trans (table_pair_inj (σ := 1)) ?_
    rw [eq_comm, hone]
    exact ⟨fun hinv => ⟨h, nofun, nofun, fun _ => hinv⟩, fun hagree => hagree.2.2.2 rfl⟩
  | aes =>
    simp only [Told.material, StaticClass.tells, KeyMaterial.algorithm.injEq, StaticClass.keyBytes,
      StaticClass.ivBytes, hbytes]
    exact ⟨fun hb => ⟨h, hb.1, hb.2.1, nofun⟩, fun hb => ⟨hb.2.1, hb.2.2.1, hb.2.1, hb.2.2.1⟩⟩
  | _ =>
    simp only [Told.material, StaticClass.tells, KeyMaterial.arrays.injEq, StaticClass.keyBytes,
      StaticClass.ivBytes, hbytes]
    exact ⟨fun hb => ⟨h, hb.1, hb.2, nofun⟩, fun hb => ⟨hb.2.1, hb.2.2.1⟩⟩

/-- A class recognises the secret key it has been given, unless that is null, or is replaced. -/
theorem differs_remembers_iff {R : Runtime} (hR : R.IgnoresCase) {cls : StaticClass}
    {secretKey : NString} :
    R.differs (cls.remembers secretKey) secretKey = false ↔ secretKey ≠ none ∧
      (cls = .zenMatrix → secretKey = some [] →
        R.equalsIgnoreCase Constants.AUTHOR_EMAIL [] = true) := by
  cases secretKey with
  | none => simp [Runtime.differs, Runtime.equals]
  | some k =>
    by_cases hk : k = []
    · subst hk
      by_cases hcls : cls = .zenMatrix
      · simp [Runtime.differs, Runtime.equals, StaticClass.remembers, hcls, ZenMatrix.heldKey]
      · simp [Runtime.differs, Runtime.equals, StaticClass.remembers, hcls, orEmpty, hR.refl]
    · have hremembers : cls.remembers (some k) = k := by
        simp [StaticClass.remembers, ZenMatrix.heldKey, hk, orEmpty]
      simp [Runtime.differs, Runtime.equals, hremembers, hk, hR.refl]

theorem ok_not_eq_ok_true_iff {b : Bool} :
    (Except.ok (!b) : Except Exn Bool) = .ok true ↔ b = false := by
  cases b <;> simp

/-- The check of a class that remembers and holds what it was told. -/
theorem sameKeyCheck_iff_of_remembers {D : Deployment} (hD : D.IgnoresCase)
    {t : StaticClass → Told} {p : Process} (hp : ∀ cls, Remembers D.toRuntime cls (t cls) p)
    (cls : StaticClass) (secretKey usrHash : NString) :
    SameKeyCheck D.toRuntime cls secretKey usrHash p ↔ secretKey ≠ none ∧
      (cls = .zenMatrix → secretKey = some [] →
        D.equalsIgnoreCase Constants.AUTHOR_EMAIL [] = true) ∧
      (D.differs (t cls).remembered secretKey = false →
        KeysAgree D.toRuntime cls (t cls) secretKey usrHash) := by
  have hcheck := StaticClass.run_check D cls secretKey usrHash (hp .aes).synced
  have hkeys := StaticClass.keys D cls secretKey usrHash p
  rw [(hp cls).privateKey] at hcheck
  -- the state after the call with `init` remembers its secret key
  have hafter : ((cls.genWithKey D.toRuntime secretKey usrHash false).run
      ((cls.genWithKey D.toRuntime secretKey usrHash true).run p).2).1 =
        .ok (!D.differs (cls.remembers secretKey) secretKey) := by
    have hsynced := (Remembers.step hp (.genWithKey cls secretKey usrHash true) .aes).synced
    rw [run_genWithKey_call] at hsynced
    rw [StaticClass.run_check D cls secretKey usrHash hsynced, hkeys.privateKey]
  constructor
  · intro h
    have hrecognises : D.differs (cls.remembers secretKey) secretKey = false := by
      by_cases hrefuses : cls.Refuses secretKey usrHash
      · refine (differs_remembers_iff hD).2 ⟨?_, fun _ hempty => ?_⟩
        · rintro rfl
          exact Bool.false_ne_true hrefuses.2.1.symm
        · rw [hempty] at hrefuses
          exact absurd hrefuses.2.1 (by simp)
      · have hcomplete := h.complete _ (Prod.ext (hkeys.keyed hrefuses).1 rfl)
        exact ok_not_eq_ok_true_iff.1 (hafter.symm.trans hcomplete)
    obtain ⟨hnone, hempty⟩ := (differs_remembers_iff hD).1 hrecognises
    refine ⟨hnone, hempty, fun hsame => ?_⟩
    obtain ⟨p', hrun, hheld⟩ := h.sound (by rw [hcheck, hsame]; rfl)
    have hrefuses : ¬ cls.Refuses secretKey usrHash := fun hrefuses => by
      have hthrows := (hkeys.refused hrefuses).1
      rw [hrun] at hthrows
      cases hthrows
    have hinstalls := (hkeys.keyed hrefuses).2
    rw [hrun] at hinstalls
    rw [← material_tells_iff hrefuses, ← hinstalls, hheld, (hp cls).keyMaterial]
  · rintro ⟨hnone, hempty, hagree⟩
    refine ⟨fun htrue => ?_, fun p' hrun => ?_, by rw [hcheck]⟩
    · rw [hcheck] at htrue
      have hagree := hagree (ok_not_eq_ok_true_iff.1 htrue)
      obtain ⟨hreturns, hinstalls⟩ := hkeys.keyed hagree.1
      refine ⟨_, Prod.ext hreturns rfl, ?_⟩
      rw [hinstalls, (hp cls).keyMaterial]
      exact (material_tells_iff hagree.1).2 hagree
    · rw [hrun] at hafter
      rw [hafter, (differs_remembers_iff hD).2 ⟨hnone, hempty⟩]
      rfl

/-- **When the same-key check is right**, after any calls: exactly when the secret key is one the
class can recognise, and, if it is the remembered one up to case, it gives with its hash the bytes
that the last keying call gave. -/
theorem sameKeyCheck_iff (D : Deployment) (hD : D.IgnoresCase) (calls : List StaticCall)
    (cls : StaticClass) (secretKey usrHash : NString) :
    SameKeyCheck D.toRuntime cls secretKey usrHash
        (finalState (StaticCall.call D.toRuntime) calls D.initial) ↔
      secretKey ≠ none ∧
        (cls = .zenMatrix → secretKey = some [] →
          D.equalsIgnoreCase Constants.AUTHOR_EMAIL [] = true) ∧
        (D.differs (Told.after cls calls).remembered secretKey = false →
          KeysAgree D.toRuntime cls (Told.after cls calls) secretKey usrHash) :=
  sameKeyCheck_iff_of_remembers hD (remembers_finalState D calls) cls secretKey usrHash

/-- A call that has keyed `Aes` for one address. -/
def keyedForAddress : List StaticCall :=
  [.genWithKey .aes (some (.ofString "secret")) (some (.ofString "10.0.0.1")) true]

/-- With the same secret key and hash the check is right. -/
theorem sameKeyCheck_sameAddress :
    SameKeyCheck Deployment.ascii.toRuntime .aes (some (.ofString "secret"))
      (some (.ofString "10.0.0.1"))
      (finalState (StaticCall.call Deployment.ascii.toRuntime) keyedForAddress
        Deployment.ascii.initial) :=
  (sameKeyCheck_iff Deployment.ascii Deployment.ignoresCase_ascii keyedForAddress .aes _ _).2
    ⟨nofun, nofun, fun _ => ⟨fun h => Bool.false_ne_true h.1, fun _ _ => rfl, fun _ _ => rfl, nofun⟩⟩

/-- With another hash it answers true, and the key is another one. -/
theorem not_sameKeyCheck_otherAddress :
    ¬ SameKeyCheck Deployment.ascii.toRuntime .aes (some (.ofString "secret"))
      (some (.ofString "10.0.0.2"))
      (finalState (StaticCall.call Deployment.ascii.toRuntime) keyedForAddress
        Deployment.ascii.initial) := by
  rw [sameKeyCheck_iff_of_remembers Deployment.ignoresCase_ascii
    (remembers_finalState Deployment.ascii keyedForAddress)]
  rintro ⟨-, -, hagree⟩
  have hbyte := (hagree (by decide)).2.1 13 (by decide)
  exact absurd hbyte (by decide)

end Server6
