import Server6.SymCipher.BounceCastle

/-!
# What an object's past leaves in its keys

A `CryptBounceCastle` is created by one of its constructors and keyed again any number of times. The
address that a keying call without a secret key derives from is the one in the object, so two
objects with different pasts may come out of one and the same call with different keys.
`sameKeys_iff` is when they do not: with a secret key, with a resource long enough for the key, or
with addresses that make no difference to the bytes taken.
-/

namespace Server6

namespace CryptBounceCastle

open Method

/-! ## Histories -/

/-- A `new CryptBounceCastle`. -/
inductive Creation
  | default
  | constructor (blockCipher : Option Engine) (size keyLen : Int)
      (mode userHostAddr secretKey : NString) (init : Bool)

/-- The constructor, run. -/
def Creation.call (R : Runtime) : Creation → Method Exn CryptBounceCastle Unit
  | .default => defaultConstructor R
  | .constructor blockCipher size keyLen mode userHostAddr secretKey init =>
    CryptBounceCastle.constructor R blockCipher size keyLen mode userHostAddr secretKey init

/-- The calls that key an existing object. -/
inductive KeyCall
  | initBounceCastleAlgo (blockCipher : Option Engine) (size keyLen : Int)
      (mode userHostAddr secretKey : NString) (init : Bool)
  | cryptBounceCastleGenWithKey (userHostAddr secretKey : NString) (init : Bool)

namespace KeyCall

/-- The call, without its result. -/
def call (R : Runtime) : KeyCall → Method Exn CryptBounceCastle Unit
  | .initBounceCastleAlgo blockCipher size keyLen mode userHostAddr secretKey init => do
    let _ ← CryptBounceCastle.initBounceCastleAlgo R blockCipher size keyLen mode userHostAddr
      secretKey init
  | .cryptBounceCastleGenWithKey userHostAddr secretKey init => do
    let _ ← CryptBounceCastle.cryptBounceCastleGenWithKey R userHostAddr secretKey init

def userHostAddr : KeyCall → NString
  | .initBounceCastleAlgo _ _ _ _ userHostAddr _ _ => userHostAddr
  | .cryptBounceCastleGenWithKey userHostAddr _ _ => userHostAddr

def secretKey : KeyCall → NString
  | .initBounceCastleAlgo _ _ _ _ _ secretKey _ => secretKey
  | .cryptBounceCastleGenWithKey _ secretKey _ => secretKey

def init : KeyCall → Bool
  | .initBounceCastleAlgo _ _ _ _ _ _ init => init
  | .cryptBounceCastleGenWithKey _ _ init => init

/-- The initialising path the call takes if `init` is true. -/
def path : KeyCall → InitPath
  | .initBounceCastleAlgo blockCipher size keyLen mode _ _ _ =>
    .initBounceCastleAlgo blockCipher size keyLen mode
  | .cryptBounceCastleGenWithKey _ _ _ => .cryptBounceCastleGenWithKey

theorem call_eq_path {c : KeyCall} (hinit : c.init = true) (R : Runtime) :
    c.call R = c.path.call R c.userHostAddr c.secretKey := by
  cases c <;> cases hinit <;> rfl

theorem address_path (c : KeyCall) (o : CryptBounceCastle) :
    c.path.address c.userHostAddr o = o.userHostIpAddress := by
  cases c <;> rfl

/-- The length the call sets depends on the object only through the length it has. -/
theorem keyLen_path_congr (c : KeyCall) {o₁ o₂ : CryptBounceCastle} (h : o₁.keyLen = o₂.keyLen) :
    c.path.keyLen o₁ = c.path.keyLen o₂ := by
  cases c with
  | initBounceCastleAlgo => rfl
  | cryptBounceCastleGenWithKey => exact h

end KeyCall

/-- The past of an object: a constructor that has returned, and keying calls, some of which may have
thrown. -/
structure History (R : Runtime) where
  creation : Creation
  created : ((creation.call R).run blank).1 = .ok ()
  calls : List KeyCall

/-- The object the past has made. -/
def History.object {R : Runtime} (h : History R) : CryptBounceCastle :=
  finalState (KeyCall.call R) h.calls ((h.creation.call R).run blank).2

/-! ## One further call -/

variable {R : Runtime}

theorem newTmp_of_neg {keyLen : Int} (h : keyLen < 0) (o : CryptBounceCastle) :
    (newTmp keyLen).run o = (.error .overflow, o) := by
  have hnew : newBytes keyLen = .error .overflow := by
    unfold newBytes
    rw [if_pos h]
  unfold newTmp
  rw [run_bind_error (t := o)]
  rw [run_liftM, hnew]

/-- A negative key length throws before anything is derived. -/
theorem run_keyCall_of_neg {c : KeyCall} {o : CryptBounceCastle} (hinit : c.init = true)
    (hneg : c.path.keyLen o < 0) :
    (c.call R).run o = (.error .overflow, c.path.parameters o) := by
  cases c with
  | initBounceCastleAlgo blockCipher size keyLen mode userHostAddr secretKey init =>
    cases hinit
    have h : (initBounceCastleAlgo R blockCipher size keyLen mode userHostAddr secretKey true).run
        o = (.error .overflow, ((setParameters blockCipher size keyLen mode).run o).2) := by
      refine Eq.trans (run_bind_ok (run_modify _ _) _) ?_
      exact run_bind_error (newTmp_of_neg hneg _) _
    exact run_bind_error h _
  | cryptBounceCastleGenWithKey userHostAddr secretKey init =>
    cases hinit
    have h : (cryptBounceCastleGenWithKey R userHostAddr secretKey true).run o =
        (.error .overflow, o) := by
      refine Eq.trans (run_bind_ok (run_gets _ _) _) ?_
      refine Eq.trans (run_bind_ok (run_gets _ _) _) ?_
      exact run_bind_error (newTmp_of_neg hneg _) _
    exact run_bind_error h _

/-- Any other one keys the object by the resource and the salt. -/
theorem run_keyCall {c : KeyCall} {o : CryptBounceCastle} {n : ℕ} (hinit : c.init = true)
    (hn : c.path.keyLen o = n) :
    (c.call R).run o =
      (.ok (), keyedBy R n (salt c.secretKey o.userHostIpAddress) (c.path.parameters o)) := by
  rw [KeyCall.call_eq_path hinit, run_initPath_eq hn, KeyCall.address_path]

/-- Two objects hold the same key material. -/
def SameKeys (o₁ o₂ : CryptBounceCastle) : Prop := o₁.key = o₂.key ∧ o₁.iv = o₂.iv

theorem sameKeys_parameters (c : KeyCall) (o₁ o₂ : CryptBounceCastle) :
    SameKeys (c.path.parameters o₁) (c.path.parameters o₂) ↔ SameKeys o₁ o₂ := by
  cases c <;> rfl

theorem sameKeys_keyedBy_iff {n : ℕ} {a₁ a₂ : NString} {o₁ o₂ : CryptBounceCastle} :
    SameKeys (keyedBy R n a₁ o₁) (keyedBy R n a₂ o₂) ↔
      userKeyBytes n (R.getValue Constants.BOUNCE4) a₁ =
        userKeyBytes n (R.getValue Constants.BOUNCE4) a₂ := by
  unfold SameKeys keyedBy
  rw [Option.some.injEq, and_self]

/-- What two objects hold as address makes no difference to a key of `n` bytes: the resource, taken
once or twice, has that many, or its extensions by the addresses agree on them. -/
def AddressesAgree (R : Runtime) (n : ℕ) (a₁ a₂ : NString) : Prop :=
  let r := R.getValue Constants.BOUNCE4
  n ≤ (Utf16.utf8 r).length ∨ n ≤ (Utf16.utf8 (r ++ r)).length ∨
    ∀ i < n, keyStream (r ++ orEmpty a₁ ++ r ++ orEmpty a₁) i =
      keyStream (r ++ orEmpty a₂ ++ r ++ orEmpty a₂) i

theorem userKeyBytes_eq_iff {n : ℕ} {a₁ a₂ : NString} :
    userKeyBytes n (R.getValue Constants.BOUNCE4) a₁ =
        userKeyBytes n (R.getValue Constants.BOUNCE4) a₂ ↔ AddressesAgree R n a₁ a₂ := by
  unfold AddressesAgree userKeyBytes
  rw [spread_eq_spread_iff]
  unfold keySource pick
  split_ifs with h1 h2
  · exact iff_of_true (fun _ _ => rfl) (.inl h1)
  · exact iff_of_true (fun _ _ => rfl) (.inr (.inl h2))
  · simp only [h1, h2, false_or]

/-- When the past of two objects does not show in the keys a call leaves. -/
def PastHidden (R : Runtime) (c : KeyCall) (o₁ o₂ : CryptBounceCastle) : Prop :=
  if c.path.keyLen o₁ < 0 then SameKeys o₁ o₂
  else isNullOrEmpty c.secretKey = true →
    AddressesAgree R (c.path.keyLen o₁).toNat o₁.userHostIpAddress o₂.userHostIpAddress

theorem sameKeys_call_iff {c : KeyCall} {o₁ o₂ : CryptBounceCastle} (hinit : c.init = true)
    (hlen : o₁.keyLen = o₂.keyLen) :
    SameKeys ((c.call R).run o₁).2 ((c.call R).run o₂).2 ↔ PastHidden R c o₁ o₂ := by
  have hlen := c.keyLen_path_congr hlen
  unfold PastHidden
  by_cases hneg : c.path.keyLen o₁ < 0
  · rw [if_pos hneg, run_keyCall_of_neg hinit hneg, run_keyCall_of_neg hinit (hlen.symm.trans_lt hneg)]
    exact sameKeys_parameters c o₁ o₂
  · obtain ⟨n, hn⟩ := Int.eq_ofNat_of_zero_le (Int.not_lt.1 hneg)
    rw [if_neg hneg, run_keyCall hinit hn, run_keyCall hinit (hlen.symm.trans hn), hn,
      Int.toNat_natCast]
    refine sameKeys_keyedBy_iff.trans ?_
    unfold salt
    by_cases hs : isNullOrEmpty c.secretKey = true
    · rw [if_pos hs, if_pos hs, userKeyBytes_eq_iff]
      exact ⟨fun h _ => h, fun h => h hs⟩
    · rw [if_neg hs, if_neg hs]
      exact iff_of_true rfl fun h => absurd h hs

/-- **When a keying call forgets the past**: two objects of one key length, whatever has been done
to them, come out of it with the same key material exactly in these cases. -/
theorem sameKeys_iff (R : Runtime) (h₁ h₂ : History R)
    (hlen : h₁.object.keyLen = h₂.object.keyLen) (c : KeyCall) (hinit : c.init = true) :
    SameKeys ((c.call R).run h₁.object).2 ((c.call R).run h₂.object).2 ↔
      PastHidden R c h₁.object h₂.object :=
  sameKeys_call_iff hinit hlen

/-- An object that was created with a key of `n` bytes for an address and has not been touched
since. -/
def createdFor (R : Runtime) (n : ℕ) (addr : NString) : History R where
  creation := .constructor none 256 n (some (.ofString "ECB")) addr none true
  created := by
    have h := run_initPath_eq (R := R)
      (show (InitPath.constructor none 256 n (some (.ofString "ECB"))).keyLen blank = n from rfl)
      addr none
    exact congrArg Prod.fst h
  calls := []

theorem object_createdFor (n : ℕ) (addr : Utf16) (haddr : addr ≠ []) :
    (createdFor R n (some addr)).object.keyLen = n ∧
      (createdFor R n (some addr)).object.userHostIpAddress = some addr := by
  have h := run_initPath_eq (R := R)
    (show (InitPath.constructor none 256 n (some (.ofString "ECB"))).keyLen blank = n from rfl)
    (some addr) none
  have hobject : (createdFor R n (some addr)).object = _ := congrArg Prod.snd h
  rw [hobject]
  refine ⟨rfl, ?_⟩
  show (if isNullOrEmpty (some addr) = true then some [] else some addr) = some addr
  rw [if_neg (by simpa using haddr)]

theorem keyLen_path_genWithKey (addr secretKey : NString) (init : Bool) (o : CryptBounceCastle) :
    (KeyCall.cryptBounceCastleGenWithKey addr secretKey init).path.keyLen o = o.keyLen := rfl

/-- A key of 64 bytes is taken from the resource alone. -/
theorem sameKeys_64 :
    let R := (Deployment.resx (fun _ _ => 0) (· == ·)).toRuntime
    let h₁ := createdFor R 64 (some (.ofString "::1"))
    let h₂ := createdFor R 64 (some (.ofString "::2"))
    let c : KeyCall := .cryptBounceCastleGenWithKey none none true
    SameKeys ((c.call R).run h₁.object).2 ((c.call R).run h₂.object).2 := by
  intro R h₁ h₂ c
  have hobject₁ := object_createdFor (R := R) 64 (.ofString "::1") (by decide)
  have hobject₂ := object_createdFor (R := R) 64 (.ofString "::2") (by decide)
  refine (sameKeys_iff R h₁ h₂ (hobject₁.1.trans hobject₂.1.symm) c rfl).2 ?_
  have hlen : c.path.keyLen h₁.object = 64 := (keyLen_path_genWithKey ..).trans hobject₁.1
  unfold PastHidden
  rw [hlen, if_neg (by decide)]
  intro _
  exact .inr (.inl (by decide))

/-- A key of 128 bytes, as a large cipher takes, shows the address of an earlier call. -/
theorem not_sameKeys_128 :
    let R := (Deployment.resx (fun _ _ => 0) (· == ·)).toRuntime
    let h₁ := createdFor R 128 (some (.ofString "::1"))
    let h₂ := createdFor R 128 (some (.ofString "::2"))
    let c : KeyCall := .cryptBounceCastleGenWithKey none none true
    h₁.object.keyLen = h₂.object.keyLen ∧
      ¬ SameKeys ((c.call R).run h₁.object).2 ((c.call R).run h₂.object).2 := by
  intro R h₁ h₂ c
  have hobject₁ := object_createdFor (R := R) 128 (.ofString "::1") (by decide)
  have hobject₂ := object_createdFor (R := R) 128 (.ofString "::2") (by decide)
  refine ⟨hobject₁.1.trans hobject₂.1.symm, ?_⟩
  rw [sameKeys_call_iff rfl (hobject₁.1.trans hobject₂.1.symm)]
  have hlen : c.path.keyLen h₁.object = 128 := (keyLen_path_genWithKey ..).trans hobject₁.1
  have haddr₁ : h₁.object.userHostIpAddress = some (.ofString "::1") := hobject₁.2
  have haddr₂ : h₂.object.userHostIpAddress = some (.ofString "::2") := hobject₂.2
  unfold PastHidden
  rw [hlen, if_neg (by decide), haddr₁, haddr₂]
  intro h
  rcases h rfl with h | h | h
  · exact absurd h (by decide)
  · exact absurd h (by decide)
  · exact absurd (h 46 (by decide)) (by decide)

end CryptBounceCastle

end Server6
