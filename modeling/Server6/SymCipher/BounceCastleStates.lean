import Server6.EnDeCoding.Text
import Server6.SymCipher.BounceCastleHistory

/-!
# The states of a `CryptBounceCastle`

`KeyLen` is meant to be the length of `Key` and `Iv`. The calls with `init` keep it so; a call of
`InitBounceCastleAlgo` without `init` stores the parameters it is given and leaves the two arrays
alone (`wellKept_iff`). A call of `CryptBounceCastleGenWithKey` without `init` compares the secret key
with the string the last derivation has left in `privateKey`, which is the resource
(`checksKey_iff`).
-/

namespace Server6

namespace CryptBounceCastle

open EnDeCoding Method

variable {R : Runtime}

/-- `Key` and `Iv` are arrays of `KeyLen` bytes. -/
def FullLength (o : CryptBounceCastle) : Prop :=
  ∃ k v, o.key = some k ∧ o.iv = some v ∧ (k.length : Int) = o.keyLen ∧ (v.length : Int) = o.keyLen

/-- What an object encrypts with is the same. -/
structure SameCipher (o o' : CryptBounceCastle) : Prop where
  key : o'.key = o.key
  iv : o'.iv = o.iv
  keyLen : o'.keyLen = o.keyLen
  size : o'.size = o.size
  mode : o'.mode = o.mode
  cryptoBlockCipher : o'.cryptoBlockCipher = o.cryptoBlockCipher

theorem SameCipher.refl (o : CryptBounceCastle) : SameCipher o o := ⟨rfl, rfl, rfl, rfl, rfl, rfl⟩

theorem SameCipher.fullLength {o o' : CryptBounceCastle} (h : SameCipher o o')
    (ho : FullLength o) : FullLength o' := by
  obtain ⟨k, v, hk, hv, hklen, hvlen⟩ := ho
  exact ⟨k, v, h.key.trans hk, h.iv.trans hv, hklen.trans h.keyLen.symm, hvlen.trans h.keyLen.symm⟩

theorem fullLength_keyedBy {o : CryptBounceCastle} {n : ℕ} (hn : o.keyLen = n) (addr : NString) :
    FullLength (keyedBy R n addr o) :=
  ⟨_, _, rfl, rfl, by rw [length_userKeyBytes]; exact hn.symm,
    by rw [length_userKeyBytes]; exact hn.symm⟩

/-! ## Calls without `init` -/

theorem SameCipher.trans (o p q : CryptBounceCastle) (h : SameCipher o p) (h' : SameCipher p q) :
    SameCipher o q :=
  ⟨h'.key.trans h.key, h'.iv.trans h.iv, h'.keyLen.trans h.keyLen, h'.size.trans h.size,
    h'.mode.trans h.mode, h'.cryptoBlockCipher.trans h.cryptoBlockCipher⟩

theorem sameCipher_setTmpKey (k : Option Bytes) (o : CryptBounceCastle) :
    SameCipher o { o with tmpKey := k } := ⟨rfl, rfl, rfl, rfl, rfl, rfl⟩

theorem sameCipher_setTmpIv (v : Option Bytes) (o : CryptBounceCastle) :
    SameCipher o { o with tmpIv := v } := ⟨rfl, rfl, rfl, rfl, rfl, rfl⟩

theorem leaves_newTmp (keyLen : Int) : Leaves SameCipher (newTmp keyLen) := by
  refine .bind SameCipher.trans (leaves_liftM .refl _) fun k => ?_
  refine .bind SameCipher.trans (leaves_modify (sameCipher_setTmpKey _)) fun _ => ?_
  refine .bind SameCipher.trans (leaves_liftM .refl _) fun v => ?_
  exact leaves_modify (sameCipher_setTmpIv _)

/-- Refilling the working arrays touches nothing else. -/
theorem leaves_keepKeys (keyLen : Int) : Leaves SameCipher (keepKeys keyLen) := by
  refine .bind SameCipher.trans (leaves_gets .refl _) fun short => ?_
  cases short with
  | false => exact leaves_pure .refl ()
  | true =>
    refine .bind SameCipher.trans (leaves_newTmp keyLen) fun _ => ?_
    refine .bind SameCipher.trans (leaves_gets .refl _) fun iv => ?_
    refine .bind SameCipher.trans (leaves_liftM .refl _) fun v => ?_
    refine .bind SameCipher.trans (leaves_modify (sameCipher_setTmpIv _)) fun _ => ?_
    refine .bind SameCipher.trans (leaves_gets .refl _) fun key => ?_
    refine .bind SameCipher.trans (leaves_liftM .refl _) fun k => ?_
    exact leaves_modify (sameCipher_setTmpKey _)

/-- It succeeds on an object whose arrays have the length. -/
theorem keepKeys_returns {o : CryptBounceCastle} (h : FullLength o) :
    ((keepKeys o.keyLen).run o).1 = .ok () := by
  obtain ⟨k, v, hk, hv, hklen, hvlen⟩ := h
  have hcopyKey : arrayCopy (some k) k.length = .ok k := by
    rw [arrayCopy_some le_rfl, List.take_length]
  have hcopyIv : arrayCopy (some v) k.length = .ok v := by
    have hlen : v.length = k.length := by omega
    rw [← hlen, arrayCopy_some le_rfl, List.take_length]
  unfold keepKeys
  rw [← hklen, run_bind_ok (run_gets _ _), run_ite]
  split_ifs
  · rw [run_bind_ok (run_newTmp _ _)]
    simp only [run_bind, run_gets, run_liftM, run_modify, hk, hv, hcopyKey, hcopyIv]
  · rfl

theorem leaves_genWithKey_false (addr secretKey : NString) :
    Leaves SameCipher (cryptBounceCastleGenWithKey R addr secretKey false) := by
  refine .bind SameCipher.trans (leaves_gets .refl _) fun privateKey => ?_
  refine .bind SameCipher.trans (leaves_gets .refl _) fun keyLen => ?_
  cases h : R.differs privateKey secretKey with
  | true => exact leaves_pure .refl false
  | false =>
    exact .bind SameCipher.trans (leaves_keepKeys keyLen) fun _ => leaves_pure .refl true

/-- What `CryptBounceCastleGenWithKey` answers without `init`. -/
theorem genWithKey_false_returns {o : CryptBounceCastle} (h : FullLength o)
    (addr secretKey : NString) :
    ((cryptBounceCastleGenWithKey R addr secretKey false).run o).1 =
      .ok (!R.differs o.privateKey secretKey) := by
  unfold cryptBounceCastleGenWithKey
  rw [run_bind_ok (run_gets _ _), run_bind_ok (run_gets _ _)]
  cases hdiffers : R.differs o.privateKey secretKey with
  | true => rfl
  | false =>
    have hkeep : (keepKeys o.keyLen).run o = (.ok (), ((keepKeys o.keyLen).run o).2) :=
      Prod.ext (keepKeys_returns h) rfl
    exact congrArg Prod.fst (run_bind_ok hkeep _)

/-- `InitBounceCastleAlgo` without `init` sets the parameters before it refills the working
arrays. -/
theorem run_initBounceCastleAlgo_false (blockCipher : Option Engine) (size keyLen : Int)
    (mode addr secretKey : NString) (o : CryptBounceCastle) :
    let p := ((setParameters blockCipher size keyLen mode).run o).2
    (initBounceCastleAlgo R blockCipher size keyLen mode addr secretKey false).run o =
      (((keepKeys keyLen).run p).1.map fun _ => false, ((keepKeys keyLen).run p).2) := by
  intro p
  refine (run_bind_ok (run_modify _ _) _).trans ?_
  refine (run_bind (keepKeys keyLen) _ p).trans ?_
  rcases (keepKeys keyLen).run p with ⟨_ | _, t⟩ <;> rfl

/-! ## The length of the keys -/

/-- What the call answers. -/
def KeyCall.answer (R : Runtime) : KeyCall → Method Exn CryptBounceCastle Bool
  | .initBounceCastleAlgo blockCipher size keyLen mode userHostAddr secretKey init =>
    CryptBounceCastle.initBounceCastleAlgo R blockCipher size keyLen mode userHostAddr secretKey
      init
  | .cryptBounceCastleGenWithKey userHostAddr secretKey init =>
    CryptBounceCastle.cryptBounceCastleGenWithKey R userHostAddr secretKey init

theorem KeyCall.run_call (c : KeyCall) (o : CryptBounceCastle) :
    ((c.call R).run o).2 = ((c.answer R).run o).2 := by
  have h : c.call R = c.answer R >>= fun _ => pure () := by cases c <;> rfl
  rw [h, run_bind]
  rcases (c.answer R).run o with ⟨_ | _, t⟩ <;> rfl

/-- A key length that is passed is positive. -/
def KeyCall.PositiveLength : KeyCall → Prop
  | .initBounceCastleAlgo _ _ keyLen _ _ _ _ => 0 < keyLen
  | .cryptBounceCastleGenWithKey _ _ _ => True

/-- The call does not pass new parameters without `init`. -/
def KeyCall.Repeats (o : CryptBounceCastle) : KeyCall → Prop
  | .initBounceCastleAlgo blockCipher size keyLen mode _ _ false =>
    o.cryptoBlockCipher = some (blockCipher.getD .aes) ∧ o.size = size ∧ o.keyLen = keyLen ∧
      o.mode = mode
  | _ => True

/-- One call on an object whose keys have the length. -/
theorem KeyCall.answer_spec {c : KeyCall} {o : CryptBounceCastle} (ho : FullLength o)
    (hpos : c.PositiveLength) (hrepeats : c.Repeats o) :
    FullLength ((c.answer R).run o).2 ∧
      (((c.answer R).run o).1 = .ok false → SameCipher o ((c.answer R).run o).2) := by
  cases c with
  | initBounceCastleAlgo blockCipher size keyLen mode addr secretKey init =>
    cases init with
    | true =>
      obtain ⟨n, rfl⟩ := Int.eq_ofNat_of_zero_le (Int.le_of_lt hpos)
      rw [answer, run_initBounceCastleAlgo]
      exact ⟨fullLength_keyedBy rfl _, by simp⟩
    | false =>
      obtain ⟨hcipher, hsize, hlen, hmode⟩ := hrepeats
      have hset : SameCipher o ((setParameters blockCipher size keyLen mode).run o).2 :=
        ⟨rfl, rfl, hlen.symm, hsize.symm, hmode.symm, hcipher.symm⟩
      rw [answer, run_initBounceCastleAlgo_false]
      have hsame := hset.trans _ _ _ (leaves_keepKeys keyLen _)
      exact ⟨hsame.fullLength ho, fun _ => hsame⟩
  | cryptBounceCastleGenWithKey addr secretKey init =>
    cases init with
    | true =>
      obtain ⟨k, v, hk, hv, hklen, hvlen⟩ := ho
      rw [answer, run_cryptBounceCastleGenWithKey hklen.symm]
      exact ⟨fullLength_keyedBy hklen.symm _, by simp⟩
    | false =>
      have hsame : SameCipher o _ := leaves_genWithKey_false (R := R) addr secretKey o
      exact ⟨hsame.fullLength ho, fun _ => hsame⟩

/-! ## What the constructors leave -/

theorem length_of_arrayCopy {source : Option Bytes} {n : Int} {bs : Bytes}
    (h : arrayCopy source n = .ok bs) : (bs.length : Int) = n := by
  cases source with
  | none => cases h
  | some src =>
    simp only [arrayCopy] at h
    by_cases hn : 0 ≤ n ∧ n.toNat ≤ src.length
    · rw [if_pos hn, Except.ok.injEq] at h
      rw [← h, List.length_take_of_le hn.2, Int.toNat_of_nonneg hn.1]
    · rw [if_neg hn] at h
      cases h

/-- The parameterless constructor copies what its resources decode to. -/
theorem fullLength_defaultConstructor {o : CryptBounceCastle}
    (h : ((defaultConstructor R).run o).1 = .ok ()) :
    FullLength ((defaultConstructor R).run o).2 := by
  have hkeys : ∀ p : CryptBounceCastle, (newKeys 32).run p = (.ok (), { p with
      key := some (List.replicate 32 0), iv := some (List.replicate 32 0) }) := run_newKeys 32
  revert h
  unfold defaultConstructor
  rw [run_bind_ok (run_modify _ _)]
  cases hk : R.resourceBytes Constants.BOUNCEK with
  | error e =>
    rw [run_bind_error (run_liftM _ _)]
    intro h
    cases h
  | ok k =>
    rw [run_bind_ok (run_liftM _ _), run_bind_ok (run_modify _ _)]
    cases hv : R.resourceBytes Constants.BOUNCE4 with
    | error e =>
      rw [run_bind_error (run_liftM _ _)]
      intro h
      cases h
    | ok v =>
      rw [run_bind_ok (run_liftM _ _), run_bind_ok (run_modify _ _), run_bind_ok (hkeys _)]
      simp only [copyIv, copyKey, run_bind, run_gets, run_liftM]
      cases hv : arrayCopy (some v) 32 with
      | error e =>
        intro h
        cases h
      | ok v' =>
        simp only [run_modify]
        cases hk : arrayCopy (some k) 32 with
        | error e =>
          intro h
          cases h
        | ok k' =>
          exact fun _ => ⟨k', v', rfl, rfl, length_of_arrayCopy hk, length_of_arrayCopy hv⟩

/-- On an object without keys there is nothing to refill the working arrays from. -/
theorem keepKeys_throws {o : CryptBounceCastle} (htmp : o.tmpKey = none) (hiv : o.iv = none)
    (keyLen : Int) : ((keepKeys keyLen).run o).1 ≠ .ok () := by
  unfold keepKeys
  rw [run_bind_ok (run_gets _ _), run_ite, htmp, Option.all_none, Bool.true_or, if_pos rfl]
  rcases Int.lt_or_le keyLen 0 with hneg | hnonneg
  · rw [run_bind_error (newTmp_of_neg hneg _)]
    exact nofun
  · obtain ⟨n, rfl⟩ := Int.eq_ofNat_of_zero_le hnonneg
    rw [run_bind_ok (run_newTmp n _), run_bind_ok (run_gets _ _), hiv]
    exact nofun

/-- A path that initialises an object throws on a negative key length. -/
theorem run_initPath_of_neg {path : InitPath} {o : CryptBounceCastle} (hneg : path.keyLen o < 0)
    (addr secretKey : NString) :
    (path.call R addr secretKey).run o = (.error .overflow, path.parameters o) := by
  cases path with
  | constructor blockCipher size keyLen mode =>
    refine Eq.trans (run_bind_ok (run_modify _ _) _) ?_
    exact run_bind_error (newTmp_of_neg hneg _) _
  | initBounceCastleAlgo blockCipher size keyLen mode =>
    exact run_keyCall_of_neg
      (c := .initBounceCastleAlgo blockCipher size keyLen mode addr secretKey true) rfl hneg
  | cryptBounceCastleGenWithKey =>
    exact run_keyCall_of_neg (c := .cryptBounceCastleGenWithKey addr secretKey true) rfl hneg

/-- One that returns has set a length that keys can have. -/
theorem exists_keyLen_of_returns {path : InitPath} {addr secretKey : NString}
    {o : CryptBounceCastle} (h : ((path.call R addr secretKey).run o).1 = .ok ()) :
    ∃ n : ℕ, path.keyLen o = n := by
  rcases Int.lt_or_le (path.keyLen o) 0 with hneg | hnonneg
  · rw [run_initPath_of_neg hneg] at h
    cases h
  · exact Int.eq_ofNat_of_zero_le hnonneg

/-- A path that returns leaves the resource as the remembered key. -/
theorem privateKey_initPath {path : InitPath} {addr secretKey : NString} {o : CryptBounceCastle}
    (h : ((path.call R addr secretKey).run o).1 = .ok ()) :
    ((path.call R addr secretKey).run o).2.privateKey = R.getValue Constants.BOUNCE4 := by
  obtain ⟨n, hn⟩ := exists_keyLen_of_returns h
  rw [run_initPath_eq hn]
  rfl

theorem fullLength_initPath {path : InitPath} {addr secretKey : NString} {o : CryptBounceCastle}
    (h : ((path.call R addr secretKey).run o).1 = .ok ()) :
    FullLength ((path.call R addr secretKey).run o).2 := by
  obtain ⟨n, hn⟩ := exists_keyLen_of_returns h
  have hparameters : (path.parameters o).keyLen = n := by
    rw [← hn]
    cases path <;> rfl
  rw [run_initPath_eq hn]
  exact fullLength_keyedBy hparameters _

/-- **A constructor that returns leaves keys of the length it sets.** -/
theorem fullLength_created {creation : Creation}
    (h : ((creation.call R).run blank).1 = .ok ()) :
    FullLength ((creation.call R).run blank).2 := by
  cases creation with
  | default => exact fullLength_defaultConstructor h
  | constructor blockCipher size keyLen mode addr secretKey init =>
    cases init with
    | false =>
      have hrun : ((Creation.constructor blockCipher size keyLen mode addr secretKey false).call
          R).run blank =
            (keepKeys keyLen).run ((setParameters blockCipher size keyLen mode).run blank).2 :=
        run_bind_ok (run_modify _ _) _
      rw [hrun] at h
      exact absurd h (keepKeys_throws rfl rfl keyLen)
    | true =>
      have h : (((InitPath.constructor blockCipher size keyLen mode).call R addr secretKey).run
        blank).1 = .ok () := h
      exact fullLength_initPath h

/-! ## Runs of calls -/

/-- The object after the first calls of its past. -/
def History.after (h : History R) (as : List KeyCall) : CryptBounceCastle :=
  finalState (KeyCall.call R) as ((h.creation.call R).run blank).2

/-- The arrays have their length at every moment of the past, and no call that answered false has
touched the cipher. -/
structure WellKept (R : Runtime) (h : History R) : Prop where
  fullLength : ∀ as bs, h.calls = as ++ bs → FullLength (h.after as)
  refused : ∀ as c bs, h.calls = as ++ c :: bs →
    ((c.answer R).run (h.after as)).1 = .ok false →
      SameCipher (h.after as) ((c.answer R).run (h.after as)).2

theorem History.after_append (h : History R) (as : List KeyCall) (c : KeyCall) :
    h.after (as ++ [c]) = ((c.answer R).run (h.after as)).2 := by
  rw [after, finalState_append, ← KeyCall.run_call]
  rfl

/-- A call that passes other parameters without `init` shows: in the length of the keys, or in the
cipher. -/
theorem KeyCall.repeats_of_wellKept {c : KeyCall} {o : CryptBounceCastle} (ho : FullLength o)
    (hafter : FullLength ((c.answer R).run o).2)
    (hrefused : ((c.answer R).run o).1 = .ok false → SameCipher o ((c.answer R).run o).2) :
    c.Repeats o := by
  cases c with
  | cryptBounceCastleGenWithKey => trivial
  | initBounceCastleAlgo blockCipher size keyLen mode addr secretKey init =>
    cases init with
    | true => trivial
    | false =>
      have hrun := run_initBounceCastleAlgo_false (R := R) blockCipher size keyLen mode addr
        secretKey o
      rw [answer, hrun] at hafter hrefused
      -- the call leaves the object with the new parameters and the old arrays
      have hkept := leaves_keepKeys keyLen ((setParameters blockCipher size keyLen mode).run o).2
      have hlen : keyLen = o.keyLen := by
        obtain ⟨k, _, hk, _, hklen, _⟩ := ho
        obtain ⟨k', _, hk', _, hklen', _⟩ := hafter
        have hkk' : k = k' := Option.some.inj (hk.symm.trans (hkept.key.symm.trans hk'))
        rw [← hklen, hkk', hklen']
        exact hkept.keyLen.symm
      have hp : FullLength ((setParameters blockCipher size keyLen mode).run o).2 := by
        obtain ⟨k, v, hk, hv, hklen, hvlen⟩ := ho
        exact ⟨k, v, hk, hv, hklen.trans hlen.symm, hvlen.trans hlen.symm⟩
      have hset : ((setParameters blockCipher size keyLen mode).run o).2.keyLen = keyLen := rfl
      have hreturns := keepKeys_returns hp
      rw [hset] at hreturns
      have hsame := hrefused (by rw [hreturns]; rfl)
      exact ⟨hsame.cryptoBlockCipher.symm.trans hkept.cryptoBlockCipher,
        hsame.size.symm.trans hkept.size, hlen.symm, hsame.mode.symm.trans hkept.mode⟩

/-- **When an object is well kept**: exactly when every `InitBounceCastleAlgo` without `init` has
passed the parameters the object had at that moment. -/
theorem wellKept_iff (R : Runtime) (h : History R) (hpos : ∀ c ∈ h.calls, c.PositiveLength) :
    WellKept R h ↔ ∀ as c bs, h.calls = as ++ c :: bs → c.Repeats (h.after as) := by
  constructor
  · intro hkept as c bs hcalls
    refine KeyCall.repeats_of_wellKept (R := R) (hkept.fullLength as _ hcalls) ?_
      (hkept.refused as c bs hcalls)
    rw [← History.after_append]
    exact hkept.fullLength (as ++ [c]) bs (by rw [hcalls, List.append_assoc]; rfl)
  · intro hrepeats
    have hfull : ∀ as bs, h.calls = as ++ bs → FullLength (h.after as) := by
      intro as bs hcalls
      refine finalState_induction_of (C := fun c o => c.PositiveLength ∧ c.Repeats o) (KeyCall.call R)
        (fun c o ho hc => ?_) (fullLength_created h.created) fun as' c bs' has => ?_
      · rw [KeyCall.run_call]
        exact (KeyCall.answer_spec ho hc.1 hc.2).1
      · have hsplit : h.calls = as' ++ c :: (bs' ++ bs) := by
          rw [hcalls, has, List.append_assoc, List.cons_append]
        exact ⟨hpos c (by rw [hsplit]; simp), hrepeats as' c _ hsplit⟩
    refine ⟨hfull, fun as c bs hcalls => ?_⟩
    have hc : c ∈ h.calls := by
      rw [hcalls]
      exact List.mem_append_right _ List.mem_cons_self
    have hspec := KeyCall.answer_spec (R := R) (hfull as (c :: bs) hcalls) (hpos c hc)
      (hrepeats as c bs hcalls)
    exact hspec.2

/-- An object with a key of `m` bytes, to which `InitBounceCastleAlgo` has passed a key length of `n`
without `init`. -/
def reparametrised (R : Runtime) (m : ℕ) (n : Int) : History R :=
  { createdFor R m (some (.ofString "::1")) with
    calls := [.initBounceCastleAlgo none 256 n (some (.ofString "ECB")) (some (.ofString "::1"))
      none false] }

theorem after_reparametrised (m : ℕ) (n : Int) :
    ∃ addr o, (reparametrised R m n).after [] = keyedBy R m addr o ∧ o.keyLen = m ∧
      o.size = 256 ∧ o.mode = some (.ofString "ECB") ∧ o.cryptoBlockCipher = some .aes := by
  have hrun := run_initPath_eq (R := R)
    (show (InitPath.constructor none 256 m (some (.ofString "ECB"))).keyLen blank = m from rfl)
    (some (.ofString "::1")) none
  have hafter : (reparametrised R m n).after [] = _ := congrArg Prod.snd hrun
  exact ⟨_, _, hafter, rfl, rfl, rfl, rfl⟩

/-- The length it has already keeps it well. -/
theorem wellKept_32 : WellKept Deployment.ascii.toRuntime (reparametrised _ 32 32) := by
  refine (wellKept_iff _ _ fun c hc => ?_).2 fun as c bs hcalls => ?_
  · obtain rfl := List.mem_singleton.1 hc
    exact (by decide : (0 : Int) < 32)
  · cases as with
    | cons d ds => exact absurd (congrArg List.length hcalls) (by simp [reparametrised])
    | nil =>
      obtain ⟨rfl, -⟩ := List.cons.inj hcalls
      obtain ⟨addr, o, hafter, hlen, hsize, hmode, hcipher⟩ :=
        after_reparametrised (R := Deployment.ascii.toRuntime) 32 32
      rw [hafter]
      exact ⟨hcipher, hsize, hlen, hmode⟩

/-- Half of it leaves the object with a `KeyLen` of 16 and keys of 32 bytes. -/
theorem not_wellKept_16 : ¬ WellKept Deployment.ascii.toRuntime (reparametrised _ 32 16) := by
  intro hkept
  have hrepeats := KeyCall.repeats_of_wellKept (R := Deployment.ascii.toRuntime)
    (hkept.fullLength [] _ rfl)
    (by rw [← History.after_append]; exact hkept.fullLength _ [] rfl)
    (hkept.refused [] _ [] rfl)
  obtain ⟨addr, o, hafter, hlen, -⟩ :=
    after_reparametrised (R := Deployment.ascii.toRuntime) 32 16
  rw [hafter] at hrepeats
  exact absurd (hlen.symm.trans hrepeats.2.2.1) (by decide)

/-! ## The key an object remembers -/

/-- What the documentation says of `InvariantCultureIgnoreCase`: it does not see letter case. Which
strings it takes for one another besides is left open. -/
def FoldsCase (R : Runtime) (U : CharClasses) : Prop :=
  ∀ s t, U.SameUpToCase s t → R.equalsIgnoreCase s t = true

/-- Called without `init`, `CryptBounceCastleGenWithKey` accepts the secret key and refuses every
one that differs from it by more than case, null among them. -/
def ChecksKey (R : Runtime) (U : CharClasses) (secretKey : Utf16) (o : CryptBounceCastle) : Prop :=
  (∀ addr, ((cryptBounceCastleGenWithKey R addr (some secretKey) false).run o).1 = .ok true) ∧
    ∀ addr secretKey₂, (∀ s, secretKey₂ = some s → ¬ U.SameUpToCase s secretKey) →
      ((cryptBounceCastleGenWithKey R addr secretKey₂ false).run o).1 = .ok false

theorem differs_eq_not_equals {privateKey : Utf16} (h : privateKey ≠ []) (secretKey : NString) :
    R.differs privateKey secretKey = !R.equals privateKey secretKey := by
  unfold Runtime.differs
  rw [List.isEmpty_eq_false_iff.2 h, Bool.false_and, Bool.false_or]

/-- An object that remembers `r` checks the keys that are `r` up to case, if the comparison takes
no other string for `r`. -/
theorem checksKey_iff_sameUpToCase {U : CharClasses} (hR : FoldsCase R U) {o : CryptBounceCastle}
    (ho : FullLength o) (hne : o.privateKey ≠ []) (secretKey : Utf16) :
    ChecksKey R U secretKey o ↔ U.SameUpToCase o.privateKey secretKey ∧
      ∀ s, R.equalsIgnoreCase o.privateKey s = true → U.SameUpToCase o.privateKey s := by
  have hanswer : ∀ addr s, ((cryptBounceCastleGenWithKey R addr s false).run o).1 =
      .ok (R.equals o.privateKey s) := by
    intro addr s
    rw [genWithKey_false_returns ho, differs_eq_not_equals hne, Bool.not_not]
  constructor
  · intro h
    -- a string that the comparison takes for `r` has been accepted
    have hsame : ∀ s, R.equalsIgnoreCase o.privateKey s = true → U.SameUpToCase s secretKey := by
      intro s hs
      by_contra hdiff
      have hrefused := h.2 none (some s) fun t ht => Option.some.inj ht ▸ hdiff
      rw [hanswer none (some s)] at hrefused
      exact absurd (hs.symm.trans (Except.ok.inj hrefused)) (by decide)
    have hself := hsame o.privateKey (hR _ _ rfl)
    exact ⟨hself, fun s hs => hself.trans (hsame s hs).symm⟩
  · rintro ⟨hself, honly⟩
    refine ⟨fun addr => (hanswer addr _).trans (congrArg _ (hR _ _ hself)), fun addr k hk => ?_⟩
    refine (hanswer addr k).trans (congrArg _ ?_)
    cases k with
    | none => rfl
    | some s =>
      apply eq_false_of_ne_true
      exact fun hs => hk s rfl ((honly s hs).symm.trans hself)

/-- **When an initialised object checks its key**: exactly when the key is the resource, up to
case, and the comparison takes no string for the resource that differs from it by more. -/
theorem checksKey_iff (R : Runtime) (U : CharClasses) (hR : FoldsCase R U) (path : InitPath)
    (o : CryptBounceCastle) (addr : NString) (secretKey : Utf16)
    (hreturns : ((path.call R addr (some secretKey)).run o).1 = .ok ()) :
    ChecksKey R U secretKey ((path.call R addr (some secretKey)).run o).2 ↔
      U.SameUpToCase (R.getValue Constants.BOUNCE4) secretKey ∧
        ∀ s, R.equalsIgnoreCase (R.getValue Constants.BOUNCE4) s = true →
          U.SameUpToCase (R.getValue Constants.BOUNCE4) s := by
  have hkey := privateKey_initPath hreturns
  have hne : ((path.call R addr (some secretKey)).run o).2.privateKey ≠ [] := by
    rw [hkey]
    exact R.getValue_ne_nil (by decide)
  rw [checksKey_iff_sameUpToCase hR (fullLength_initPath hreturns) hne, hkey]

/-- The constructor's call for a key of 32 bytes. -/
def newAes : InitPath := .constructor none 256 32 (some (.ofString "ECB"))

/-- The repository's deployment with a comparison that ignores the case of the letters of ISO 8859-1
and nothing else. -/
def latin1 : Deployment :=
  Deployment.resx (fun _ _ => 0) fun s t =>
    CharClasses.latin1.toLower s == CharClasses.latin1.toLower t

theorem foldsCase_latin1 : FoldsCase latin1.toRuntime .latin1 := fun _ _ h => beq_iff_eq.2 h

/-- The deployment's resource in lower case is checked against. -/
theorem checksKey_resource :
    let R := latin1.toRuntime
    let k := CharClasses.latin1.toLower (R.getValue Constants.BOUNCE4)
    ChecksKey R .latin1 k ((newAes.call R (some []) (some k)).run blank).2 := by
  intro R k
  have hrun := run_initPath_eq (R := R) (n := 32) (show newAes.keyLen blank = (32 : ℕ) from rfl)
    (some []) (some k)
  have hcase : CharClasses.latin1.SameUpToCase (R.getValue Constants.BOUNCE4) k := by
    unfold CharClasses.SameUpToCase
    decide +kernel
  exact (checksKey_iff R .latin1 foldsCase_latin1 newAes blank (some []) k
    (congrArg Prod.fst hrun)).2 ⟨hcase, fun s hs => beq_iff_eq.1 hs⟩

/-- A user's secret key is refused directly after the object was created with it. -/
theorem not_checksKey_secret :
    let R := latin1.toRuntime
    let k : Utf16 := .ofString "correct horse battery staple"
    ¬ ChecksKey R .latin1 k ((newAes.call R (some []) (some k)).run blank).2 := by
  intro R k h
  have hrun := run_initPath_eq (R := R) (n := 32) (show newAes.keyLen blank = (32 : ℕ) from rfl)
    (some []) (some k)
  have hreturns := congrArg Prod.fst hrun
  have haccepts := h.1 none
  rw [genWithKey_false_returns (fullLength_initPath hreturns), privateKey_initPath hreturns]
    at haccepts
  exact absurd haccepts (by decide)

end CryptBounceCastle

end Server6
