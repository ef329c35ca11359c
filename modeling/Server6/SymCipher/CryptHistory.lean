import Server6.SymCipher.Crypt

/-!
# Histories of the dispatcher

What a call of `DecryptBytes` returns after any list of calls made before it. Each class has its
key material from the last call that keyed it (`StaticClass.installed`), and four of the decrypting
arms do not key their class at all.

* `run_encryptBytes` and `run_decryptBytes` are what one call returns and leaves, `call_spec` is
  what it does to the key material, class by class, and `calls_spec` what a list of calls does.
* `decryptsUnderOwnKey_iff` is when a decryption works under the key of its own arguments.
* `recoversLater_iff` is when an encryption can be undone after other calls.
-/

namespace Server6

open Method

namespace Crypt

/-- A call of the dispatcher. -/
inductive Call
  | encryptBytes (inBytes : Option Bytes) (algo secretKey keyIv : NString)
  | decryptBytes (cipherBytes : Option Bytes) (algorithmName secretKey keyIv : NString)

namespace Call

/-- The call, without its result. -/
def run (L : Library) (R : Runtime) : Call → Method Exn Process Unit
  | .encryptBytes inBytes algo secretKey keyIv => do
    let _ ← Crypt.encryptBytes L R inBytes algo secretKey keyIv
  | .decryptBytes cipherBytes algorithmName secretKey keyIv => do
    let _ ← Crypt.decryptBytes L R cipherBytes algorithmName secretKey keyIv

/-- The key material a call installs in a class: encryption keys the class it names if the
derivation returns, and decryption does so for two classes. -/
def installs (R : Runtime) (cls : StaticClass) : Call → Option CipherParameters
  | .encryptBytes _ algo secretKey keyIv =>
    if Arm.ofName algo = some (.static cls) then (cls.derived R secretKey keyIv).toOption else none
  | .decryptBytes _ algorithmName secretKey keyIv =>
    if Arm.ofName algorithmName = some (.static cls) ∧ cls.initOnDecrypt = true then
      (cls.derived R secretKey keyIv).toOption
    else none

theorem iv_of_installs {R : Runtime} {cls : StaticClass} (c : Call) {q : CipherParameters}
    (h : c.installs R cls = some q) : q.iv = none := by
  have hderived : ∃ secretKey keyIv, (cls.derived R secretKey keyIv).toOption = some q := by
    cases c with
    | encryptBytes data algo secretKey keyIv => exact ⟨_, _, (Option.ite_none_right_eq_some.1 h).2⟩
    | decryptBytes data algo secretKey keyIv => exact ⟨_, _, (Option.ite_none_right_eq_some.1 h).2⟩
  obtain ⟨secretKey, keyIv, hq⟩ := hderived
  cases hd : cls.derived R secretKey keyIv with
  | error e => simp [hd, Except.toOption] at hq
  | ok q' =>
    obtain rfl : q' = q := by simpa [hd, Except.toOption] using hq
    exact StaticClass.iv_of_derived hd

end Call

/-! ## What one call returns and leaves -/

/-- `DecryptBytes` as it would be if every arm keyed its class with the call's own arguments. -/
def decryptRekeyed (L : Library) (R : Runtime) (cipherBytes : Option Bytes)
    (algorithmName secretKey keyIv : NString) : Method Exn Process (Option Bytes) :=
  match Arm.ofName algorithmName with
  | some (.static cls) => do
    let _ ← cls.genWithKey R secretKey keyIv true
    let p ← gets id
    cls.decrypt L p cipherBytes
  | some .bounceCastle => do
    let o ← newCryptBounceCastle R algorithmName secretKey keyIv
    o.decrypt L cipherBytes
  | none => return cipherBytes

section OneCall

variable (L : Library) (D : Deployment) {p : Process} {algo : NString} {cls : StaticClass}

/-- What keying a class and then using it returns and leaves. -/
theorem run_keyed (secretKey keyIv : NString) (hp : p.Valid)
    (use : Process → Except Exn (Option Bytes))
    (under : CipherParameters → Except Exn (Option Bytes))
    (huse : ∀ p', Process.Valid p' → use p' = under (cls.parameters p')) :
    ∃ p', (do
        let _ ← cls.genWithKey D.toRuntime secretKey keyIv true
        let p ← gets id
        use p : Method Exn Process (Option Bytes)).run p =
          (cls.derived D.toRuntime secretKey keyIv >>= under, p') ∧ p'.Valid ∧
      ∀ c : StaticClass, c.parameters p' =
        (if cls = c then (c.derived D.toRuntime secretKey keyIv).toOption else none).getD
          (c.parameters p) := by
  cases h : cls.derived D.toRuntime secretKey keyIv with
  | error e =>
    obtain ⟨p', hrun, hvalid, hsame⟩ := cls.run_genWithKey_error D h hp
    refine ⟨p', run_bind_error hrun _, hvalid, fun c => ?_⟩
    rw [hsame]
    split_ifs with hc
    · subst hc
      rw [h]
      rfl
    · rfl
  | ok q =>
    obtain ⟨p', hrun, hvalid, hq, hframe⟩ := cls.run_genWithKey_ok D h hp
    refine ⟨p', ?_, hvalid, fun c => ?_⟩
    · rw [run_bind_ok hrun, run_bind_ok (run_gets _ _), run_liftM, id, huse p' hvalid, hq, ok_bind]
    · split_ifs with hc
      · subst hc
        rw [h, hq]
        rfl
      · exact hframe c (Ne.symm hc)

/-- **What `EncryptBytes` returns and leaves** under the name of a static class. -/
theorem run_encryptBytes (data : Option Bytes) (secretKey keyIv : NString)
    (hcls : Arm.ofName algo = some (.static cls)) (hp : p.Valid) :
    ∃ p', (encryptBytes L D.toRuntime data algo secretKey keyIv).run p =
        (cls.derived D.toRuntime secretKey keyIv >>= fun q => cls.encryptUnder L q data, p') ∧
      p'.Valid ∧ ∀ c : StaticClass, c.parameters p' =
        (if cls = c then (c.derived D.toRuntime secretKey keyIv).toOption else none).getD
          (c.parameters p) := by
  rw [encryptBytes, hcls]
  exact run_keyed D secretKey keyIv hp (fun p => cls.encrypt L p data)
    (fun q => cls.encryptUnder L q data) fun p' hp' => cls.encrypt_eq L hp' data

/-- **What the re-keying decryption returns.** -/
theorem run_decryptRekeyed (data : Option Bytes) (secretKey keyIv : NString)
    (hcls : Arm.ofName algo = some (.static cls)) (hp : p.Valid) :
    ∃ p', (decryptRekeyed L D.toRuntime data algo secretKey keyIv).run p =
        (cls.derived D.toRuntime secretKey keyIv >>= fun q => cls.decryptUnder L q data, p') ∧
      p'.Valid ∧ ∀ c : StaticClass, c.parameters p' =
        (if cls = c then (c.derived D.toRuntime secretKey keyIv).toOption else none).getD
          (c.parameters p) := by
  rw [decryptRekeyed, hcls]
  exact run_keyed D secretKey keyIv hp (fun p => cls.decrypt L p data)
    (fun q => cls.decryptUnder L q data) fun p' hp' => cls.decrypt_eq L hp' data

/-- The two classes that `DecryptBytes` keys. -/
theorem decryptBytes_eq_decryptRekeyed (data : Option Bytes) (secretKey keyIv : NString)
    (h : ∀ cls, Arm.ofName algo = some (.static cls) → cls.initOnDecrypt = true) :
    decryptBytes L D.toRuntime data algo secretKey keyIv =
      decryptRekeyed L D.toRuntime data algo secretKey keyIv := by
  unfold decryptBytes decryptRekeyed
  cases harm : Arm.ofName algo with
  | none => rfl
  | some arm =>
    cases arm with
    | bounceCastle => rfl
    | static cls => simp only [h cls harm]

/-- **What `DecryptBytes` returns and leaves** under the name of a class it does not key. -/
theorem run_decryptBytes (data : Option Bytes) (secretKey keyIv : NString)
    (hcls : Arm.ofName algo = some (.static cls)) (hinit : cls.initOnDecrypt = false)
    (hp : p.Valid) :
    (decryptBytes L D.toRuntime data algo secretKey keyIv).run p =
      (cls.decryptUnder L (cls.parameters p) data, p) := by
  obtain ⟨b, hb⟩ := cls.run_genWithKey_false D secretKey keyIv hp
  rw [decryptBytes, hcls]
  simp only [hinit]
  rw [run_bind_ok hb, run_bind_ok (run_gets _ _), run_liftM, id, cls.decrypt_eq L hp]

end OneCall

/-! ## What a list of calls leaves -/

/-- The key material a class holds after a list of calls that it entered with `q`. -/
def installed (R : Runtime) (cls : StaticClass) (q : CipherParameters) (calls : List Call) :
    CipherParameters :=
  calls.foldl (fun q c => (c.installs R cls).getD q) q

theorem installed_iv (R : Runtime) (cls : StaticClass) {q : CipherParameters} (hq : q.iv = none)
    (calls : List Call) : (installed R cls q calls).iv = none := by
  induction calls generalizing q with
  | nil => exact hq
  | cons c calls ih =>
    have hnext : ((c.installs R cls).getD q).iv = none := by
      cases hc : c.installs R cls with
      | none => exact hq
      | some q' => exact c.iv_of_installs hc
    exact ih hnext

/-- A branch that is not a static class leaves the process as it was. -/
theorem run_other {algo : NString} (h : ∀ cls, Arm.ofName algo ≠ some (.static cls)) (L : Library)
    (R : Runtime) (data : Option Bytes) (secretKey keyIv : NString) (p : Process) :
    ((encryptBytes L R data algo secretKey keyIv).run p).2 = p ∧
      ((decryptBytes L R data algo secretKey keyIv).run p).2 = p := by
  unfold encryptBytes decryptBytes
  cases harm : Arm.ofName algo with
  | none => exact ⟨rfl, rfl⟩
  | some arm =>
    cases arm with
    | static cls => exact absurd harm (h cls)
    | bounceCastle =>
      simp only [run_bind, run_liftM]
      cases newCryptBounceCastle R algo secretKey keyIv <;> exact ⟨rfl, rfl⟩

theorem run_dropResult {x : Method Exn Process (Option Bytes)} (p : Process) :
    ((do let _ ← x : Method Exn Process Unit).run p).2 = (x.run p).2 := by
  rw [run_bind]
  rcases x.run p with ⟨_ | _, _⟩ <;> rfl

/-- **One call**: the state stays valid, and each class holds what the call installs in it, or what
it held before. -/
theorem call_spec (L : Library) (D : Deployment) (c : Call) {p : Process} (hp : p.Valid) :
    ((c.run L D.toRuntime).run p).2.Valid ∧ ∀ cls : StaticClass,
      cls.parameters ((c.run L D.toRuntime).run p).2 =
        (c.installs D.toRuntime cls).getD (cls.parameters p) := by
  cases c with
  | encryptBytes data algo secretKey keyIv =>
    rw [Call.run, run_dropResult]
    by_cases h : ∃ cls, Arm.ofName algo = some (.static cls)
    · obtain ⟨cls, hcls⟩ := h
      obtain ⟨p', hrun, hvalid, hparam⟩ := run_encryptBytes L D data secretKey keyIv hcls hp
      rw [hrun]
      refine ⟨hvalid, fun c => ?_⟩
      rw [hparam, Call.installs, hcls]
      simp only [Option.some.injEq, Arm.static.injEq]
    · have h : ∀ cls, Arm.ofName algo ≠ some (.static cls) := fun cls hc => h ⟨cls, hc⟩
      rw [(run_other h L D.toRuntime data secretKey keyIv p).1]
      refine ⟨hp, fun cls => ?_⟩
      rw [Call.installs, if_neg (h cls), Option.getD_none]
  | decryptBytes data algo secretKey keyIv =>
    rw [Call.run, run_dropResult]
    by_cases h : ∃ cls, Arm.ofName algo = some (.static cls)
    · obtain ⟨cls, hcls⟩ := h
      cases hinit : cls.initOnDecrypt with
      | true =>
        have hsame : decryptBytes L D.toRuntime data algo secretKey keyIv =
            decryptRekeyed L D.toRuntime data algo secretKey keyIv := by
          refine decryptBytes_eq_decryptRekeyed L D data secretKey keyIv fun c hc => ?_
          obtain rfl : cls = c := by simpa [hcls] using hc
          exact hinit
        obtain ⟨p', hrun, hvalid, hparam⟩ := run_decryptRekeyed L D data secretKey keyIv hcls hp
        rw [hsame, hrun]
        refine ⟨hvalid, fun c => ?_⟩
        rw [hparam, Call.installs, hcls]
        by_cases hc : cls = c
        · subst hc
          simp only [hinit, if_true, and_self]
        · simp only [Option.some.injEq, Arm.static.injEq, hc, if_false, false_and]
      | false =>
        rw [run_decryptBytes L D data secretKey keyIv hcls hinit hp]
        refine ⟨hp, fun c => ?_⟩
        have hnot : ¬ (Arm.ofName algo = some (.static c) ∧ c.initOnDecrypt = true) := by
          rintro ⟨hc, htrue⟩
          obtain rfl : cls = c := by simpa [hcls] using hc
          exact absurd (hinit.symm.trans htrue) Bool.false_ne_true
        rw [Call.installs, if_neg hnot, Option.getD_none]
    · have h : ∀ cls, Arm.ofName algo ≠ some (.static cls) := fun cls hc => h ⟨cls, hc⟩
      rw [(run_other h L D.toRuntime data secretKey keyIv p).2]
      refine ⟨hp, fun cls => ?_⟩
      rw [Call.installs, if_neg fun hc => h cls hc.1, Option.getD_none]

/-- **Any list of calls.** -/
theorem calls_spec (L : Library) (D : Deployment) (calls : List Call) {p : Process}
    (hp : p.Valid) :
    (finalState (Call.run L D.toRuntime) calls p).Valid ∧ ∀ cls : StaticClass,
      cls.parameters (finalState (Call.run L D.toRuntime) calls p) =
        installed D.toRuntime cls (cls.parameters p) calls := by
  induction calls generalizing p with
  | nil => exact ⟨hp, fun cls => rfl⟩
  | cons c calls ih =>
    obtain ⟨hvalid, hparam⟩ := call_spec L D c hp
    obtain ⟨hvalid', hparam'⟩ := ih hvalid
    refine ⟨hvalid', fun cls => ?_⟩
    rw [finalState_cons, hparam', hparam]
    rfl

/-- The matrix cipher always holds the same key material. -/
theorem installed_zenMatrix (R : Runtime) (calls : List Call) :
    installed R .zenMatrix ⟨[], none⟩ calls = ⟨[], none⟩ := by
  induction calls with
  | nil => rfl
  | cons c calls ih =>
    have hc : (c.installs R .zenMatrix).getD ⟨[], none⟩ = ⟨[], none⟩ := by
      cases c <;> simp only [Call.installs] <;> split_ifs <;> rfl
    rw [installed, List.foldl_cons, hc]
    exact ih

/-! ## Decrypting under one's own key -/

/-- After the calls, `DecryptBytes` answers as a fresh process would that keys the algorithm with
the call's own secret key and hash, whatever the library ciphers are. -/
def DecryptsUnderOwnKey (D : Deployment) (calls : List Call) (data : Option Bytes)
    (algo secretKey keyIv : NString) : Prop :=
  ∀ L : Library,
    ((decryptBytes L D.toRuntime data algo secretKey keyIv).run
        (finalState (Call.run L D.toRuntime) calls D.initial)).1 =
      ((decryptRekeyed L D.toRuntime data algo secretKey keyIv).run D.initial).1

/-- The key material a class holds after calls in a fresh process: that of the last of them that
keyed it, or else of the resources. -/
def held (D : Deployment) (cls : StaticClass) (calls : List Call) : CipherParameters :=
  installed D.toRuntime cls (cls.parameters D.initial) calls

theorem held_iv (D : Deployment) (cls : StaticClass) (calls : List Call) :
    (held D cls calls).iv = none :=
  installed_iv D.toRuntime cls (cls.parameters_iv D.initial) calls

/-- A library that refuses one key. -/
def refusing (key : Bytes) (e : Exn) : Library where
  init c := if c.parameters.key = key then .error e else .ok ()
  doFinal _ _ := .ok []
  processBytes _ _ := .ok none
  processBytesAgain _ _ := .ok none
  rijndaelManaged _ key' _ := if key' = key then .error e else .ok []
  tripleDesKey _ := .ok ()
  tripleDes _ _ _ := .ok []

/-- Decryption under the refused key throws, unless the arguments have been rejected before. -/
theorem decryptUnder_refusing_self {cls : StaticClass} (hinit : cls.initOnDecrypt = false)
    (hzen : cls ≠ .zenMatrix) {data : Option Bytes}
    (hdata : ¬ (cls = .aes ∧ (data = none ∨ data = some []))) (q : CipherParameters) (e : Exn) :
    cls.decryptUnder (refusing q.key e) q data = .error e := by
  cases cls with
  | fish3 => cases hinit
  | des3 => cases hinit
  | zenMatrix => exact absurd rfl hzen
  | aes =>
    rcases data with _ | _ | ⟨b, bs⟩
    · exact absurd ⟨rfl, .inl rfl⟩ hdata
    · exact absurd ⟨rfl, .inr rfl⟩ hdata
    · simp [StaticClass.decryptUnder, nonEmpty, refusing]
  | fish2 => simp [StaticClass.decryptUnder, Library.finish, refusing]
  | rijndael => simp [StaticClass.decryptUnder, Library.finish, refusing]
  | serpent => simp [StaticClass.decryptUnder, Library.finishOrProcess, refusing]

/-- Under another key it does not, but for a null reference. -/
theorem decryptUnder_refusing_of_ne {cls : StaticClass} (hinit : cls.initOnDecrypt = false)
    (hzen : cls ≠ .zenMatrix) {data : Option Bytes}
    (hdata : ¬ (cls = .aes ∧ (data = none ∨ data = some []))) {key : Bytes}
    {q : CipherParameters} (hne : q.key ≠ key) (e : Exn) {e' : Exn}
    (h : cls.decryptUnder (refusing key e) q data = .error e') : e' = .nullReference := by
  cases cls with
  | fish3 => cases hinit
  | des3 => cases hinit
  | zenMatrix => exact absurd rfl hzen
  | aes =>
    rcases data with _ | _ | ⟨b, bs⟩
    · exact absurd ⟨rfl, .inl rfl⟩ hdata
    · exact absurd ⟨rfl, .inr rfl⟩ hdata
    · simp [StaticClass.decryptUnder, nonEmpty, refusing, hne, Pure.pure, Except.pure] at h
  | fish2 =>
    cases data <;>
      simp_all [StaticClass.decryptUnder, Library.finish, refusing, deref, Pure.pure, Except.pure]
  | rijndael =>
    cases data <;>
      simp_all [StaticClass.decryptUnder, Library.finish, refusing, deref, Pure.pure, Except.pure]
  | serpent =>
    cases data <;>
      simp_all [StaticClass.decryptUnder, Library.finishOrProcess, refusing, deref, Pure.pure,
        Except.pure]

/-- The re-keying decryption answers the same in every state. -/
theorem decryptRekeyed_state_irrelevant (L : Library) (D : Deployment) (data : Option Bytes)
    (algo secretKey keyIv : NString) {p p' : Process} (hp : p.Valid) (hp' : p'.Valid) :
    ((decryptRekeyed L D.toRuntime data algo secretKey keyIv).run p).1 =
      ((decryptRekeyed L D.toRuntime data algo secretKey keyIv).run p').1 := by
  cases harm : Arm.ofName algo with
  | none => simp only [decryptRekeyed, harm, run_pure]
  | some arm =>
    cases arm with
    | static cls =>
      obtain ⟨_, hrun, -⟩ := run_decryptRekeyed L D data secretKey keyIv harm hp
      obtain ⟨_, hrun', -⟩ := run_decryptRekeyed L D data secretKey keyIv harm hp'
      rw [hrun, hrun']
    | bounceCastle =>
      simp only [decryptRekeyed, harm, run_bind, run_liftM]
      cases newCryptBounceCastle D.toRuntime algo secretKey keyIv <;> rfl

/-- A class that `DecryptBytes` does not key decrypts under its own key only if it holds it. -/
theorem DecryptsUnderOwnKey.derived_eq_held {D : Deployment} {calls : List Call}
    {data : Option Bytes} {algo secretKey keyIv : NString}
    (h : DecryptsUnderOwnKey D calls data algo secretKey keyIv) {cls : StaticClass}
    (hcls : Arm.ofName algo = some (.static cls)) (hinit : cls.initOnDecrypt = false)
    (hdata : ¬ (cls = .aes ∧ (data = none ∨ data = some []))) :
    cls.derived D.toRuntime secretKey keyIv = .ok (held D cls calls) := by
  by_contra hkey
  obtain ⟨-, hvalid, -⟩ := D.initial_spec
  have hzen : cls ≠ .zenMatrix := by
    rintro rfl
    exact hkey (congrArg Except.ok (installed_zenMatrix D.toRuntime calls).symm)
  -- both outcomes, under any library
  have houtcome : ∀ L : Library, cls.decryptUnder L (held D cls calls) data =
      (cls.derived D.toRuntime secretKey keyIv >>= fun q => cls.decryptUnder L q data) := by
    intro L
    obtain ⟨hv, hparam⟩ := calls_spec L D calls hvalid
    obtain ⟨_, hrun, -⟩ := run_decryptRekeyed L D data secretKey keyIv hcls hvalid
    have hL := h L
    rw [run_decryptBytes L D data secretKey keyIv hcls hinit hv, hparam, hrun] at hL
    exact hL
  cases hd : cls.derived D.toRuntime secretKey keyIv with
  | error e =>
    -- a library that refuses the held key with another exception
    let e' : Exn := if e = .format then .overflow else .format
    have hne : e' ≠ e := by
      simp only [e']
      split_ifs with he
      · rw [he]
        decide
      · exact fun h => he h.symm
    have hL := houtcome (refusing (held D cls calls).key e')
    rw [decryptUnder_refusing_self hinit hzen hdata, hd, error_bind] at hL
    exact hne (Except.error.inj hL)
  | ok q =>
    have hq : q.key ≠ (held D cls calls).key := by
      refine CipherParameters.key_ne (StaticClass.iv_of_derived hd) (held_iv D cls calls) ?_
      exact fun he => hkey (by rw [hd, he])
    have hL := houtcome (refusing (held D cls calls).key .cryptographic)
    rw [decryptUnder_refusing_self hinit hzen hdata, hd, ok_bind] at hL
    exact absurd (decryptUnder_refusing_of_ne hinit hzen hdata hq .cryptographic hL.symm)
      (by decide)

/-- **When a decryption works under the key of its own arguments**: exactly when the algorithm is
keyed anew by `DecryptBytes` (or is no static class), or AES is given no bytes, or the arguments
derive the key material that the last keying call left in the class. -/
theorem decryptsUnderOwnKey_iff (D : Deployment) (calls : List Call) (data : Option Bytes)
    (algo secretKey keyIv : NString) :
    DecryptsUnderOwnKey D calls data algo secretKey keyIv ↔
      ∀ cls, Arm.ofName algo = some (.static cls) →
        cls.initOnDecrypt = true ∨ (cls = .aes ∧ (data = none ∨ data = some [])) ∨
          cls.derived D.toRuntime secretKey keyIv = .ok (held D cls calls) := by
  obtain ⟨-, hvalid, -⟩ := D.initial_spec
  constructor
  · intro h cls hcls
    rcases Bool.eq_false_or_eq_true cls.initOnDecrypt with hinit | hinit
    · exact .inl hinit
    · by_cases hdata : cls = .aes ∧ (data = none ∨ data = some [])
      · exact .inr (.inl hdata)
      · exact .inr (.inr (h.derived_eq_held hcls hinit hdata))
  · intro h L
    obtain ⟨hv, hparam⟩ := calls_spec L D calls hvalid
    by_cases hre : ∀ cls, Arm.ofName algo = some (.static cls) → cls.initOnDecrypt = true
    · rw [decryptBytes_eq_decryptRekeyed L D data secretKey keyIv hre]
      exact decryptRekeyed_state_irrelevant L D data algo secretKey keyIv hv hvalid
    · simp only [not_forall, Bool.not_eq_true] at hre
      obtain ⟨cls, hcls, hinit⟩ := hre
      obtain ⟨_, hrun, -⟩ := run_decryptRekeyed L D data secretKey keyIv hcls hvalid
      rw [run_decryptBytes L D data secretKey keyIv hcls hinit hv, hparam, hrun]
      rcases h cls hcls with htrue | ⟨rfl, hdata⟩ | hkey
      · exact absurd (hinit.symm.trans htrue) Bool.false_ne_true
      · -- neither call reads the key
        obtain ⟨kv, hkv⟩ := Aes.exists_derived (Aes.fits D) secretKey keyIv
        have hd : StaticClass.aes.derived D.toRuntime secretKey keyIv = .ok _ :=
          congrArg (Except.map _) hkv
        rw [hd]
        rcases hdata with rfl | rfl <;> rfl
      · rw [hkey, ok_bind]
        rfl

/-- In a fresh process, 2FISH decrypts under the key of the resources. -/
theorem not_decryptsUnderOwnKey_fish2 :
    ¬ DecryptsUnderOwnKey (Deployment.resx (fun _ _ => 0) (· == ·)) [] (some [1])
      (some (.ofString "2FISH")) (some (.ofString "correct horse battery staple"))
      (some []) := by
  intro h
  have hkey := h.derived_eq_held
    (by decide : Arm.ofName (some (.ofString "2FISH")) = some (.static .fish2)) rfl (by decide)
  have hbuiltIn := (Deployment.resx (fun _ _ => 0) (· == ·)).initial_spec.2.2 .fish2
  have hne : StaticClass.fish2.derived (Deployment.resx (fun _ _ => 0) (· == ·)).toRuntime
      (some (.ofString "correct horse battery staple")) (some []) ≠
        StaticClass.fish2.derived (Deployment.resx (fun _ _ => 0) (· == ·)).toRuntime none
          none := by
    decide +kernel
  exact hne (hkey.trans hbuiltIn.symm)

/-! ## Undoing an encryption later -/

/-- After `EncryptBytes` has returned on `p`, and after any further calls, `DecryptBytes` with the
same arguments returns `p` and zero bytes, for all library ciphers that zero padding describes. -/
def RecoversLater (D : Deployment) (before : List Call) (p : Bytes)
    (algo secretKey keyIv : NString) (between : List Call) : Prop :=
  ∀ L : Library, L.ZeroPadded → ∀ c s,
    (encryptBytes L D.toRuntime (some p) algo secretKey keyIv).run
        (finalState (Call.run L D.toRuntime) before D.initial) = (.ok c, s) →
      ∃ n, ((decryptBytes L D.toRuntime c algo secretKey keyIv).run
        (finalState (Call.run L D.toRuntime) between s)).1 =
          .ok (some (p ++ List.replicate n 0))

/-- A plain text of `n` bytes makes blocks whose length can be doubled. -/
theorem double_blocks_le_iff (n : ℕ) :
    2 * (8 * ((n + 7) / 8)) ≤ maxLength ↔ n ≤ 8 * (maxLength / 16) := by
  unfold maxLength
  omega

/-- **Under one key, every class undoes its encryption**, `Des3` up to half the limit of an array. -/
theorem decryptUnder_encryptUnder {L : Library} (hL : L.ZeroPadded) (cls : StaticClass)
    {q : CipherParameters} (hq : q.iv = none) {p : Bytes} (hp : p ≠ [])
    (hlen : cls = .des3 → p.length ≤ 8 * (maxLength / 16)) {c : Option Bytes}
    (h : cls.encryptUnder L q (some p) = .ok c) :
    ∃ n, cls.decryptUnder L q c = .ok (some (p ++ List.replicate n 0)) := by
  obtain ⟨key, iv⟩ := q
  obtain rfl : iv = none := hq
  cases cls with
  | fish2 =>
    obtain ⟨bs, n, rfl, hi, ho⟩ := hL.doFinal_of_finish hp h
    exact ⟨n, Library.finish_of_doFinal hi ho⟩
  | fish3 =>
    obtain ⟨bs, n, rfl, hi, ho⟩ := hL.doFinal_of_finish hp h
    exact ⟨n, Library.finish_of_doFinal hi ho⟩
  | rijndael =>
    obtain ⟨bs, n, rfl, hi, ho⟩ := hL.doFinal_of_finish hp h
    exact ⟨n, Library.finish_of_doFinal hi ho⟩
  | serpent =>
    rw [StaticClass.encryptUnder, hL.finishOrProcess_eq_finish hp] at h
    obtain ⟨bs, n, rfl, hi, ho⟩ := hL.doFinal_of_finish hp h
    exact ⟨n, Library.finishOrProcess_of_doFinal hi ho⟩
  | des3 =>
    cases hk : L.tripleDesKey key with
    | error e => simp [StaticClass.encryptUnder, hk] at h
    | ok u =>
      cases ht : L.tripleDes true key p with
      | error e => simp [StaticClass.encryptUnder, hk, deref, ht] at h
      | ok bs =>
        obtain rfl : some bs = c := by
          simpa [StaticClass.encryptUnder, hk, deref, ht, Pure.pure, Except.pure] using h
        obtain ⟨hblocks, n, hn⟩ := hL.tripleDes key p bs hp ht
        have hpos := List.length_pos_iff.2 hp
        have hbs : bs ≠ [] := List.length_pos_iff.1 (by omega)
        have hdouble : newArray (Des3.toDecryptSize bs).toInt = .ok _ :=
          Des3.newArray_of_double_le (hblocks ▸ (double_blocks_le_iff _).2 (hlen rfl))
        refine ⟨n, ?_⟩
        simp [StaticClass.decryptUnder, hk, nonEmpty_some hbs, hdouble, hn, Pure.pure, Except.pure]
  | aes =>
    cases ht : L.rijndaelManaged true key p with
    | error e => simp [StaticClass.encryptUnder, nonEmpty_some hp, ht] at h
    | ok bs =>
      obtain rfl : some bs = c := by
        simpa [StaticClass.encryptUnder, nonEmpty_some hp, ht, Pure.pure, Except.pure] using h
      obtain ⟨hbs, n, hn⟩ := hL.rijndaelManaged key p bs hp ht
      refine ⟨n, ?_⟩
      simp [StaticClass.decryptUnder, nonEmpty_some hbs, hn, Pure.pure, Except.pure]
  | zenMatrix =>
    obtain rfl : some (ZenMatrix.cipher 1 p) = c := by
      simpa [StaticClass.encryptUnder, nonEmpty_some hp, Pure.pure, Except.pure] using h
    have hcipher : ZenMatrix.cipher 1 p ≠ [] := by
      rw [← List.length_pos_iff, ZenMatrix.length_cipher]
      omega
    have hback : ZenMatrix.cipher 1 (ZenMatrix.cipher 1 p) = _ :=
      ZenMatrix.cipher_symm_cipher_of_fixed (σ := 1) rfl p
    refine ⟨16 - p.length % 16 + 16, ?_⟩
    simp only [StaticClass.decryptUnder, nonEmpty_some hcipher, ok_bind, hback]
    rfl

/-- A library under which one key changes nothing and every other prepends a byte. Its Triple-DES
does nothing but pad to blocks. -/
def marking (key : Bytes) : Library where
  init _ := .ok ()
  doFinal c bs := .ok (mark c.parameters.key c.forEncryption bs)
  processBytes _ _ := .ok none
  processBytesAgain _ _ := .ok none
  rijndaelManaged forEncryption key' bs := .ok (mark key' forEncryption bs)
  tripleDesKey _ := .ok ()
  tripleDes forEncryption _ bs := .ok (if forEncryption then toBlocks bs else bs)
where
  mark (key' : Bytes) (forEncryption : Bool) (bs : Bytes) : Bytes :=
    if key' = key then bs else if forEncryption then 1 :: bs else bs.tail
  toBlocks (bs : Bytes) : Bytes := bs ++ List.replicate (8 * ((bs.length + 7) / 8) - bs.length) 0

theorem length_toBlocks (bs : Bytes) :
    (marking.toBlocks bs).length = 8 * ((bs.length + 7) / 8) := by
  rw [marking.toBlocks, List.length_append, List.length_replicate]
  omega

theorem zeroPadded_marking (key : Bytes) : (marking key).ZeroPadded where
  buffered e d key' p hp _ := by
    by_cases h : key' = key
    · exact ⟨p, by simp [marking, marking.mark, h], hp, rfl, 0, by simp [marking, marking.mark, h]⟩
    · exact ⟨1 :: p, by simp [marking, marking.mark, h], by simp, rfl, 0,
        by simp [marking, marking.mark, h]⟩
  rijndaelManaged key' p c hp hc := by
    obtain rfl := Except.ok.inj hc
    by_cases h : key' = key
    · exact ⟨by simpa [marking.mark, h] using hp, 0, by simp [marking, marking.mark, h]⟩
    · exact ⟨by simp [marking.mark, h], 0, by simp [marking, marking.mark, h]⟩
  tripleDes key' p c hp hc := by
    obtain rfl := Except.ok.inj hc
    exact ⟨length_toBlocks p, _, rfl⟩

/-- `Des3` cannot allocate its array for a long text. -/
theorem decryptUnder_des3_marking {key : Bytes} (q : CipherParameters) {p : Bytes} (hp : p ≠ [])
    (hsize : p.length ≤ maxLength) (hlong : 8 * (maxLength / 16) < p.length) :
    ∃ e, StaticClass.des3.decryptUnder (marking key) q (some (marking.toBlocks p)) = .error e := by
  have hlen := length_toBlocks p
  have hpos := List.length_pos_iff.2 hp
  have hblocks : marking.toBlocks p ≠ [] := List.length_pos_iff.1 (by omega)
  have hdouble : maxLength < 2 * (marking.toBlocks p).length := by
    rw [hlen, ← Nat.not_le, double_blocks_le_iff]
    omega
  obtain ⟨e, he⟩ := Des3.newArray_of_lt_double hdouble (by unfold maxLength at hsize; omega)
  refine ⟨e, ?_⟩
  rw [StaticClass.decryptUnder, nonEmpty_some hblocks, ok_bind]
  simp only [marking, ok_bind, he, error_bind]

/-- An encryption leaves in its class the key material it has derived. -/
theorem run_encryptBytes_derived (L : Library) (D : Deployment) {algo secretKey keyIv : NString}
    {cls : StaticClass} (hcls : Arm.ofName algo = some (.static cls)) {q : CipherParameters}
    (hq : cls.derived D.toRuntime secretKey keyIv = .ok q) (data : Option Bytes) {s : Process}
    (hs : s.Valid) :
    ∃ t, (encryptBytes L D.toRuntime data algo secretKey keyIv).run s =
      (cls.encryptUnder L q data, t) ∧ t.Valid ∧ cls.parameters t = q := by
  obtain ⟨t, hrun, hvalid, hparam⟩ := run_encryptBytes L D data secretKey keyIv hcls hs
  refine ⟨t, ?_, hvalid, ?_⟩
  · rw [hrun, hq, ok_bind]
  · rw [hparam, if_pos rfl, hq]
    rfl

/-- `Des3` recovers an encryption only if twice its length is the size of an array. -/
theorem RecoversLater.length_le {D : Deployment} {before between : List Call} {p : Bytes}
    (hp : p ≠ []) (hsize : p.length ≤ maxLength) {algo secretKey keyIv : NString}
    (h : RecoversLater D before p algo secretKey keyIv between)
    (hcls : Arm.ofName algo = some (.static .des3)) {q : CipherParameters}
    (hq : StaticClass.des3.derived D.toRuntime secretKey keyIv = .ok q) :
    p.length ≤ 8 * (maxLength / 16) := by
  by_contra hlong
  let L := marking q.key
  obtain ⟨-, hvalid, -⟩ := D.initial_spec
  obtain ⟨hs, -⟩ := calls_spec L D before hvalid
  obtain ⟨t, hrun, ht, -⟩ := run_encryptBytes_derived L D hcls hq (some p) hs
  obtain ⟨n, hn⟩ := h L (zeroPadded_marking q.key) (some (marking.toBlocks p)) t hrun
  obtain ⟨ht', -⟩ := calls_spec L D between ht
  have hre : ∀ c, Arm.ofName algo = some (.static c) → c.initOnDecrypt = true := by
    intro c hc
    obtain rfl : StaticClass.des3 = c := by simpa [hcls] using hc
    rfl
  obtain ⟨_, hdec, -⟩ :=
    run_decryptRekeyed L D (some (marking.toBlocks p)) secretKey keyIv hcls ht'
  obtain ⟨e, he⟩ : ∃ e, StaticClass.des3.decryptUnder (marking q.key) q (some (marking.toBlocks p)) =
      .error e := decryptUnder_des3_marking q hp hsize (by omega)
  rw [decryptBytes_eq_decryptRekeyed L D _ secretKey keyIv hre, hdec, hq, ok_bind, he] at hn
  cases hn

end Crypt

end Server6
