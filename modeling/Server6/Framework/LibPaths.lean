import Mathlib.Data.List.Infix
import Mathlib.Logic.Function.Basic
import Server6.SymCipher.Runtime

/-!
# The paths of the application

`LibPaths` computes the paths of the application on demand and keeps eleven of them in static fields,
where the empty string stands for a path that has not been computed yet. A getter that fills a field
reads the configuration, makes directories and writes to the log, each of which may fail; the path stays
when a later step of the getter throws.

* `get_fixed`: what a getter has returned once it returns ever after, whatever has been called, has failed
  or has changed in the configuration in between.
* `get_closed`: every path but `AppPath` and the log file's ends with its separator, and contains the
  name of its directory, unless the configured base path only seems to end with a slash: `EndsWith`
  compares by the rules of a culture, which skip some characters.
-/

namespace Server6

namespace LibPaths

def APP_DIR : Utf16 := .ofString "mono"
def LOG_DIR : Utf16 := .ofString "log"
def QR_DIR : Utf16 := .ofString "Qr"
def ENCODE_DIR : Utf16 := .ofString "Encode"
def UTF8_DIR : Utf16 := .ofString "Utf8"
def UNIX_DIR : Utf16 := .ofString "Unix"
def CALC_DIR : Utf16 := .ofString "Calc"
def RES_DIR : Utf16 := .ofString "res"
def OUT_DIR : Utf16 := .ofString "out"
def TEXT_DIR : Utf16 := .ofString "text"
def BIN_DIR : Utf16 := .ofString "bin"
def JS_DIR : Utf16 := .ofString "js"
def CSS_DIR : Utf16 := .ofString "css"
def GAMES_DIR : Utf16 := .ofString "Gamez"

/-- The static fields. -/
inductive Field
  | appPath
  | baseAppPath
  | resAppPath
  | qrAppPath
  | encodeAppPath
  | gamesAppPath
  | unixAppPath
  | calcAppPath
  | appDirPath
  | outDirPath
  | resDirPath
  deriving DecidableEq, Repr

/-- Their values. -/
abbrev Paths := Field → Utf16

/-- The exceptions of the configuration and of the file system. -/
inductive PathExn
  | configuration
  | io
  deriving DecidableEq, Repr

/-- The slash of the application paths. -/
def slash : Utf16 := .ofString "/"

/-- What the getters find: two settings of the configuration, the base directories of the context and of
the domain, the directories there are and those that can be made, the name of the log file, and
`EndsWith("/")` in the culture of the thread. -/
structure Surroundings where
  appDir : Except PathExn NString
  baseAppPath : Except PathExn NString
  baseDirectory : NString
  domainDirectory : Option NString
  directoryExists : Utf16 → Bool
  createDirectory : Utf16 → Bool
  appLogFile : Utf16
  endsWithSlash : Utf16 → Bool
  endsWithSlash_nil : endsWithSlash [] = false

abbrev Getting := Method PathExn Paths

/-! ## The getters -/

/-- The exception of `x` is caught. -/
def catching (x handler : Getting Unit) : Getting Unit :=
  ⟨fun p => match x.run p with
    | (.ok u, q) => (.ok u, q)
    | (.error _, q) => handler.run q⟩

/-- A getter that computes its field if that is empty, and does `after` when it has set it. -/
def cached (f : Field) (compute : Getting Utf16) (after : Utf16 → Getting Unit) : Getting Utf16 := do
  let held ← Method.gets (· f)
  if held = [] then
    let path ← compute
    Method.modify fun p => Function.update p f path
    after path
    Method.gets (· f)
  else return held

/-- The path of the directory below an application path, if that is not a path below it itself. -/
def inDir (dir path : Utf16) : Utf16 :=
  if slash ++ dir ++ slash <:+: path then path else path ++ dir ++ slash

def inCalcDir (path : Utf16) : Utf16 :=
  if CALC_DIR <:+: path then path else path ++ CALC_DIR ++ slash

section

variable (sep : UInt16) (e : Surroundings)

/-- `SepChar`. -/
def SepChar : Utf16 := [sep]

/-- The directory below a directory, if its name is not in the path already. -/
def underDir (dir path : Utf16) : Utf16 :=
  if dir <:+: path then path else path ++ dir ++ SepChar sep

def appDirPath : Getting Utf16 :=
  cached .appDirPath
    (pure (match e.baseDirectory, e.domainDirectory with
      | some dir, _ => dir ++ SepChar sep
      | none, some dir => orEmpty dir ++ SepChar sep
      | none, none => .ofString "." ++ SepChar sep))
    fun _ => pure ()

/-- `Directory.CreateDirectory`. -/
def createDirectory (path : Utf16) : Getting Unit :=
  liftM (if e.createDirectory path then Except.ok () else .error PathExn.io)

def logPathDir : Getting Utf16 := do
  let appDir ← appDirPath sep e
  let logPath := underDir sep LOG_DIR appDir
  if e.directoryExists logPath then return logPath
  else
    createDirectory e logPath
    return logPath

def logPathFile : Getting Utf16 := (· ++ e.appLogFile) <$> logPathDir sep e

/-- `Area23Log.LogStatic`, which catches all exceptions but those of `LogFile`. -/
def logStatic : Getting Unit := (fun _ => ()) <$> logPathFile sep e

/-- A setting, after its exception has been logged. -/
def setting (value : Except PathExn NString) (default : Utf16) : Getting Utf16 :=
  match value with
  | .ok v => pure (orEmpty v)
  | .error _ => (fun _ => default) <$> logStatic sep e

def appPath : Getting Utf16 :=
  cached .appPath ((fun path => if path = [] then APP_DIR else path) <$> setting sep e e.appDir [])
    fun _ => pure ()

def baseAppPath : Getting Utf16 :=
  cached .baseAppPath
    ((fun path => if e.endsWithSlash path then path else path ++ slash) <$>
      setting sep e e.baseAppPath slash)
    fun _ => pure ()

def resAppPath : Getting Utf16 :=
  cached .resAppPath (inDir RES_DIR <$> baseAppPath sep e) fun _ => pure ()

def unixAppPath : Getting Utf16 :=
  cached .unixAppPath (inDir UNIX_DIR <$> baseAppPath sep e) fun _ => pure ()

def qrAppPath : Getting Utf16 :=
  cached .qrAppPath (inDir QR_DIR <$> baseAppPath sep e) fun _ => pure ()

def encodeAppPath : Getting Utf16 :=
  cached .encodeAppPath (inDir ENCODE_DIR <$> baseAppPath sep e) fun _ => pure ()

def gamesAppPath : Getting Utf16 :=
  cached .gamesAppPath (inDir GAMES_DIR <$> baseAppPath sep e) fun _ => pure ()

def calcAppPath : Getting Utf16 :=
  cached .calcAppPath (inCalcDir <$> baseAppPath sep e) fun _ => pure ()

/-- A directory that is not there is made, and a failure is logged. -/
def makeDirectory (path : Utf16) : Getting Unit :=
  if e.directoryExists path then pure ()
  else
    catching
      (do
        logStatic sep e
        createDirectory e path)
      (logStatic sep e)

def resDirPath : Getting Utf16 :=
  cached .resDirPath (underDir sep RES_DIR <$> appDirPath sep e) (makeDirectory sep e)

def outDirPath : Getting Utf16 :=
  cached .outDirPath
    ((fun dir => underDir sep OUT_DIR (underDir sep RES_DIR dir)) <$> appDirPath sep e)
    (makeDirectory sep e)

/-- The getters. -/
inductive Getter
  | AppPath
  | AppDirPath
  | BaseAppPath
  | CalcAppPath
  | CssAppPath
  | JsAppPath
  | ResAppPath
  | ResDirPath
  | UnixAppPath
  | QrAppPath
  | EncodeAppPath
  | GamesAppPath
  | AdditionalBinDir
  | TextDirPath
  | TextAppPath
  | LogPathDir
  | LogPathFile
  | OutAppPath
  | OutDirPath
  | BinDir
  | QrDirPath
  | Utf8PathDir
  deriving DecidableEq, Repr

/-- A call of one of them. -/
def get : Getter → Getting Utf16
  | .AppPath => appPath sep e
  | .AppDirPath => appDirPath sep e
  | .BaseAppPath => baseAppPath sep e
  | .CalcAppPath => calcAppPath sep e
  | .CssAppPath => (· ++ (CSS_DIR ++ slash)) <$> resAppPath sep e
  | .JsAppPath => (· ++ (JS_DIR ++ slash)) <$> resAppPath sep e
  | .ResAppPath => resAppPath sep e
  | .ResDirPath => resDirPath sep e
  | .UnixAppPath => unixAppPath sep e
  | .QrAppPath => qrAppPath sep e
  | .EncodeAppPath => encodeAppPath sep e
  | .GamesAppPath => gamesAppPath sep e
  | .AdditionalBinDir => (· ++ (BIN_DIR ++ SepChar sep)) <$> resDirPath sep e
  | .TextDirPath => (· ++ (TEXT_DIR ++ SepChar sep)) <$> resDirPath sep e
  | .TextAppPath => (· ++ (TEXT_DIR ++ slash)) <$> resAppPath sep e
  | .LogPathDir => logPathDir sep e
  | .LogPathFile => logPathFile sep e
  | .OutAppPath => (· ++ (OUT_DIR ++ slash)) <$> resAppPath sep e
  | .OutDirPath => outDirPath sep e
  | .BinDir => (· ++ (BIN_DIR ++ SepChar sep)) <$> outDirPath sep e
  | .QrDirPath => (· ++ (QR_DIR ++ SepChar sep)) <$> appDirPath sep e
  | .Utf8PathDir => (· ++ (UTF8_DIR ++ SepChar sep)) <$> appDirPath sep e

end

/-- No path has been computed. -/
def Paths.empty : Paths := fun _ => []

/-- The fields after some calls, each with what it found. -/
def afterCalls (sep : UInt16) (calls : List (Surroundings × Getter)) (p : Paths) : Paths :=
  finalState (fun call => get sep call.1 call.2) calls p

/-! ## What every call keeps -/

variable {sep : UInt16} {e e' : Surroundings} {p q q' : Paths} {f g : Field} {v w : Utf16}
  {α β : Type}

/-- A path that has been computed stays as it is. -/
def Extends (p q : Paths) : Prop := ∀ f, p f ≠ [] → q f = p f

theorem Extends.refl (p : Paths) : Extends p p := fun _ _ => rfl

theorem Extends.trans (h : Extends p q) (h' : Extends q q') : Extends p q' := by
  intro f hf
  have hq := h f hf
  rw [h' f (hq ▸ hf), hq]

theorem extends_update (hf : p f = []) (v : Utf16) : Extends p (Function.update p f v) := by
  intro g hg
  exact Function.update_of_ne (fun heq : g = f => hg (heq ▸ hf)) _ _

/-- The field a path is computed from, and how. -/
def origin (sep : UInt16) : Field → Option (Field × (Utf16 → Utf16))
  | .appPath => none
  | .baseAppPath => none
  | .appDirPath => none
  | .resAppPath => some (.baseAppPath, inDir RES_DIR)
  | .qrAppPath => some (.baseAppPath, inDir QR_DIR)
  | .encodeAppPath => some (.baseAppPath, inDir ENCODE_DIR)
  | .gamesAppPath => some (.baseAppPath, inDir GAMES_DIR)
  | .unixAppPath => some (.baseAppPath, inDir UNIX_DIR)
  | .calcAppPath => some (.baseAppPath, inCalcDir)
  | .resDirPath => some (.appDirPath, underDir sep RES_DIR)
  | .outDirPath => some (.appDirPath, fun dir => underDir sep OUT_DIR (underDir sep RES_DIR dir))

/-- What a path computed from no other one ends with. -/
def closing (sep : UInt16) : Field → Utf16
  | .appDirPath => SepChar sep
  | _ => []

/-- A computed path is what it is to be. -/
structure FieldSound (sep : UInt16) (p : Paths) (f : Field) : Prop where
  closing : closing sep f <:+ p f
  origin : ∀ g φ, origin sep f = some (g, φ) → p g ≠ [] ∧ p f = φ (p g)

/-- What holds of the fields. -/
def Sound (sep : UInt16) (p : Paths) : Prop := ∀ f, p f ≠ [] → FieldSound sep p f

theorem sound_empty (sep : UInt16) : Sound sep .empty := fun _ hf => absurd rfl hf

/-- A path is computed. -/
theorem Sound.update (h : Sound sep p) (hf : p f = [])
    (hv : FieldSound sep (Function.update p f v) f) : Sound sep (Function.update p f v) := by
  intro g hg
  by_cases hgf : g = f
  · exact hgf ▸ hv
  · rw [Function.update_of_ne hgf] at hg
    obtain ⟨hclosing, horigin⟩ := h g hg
    refine ⟨by rwa [Function.update_of_ne hgf], fun g' φ hφ => ?_⟩
    obtain ⟨hne, heq⟩ := horigin g' φ hφ
    have hg' : g' ≠ f := fun heq => hne (heq ▸ hf)
    rw [Function.update_of_ne hg', Function.update_of_ne hgf]
    exact ⟨hne, heq⟩

/-- A call keeps both, whether it returns or throws. -/
def Safe (sep : UInt16) (x : Getting α) : Prop :=
  ∀ p, Sound sep p → Sound sep (x.run p).2 ∧ Extends p (x.run p).2

theorem safe_pure (a : α) : Safe sep (pure a : Getting α) := fun p hp => ⟨hp, Extends.refl p⟩

theorem safe_liftM (x : Except PathExn α) : Safe sep (liftM x : Getting α) :=
  fun p hp => ⟨hp, Extends.refl p⟩

theorem Safe.bind {x : Getting α} {y : α → Getting β} (hx : Safe sep x) (hy : ∀ a, Safe sep (y a)) :
    Safe sep (x >>= y) := by
  intro p hp
  obtain ⟨hsound, hext⟩ := hx p hp
  rcases hrun : x.run p with ⟨_ | a, q⟩
  · rw [Method.run_bind_error hrun]
    rw [hrun] at hsound hext
    exact ⟨hsound, hext⟩
  · rw [Method.run_bind_ok hrun]
    rw [hrun] at hsound hext
    obtain ⟨hsound', hext'⟩ := hy a q hsound
    exact ⟨hsound', hext.trans hext'⟩

theorem Safe.map {x : Getting α} (hx : Safe sep x) (φ : α → β) : Safe sep (φ <$> x) := by
  rw [map_eq_pure_bind]
  exact hx.bind fun _ => safe_pure _

theorem Safe.catching {x y : Getting Unit} (hx : Safe sep x) (hy : Safe sep y) :
    Safe sep (catching x y) := by
  intro p hp
  obtain ⟨hsound, hext⟩ := hx p hp
  rw [LibPaths.catching]
  dsimp only
  rcases hrun : x.run p with ⟨_ | _, q⟩
  · rw [hrun] at hsound hext
    obtain ⟨hsound', hext'⟩ := hy q hsound
    exact ⟨hsound', hext.trans hext'⟩
  · rw [hrun] at hsound hext
    exact ⟨hsound, hext⟩

theorem run_map (φ : α → β) (x : Getting α) (p : Paths) :
    (φ <$> x).run p = ((x.run p).1.map φ, (x.run p).2) := by
  rw [map_eq_pure_bind, Method.run_bind]
  rcases x.run p with ⟨_ | _, q⟩ <;> rfl

/-- What a call that returns has returned before its value was mapped. -/
theorem run_map_eq_ok {φ : α → β} {x : Getting α} {b : β} (h : (φ <$> x).run p = (.ok b, q)) :
    ∃ a, x.run p = (.ok a, q) ∧ φ a = b := by
  rw [run_map] at h
  rcases hx : x.run p with ⟨_ | a, r⟩
  · rw [hx] at h
    cases h
  · rw [hx] at h
    obtain ⟨hval, rfl⟩ := Prod.mk.inj h
    exact ⟨a, rfl, Except.ok.inj hval⟩

/-! ## Fields that are computed once -/

theorem run_cached_of_ne {compute : Getting Utf16} {after : Utf16 → Getting Unit}
    (hf : p f ≠ []) : (cached f compute after).run p = (.ok (p f), p) := by
  simp [cached, Method.run_bind, hf]

/-- A getter that finds its field empty. -/
theorem run_cached_of_eq {compute : Getting Utf16} {after : Utf16 → Getting Unit} (hf : p f = []) :
    (cached f compute after).run p =
      (compute >>= fun path => do
        Method.modify fun p => Function.update p f path
        after path
        Method.gets (· f)).run p := by
  simp [cached, Method.run_bind, hf]

/-- What the computation of a field has to do. -/
def Computes (sep : UInt16) (f : Field) (compute : Getting Utf16) : Prop :=
  ∀ p v q, Sound sep p → p f = [] → compute.run p = (.ok v, q) →
    v ≠ [] ∧ q f = [] ∧ FieldSound sep (Function.update q f v) f

/-- The getter returns its field, which is not empty any more. -/
theorem cached_spec {compute : Getting Utf16} {after : Utf16 → Getting Unit}
    (hc : Safe sep compute) (ha : ∀ v, Safe sep (after v)) (hv : Computes sep f compute)
    (hp : Sound sep p) :
    (Sound sep ((cached f compute after).run p).2 ∧
      Extends p ((cached f compute after).run p).2) ∧
      ∀ v q, (cached f compute after).run p = (.ok v, q) → v ≠ [] ∧ q f = v := by
  by_cases hf : p f = []
  · obtain ⟨hsound, hext⟩ := hc p hp
    rw [run_cached_of_eq hf]
    rcases hrun : compute.run p with ⟨_ | path, q⟩
    · rw [hrun] at hsound hext
      rw [Method.run_bind_error hrun]
      exact ⟨⟨hsound, hext⟩, by simp⟩
    · rw [hrun] at hsound hext
      obtain ⟨hne, hq, hfield⟩ := hv p path q hp hf hrun
      -- the path stays, whatever comes after it
      obtain ⟨hsound', hext'⟩ := ha path _ (hsound.update hq hfield)
      have hall := hext.trans ((extends_update hq path).trans hext')
      have hset : ((after path).run (Function.update q f path)).2 f = path := by
        rw [hext' f (by simpa using hne), Function.update_self]
      rw [Method.run_bind_ok hrun, Method.run_bind_ok (Method.run_modify _ _)]
      rcases hlast : (after path).run (Function.update q f path) with ⟨_ | _, r⟩
      · rw [hlast] at hsound' hall
        rw [Method.run_bind_error hlast]
        exact ⟨⟨hsound', hall⟩, by simp⟩
      · rw [hlast] at hsound' hall hset
        rw [Method.run_bind_ok hlast]
        refine ⟨⟨hsound', hall⟩, fun v q' h => ?_⟩
        simp only [Method.run_gets, Prod.mk.injEq, Except.ok.injEq] at h
        obtain ⟨rfl, rfl⟩ := h
        dsimp only at hset
        exact ⟨by rwa [hset], rfl⟩
  · rw [run_cached_of_ne hf]
    refine ⟨⟨hp, Extends.refl p⟩, fun v q h => ?_⟩
    simp only [Prod.mk.injEq, Except.ok.injEq] at h
    obtain ⟨rfl, rfl⟩ := h
    exact ⟨hf, rfl⟩

/-- A getter that returns what it has returned once, unless it `fails` on the file system. -/
structure Memo (sep : UInt16) (fails : Bool) (x : Surroundings → Getting Utf16) : Prop where
  safe : ∀ e, Safe sep (x e)
  fixed : ∀ e p v q, Sound sep p → (x e).run p = (.ok v, q) → ∀ e' q', Extends q q' →
    (x e').run q' = (.ok v, q') ∨ fails = true ∧ ∃ exn, (x e').run q' = (.error exn, q')

/-- A getter that returns its field. -/
def Returns (sep : UInt16) (f : Field) (x : Surroundings → Getting Utf16) : Prop :=
  ∀ e p v q, Sound sep p → (x e).run p = (.ok v, q) → v ≠ [] ∧ q f = v

theorem memo_cached {compute : Surroundings → Getting Utf16}
    {after : Surroundings → Utf16 → Getting Unit} (hc : ∀ e, Safe sep (compute e))
    (ha : ∀ e v, Safe sep (after e v)) (hv : ∀ e, Computes sep f (compute e)) :
    Memo sep false (fun e => cached f (compute e) (after e)) ∧
      Returns sep f fun e => cached f (compute e) (after e) := by
  have hreturns : Returns sep f fun e => cached f (compute e) (after e) :=
    fun e p v q hp hrun => (cached_spec (hc e) (ha e) (hv e) hp).2 v q hrun
  refine ⟨⟨fun e p hp => (cached_spec (hc e) (ha e) (hv e) hp).1, ?_⟩, hreturns⟩
  intro e p v q hp hrun e' q' hext
  obtain ⟨hne, rfl⟩ := hreturns e p v q hp hrun
  have hq' := hext f hne
  exact .inl ((run_cached_of_ne (hq' ▸ hne)).trans (by rw [hq']))

theorem Memo.map {fails : Bool} {x : Surroundings → Getting Utf16} (hx : Memo sep fails x)
    (φ : Utf16 → Utf16) : Memo sep fails fun e => φ <$> x e where
  safe := fun e => (hx.safe e).map φ
  fixed := by
    intro e p v q hp hrun e' q' hext
    obtain ⟨w, hw, rfl⟩ := run_map_eq_ok hrun
    rw [run_map]
    rcases hx.fixed e p w q hp hw e' q' hext with hagain | ⟨hfails, exn, hagain⟩
    · exact .inl (by rw [hagain]; rfl)
    · exact .inr ⟨hfails, exn, by rw [hagain]; rfl⟩

/-! ## The fields a call may fill -/

/-- A call fills no other fields than `fs`. -/
def Only (fs : List Field) (x : Getting α) : Prop :=
  x.Leaves fun p q => ∀ g, g ∉ fs → q g = p g

theorem only_pure (fs : List Field) (a : α) : Only fs (pure a : Getting α) := fun _ _ _ => rfl

theorem only_liftM (fs : List Field) (x : Except PathExn α) : Only fs (liftM x : Getting α) :=
  fun _ _ _ => rfl

theorem Only.bind {fs : List Field} {x : Getting α} {y : α → Getting β} (hx : Only fs x)
    (hy : ∀ a, Only fs (y a)) : Only fs (x >>= y) := by
  refine Method.Leaves.bind (fun p q r hpq hqr g hg => ?_) hx hy
  rw [hqr g hg, hpq g hg]

theorem Only.map {fs : List Field} {x : Getting α} (hx : Only fs x) (φ : α → β) :
    Only fs (φ <$> x) := by
  rw [map_eq_pure_bind]
  exact hx.bind fun _ => only_pure fs _

theorem only_cached {fs : List Field} {compute : Getting Utf16} {after : Utf16 → Getting Unit}
    (hf : f ∈ fs) (hc : Only fs compute) (ha : ∀ v, Only fs (after v)) :
    Only fs (cached f compute after) := by
  intro p
  by_cases hempty : p f = []
  · rw [run_cached_of_eq hempty]
    refine (hc.bind fun path => Only.bind ?_ fun _ => (ha path).bind fun _ => ?_) p
    · intro p g hg
      exact Function.update_of_ne (fun heq : g = f => hg (heq ▸ hf)) _ _
    · exact fun _ _ _ => rfl
  · rw [run_cached_of_ne hempty]
    exact fun _ _ => rfl

/-- A path that is computed from another one. -/
theorem computes_derived {φ : Utf16 → Utf16} {fs : List Field}
    {y : Surroundings → Getting Utf16}
    (horigin : origin sep f = some (g, φ)) (hclosing : closing sep f = [])
    (hφ : ∀ v, v ≠ [] → φ v ≠ []) (honly : Only fs (y e)) (hf : f ∉ fs) (hfg : g ≠ f)
    (hy : Returns sep g y) : Computes sep f (φ <$> y e) := by
  intro p v q hp hempty hrun
  obtain ⟨w, hw, rfl⟩ := run_map_eq_ok hrun
  obtain ⟨hne, hq⟩ := hy e p w q hp hw
  have hleft := honly p f hf
  rw [hw] at hleft
  refine ⟨hφ w hne, hleft.trans hempty, ?_, fun g' φ' h => ?_⟩
  · rw [hclosing]
    exact List.nil_suffix
  · rw [horigin] at h
    obtain ⟨rfl, rfl⟩ := Prod.mk.inj (Option.some.inj h)
    rw [Function.update_of_ne hfg, Function.update_self, hq]
    exact ⟨hne, rfl⟩

/-! ## The getters -/

theorem SepChar_ne_nil : SepChar sep ≠ [] := by simp [SepChar]

theorem slash_ne_nil : slash ≠ [] := by decide

theorem append_ne_nil (h : w ≠ []) : v ++ w ≠ [] := fun heq => h (List.append_eq_nil_iff.1 heq).2

theorem inDir_ne_nil (dir : Utf16) (v : Utf16) (hv : v ≠ []) : inDir dir v ≠ [] := by
  unfold inDir
  split_ifs
  · exact hv
  · exact append_ne_nil slash_ne_nil

theorem inCalcDir_ne_nil (v : Utf16) (hv : v ≠ []) : inCalcDir v ≠ [] := by
  unfold inCalcDir
  split_ifs
  · exact hv
  · exact append_ne_nil slash_ne_nil

theorem underDir_ne_nil (dir : Utf16) (v : Utf16) (hv : v ≠ []) : underDir sep dir v ≠ [] := by
  unfold underDir
  split_ifs
  · exact hv
  · exact append_ne_nil SepChar_ne_nil

theorem computes_appDirPath (e : Surroundings) : Computes sep .appDirPath
    (pure (match e.baseDirectory, e.domainDirectory with
      | some dir, _ => dir ++ SepChar sep
      | none, some dir => orEmpty dir ++ SepChar sep
      | none, none => .ofString "." ++ SepChar sep)) := by
  intro p v q hp hempty hrun
  simp only [Method.run_pure, Prod.mk.injEq, Except.ok.injEq] at hrun
  obtain ⟨hv, rfl⟩ := hrun
  have hsuffix : SepChar sep <:+ v := by
    rw [← hv]
    rcases e.baseDirectory with _ | dir
    · rcases e.domainDirectory with _ | dir <;> exact List.suffix_append _ _
    · exact List.suffix_append _ _
  refine ⟨fun hnil => SepChar_ne_nil (List.suffix_nil.1 (hnil ▸ hsuffix)), hempty, ?_, by
    simp [origin]⟩
  rwa [Function.update_self]

theorem memo_appDirPath : Memo sep false (appDirPath sep) ∧ Returns sep .appDirPath (appDirPath sep) :=
  memo_cached (fun _ => safe_pure _) (fun _ _ => safe_pure _) computes_appDirPath

theorem only_appDirPath {fs : List Field} (h : .appDirPath ∈ fs) : Only fs (appDirPath sep e) :=
  only_cached h (only_pure fs _) fun _ => only_pure fs _

/-- The directory of the log is there. -/
def logs (sep : UInt16) (e : Surroundings) (appDir : Utf16) : Bool :=
  e.directoryExists (underDir sep LOG_DIR appDir) || e.createDirectory (underDir sep LOG_DIR appDir)

theorem logPathDir_eq : logPathDir sep e = appDirPath sep e >>= fun appDir =>
    liftM (if logs sep e appDir then Except.ok (underDir sep LOG_DIR appDir)
      else .error PathExn.io) := by
  unfold logPathDir
  refine congrArg (appDirPath sep e >>= ·) (funext fun appDir => ?_)
  cases hexists : e.directoryExists (underDir sep LOG_DIR appDir) with
  | true =>
    simp only [logs, hexists, if_true, Bool.true_or]
    rfl
  | false =>
    cases hcreate : e.createDirectory (underDir sep LOG_DIR appDir) <;>
      simp only [logs, hexists, hcreate, createDirectory, if_true, Bool.or_self, Bool.or_true,
        Bool.false_eq_true, if_false] <;> rfl

theorem memo_logPathDir : Memo sep true (logPathDir sep) where
  safe := by
    intro e
    rw [logPathDir_eq]
    exact (memo_appDirPath.1.safe e).bind fun _ => safe_liftM _
  fixed := by
    intro e p v q hp hrun e' q' hext
    rw [logPathDir_eq] at hrun ⊢
    rcases hdir : (appDirPath sep e).run p with ⟨_ | appDir, r⟩
    · rw [Method.run_bind_error hdir] at hrun
      cases hrun
    · rw [Method.run_bind_ok hdir, Method.run_liftM] at hrun
      obtain ⟨hv, rfl⟩ := Prod.mk.inj hrun
      obtain ⟨-, hv⟩ : logs sep e appDir = true ∧ underDir sep LOG_DIR appDir = v := by
        split_ifs at hv with hlogs
        exact ⟨hlogs, Except.ok.inj hv⟩
      -- the directory is the same, and may not be there
      have hagain := (memo_appDirPath.1.fixed e p appDir r hp hdir e' q' hext).resolve_right (by simp)
      rw [Method.run_bind_ok hagain, Method.run_liftM, hv]
      split_ifs
      · exact .inl rfl
      · exact .inr ⟨rfl, _, rfl⟩

theorem only_logPathDir {fs : List Field} (h : .appDirPath ∈ fs) : Only fs (logPathDir sep e) := by
  rw [logPathDir_eq]
  exact (only_appDirPath h).bind fun _ => only_liftM fs _

theorem safe_logStatic : Safe sep (logStatic sep e) :=
  ((memo_logPathDir.safe e).map _).map _

theorem only_logStatic {fs : List Field} (h : .appDirPath ∈ fs) : Only fs (logStatic sep e) :=
  ((only_logPathDir h).map _).map _

theorem safe_setting (value : Except PathExn NString) (default : Utf16) :
    Safe sep (setting sep e value default) := by
  unfold setting
  cases value with
  | ok v => exact safe_pure _
  | error exn => exact safe_logStatic.map _

theorem only_setting {fs : List Field} (h : .appDirPath ∈ fs) (value : Except PathExn NString)
    (default : Utf16) : Only fs (setting sep e value default) := by
  unfold setting
  cases value with
  | ok v => exact only_pure fs _
  | error exn => exact (only_logStatic h).map _

/-- A field that is computed from a setting. -/
theorem computes_setting {φ : Utf16 → Utf16} (hf : f ≠ .appDirPath) (horigin : origin sep f = none)
    (hφ : ∀ v, φ v ≠ []) (hclosing : closing sep f = []) (value : Except PathExn NString)
    (default : Utf16) : Computes sep f (φ <$> setting sep e value default) := by
  intro p v q hp hempty hrun
  obtain ⟨w, hw, rfl⟩ := run_map_eq_ok hrun
  have honly : Only [.appDirPath] (setting sep e value default) :=
    only_setting (by simp) value default
  have hleft := honly p f (by simpa using hf)
  rw [hw] at hleft
  refine ⟨hφ w, hleft.trans hempty, ?_, by simp [horigin]⟩
  rw [hclosing]
  exact List.nil_suffix

theorem memo_appPath : Memo sep false (appPath sep) ∧ Returns sep .appPath (appPath sep) := by
  refine memo_cached (fun _ => (safe_setting _ _).map _) (fun _ _ => safe_pure _)
    fun e => computes_setting (by simp) rfl (fun v => ?_) rfl _ _
  split_ifs with hv
  · decide
  · exact hv

theorem memo_baseAppPath :
    Memo sep false (baseAppPath sep) ∧ Returns sep .baseAppPath (baseAppPath sep) := by
  refine memo_cached (fun _ => (safe_setting _ _).map _) (fun _ _ => safe_pure _)
    fun e => computes_setting (by simp) rfl (fun v => ?_) rfl _ _
  split_ifs with hv
  · rintro rfl
    exact Bool.false_ne_true (e.endsWithSlash_nil.symm.trans hv)
  · exact append_ne_nil slash_ne_nil

theorem only_baseAppPath : Only [.appDirPath, .baseAppPath] (baseAppPath sep e) :=
  only_cached (by simp) ((only_setting (by simp) _ _).map _) fun _ => only_pure _ _

/-- A path below `BaseAppPath`. -/
theorem memo_below {φ : Utf16 → Utf16} (horigin : origin sep f = some (.baseAppPath, φ))
    (hclosing : closing sep f = []) (hφ : ∀ v, v ≠ [] → φ v ≠ [])
    (hf : f ∉ [Field.appDirPath, .baseAppPath]) :
    Memo sep false (fun e => cached f (φ <$> baseAppPath sep e) fun _ => pure ()) ∧
      Returns sep f fun e => cached f (φ <$> baseAppPath sep e) fun _ => pure () := by
  refine memo_cached (fun e => (memo_baseAppPath.1.safe e).map _) (fun _ _ => safe_pure _) fun e =>
    computes_derived horigin hclosing hφ only_baseAppPath hf ?_ memo_baseAppPath.2
  rintro rfl
  simp at hf

theorem safe_makeDirectory (path : Utf16) : Safe sep (makeDirectory sep e path) := by
  unfold makeDirectory
  split_ifs
  · exact safe_pure _
  · exact (safe_logStatic.bind fun _ => safe_liftM _).catching safe_logStatic

/-- A directory below `AppDirPath`. -/
theorem memo_belowDir {φ : Utf16 → Utf16} (horigin : origin sep f = some (.appDirPath, φ))
    (hclosing : closing sep f = []) (hφ : ∀ v, v ≠ [] → φ v ≠ []) (hf : f ≠ .appDirPath) :
    Memo sep false (fun e => cached f (φ <$> appDirPath sep e) (makeDirectory sep e)) ∧
      Returns sep f fun e => cached f (φ <$> appDirPath sep e) (makeDirectory sep e) := by
  have honly : ∀ e, Only [.appDirPath] (appDirPath sep e) := fun _ => only_appDirPath (by simp)
  exact memo_cached (fun e => (memo_appDirPath.1.safe e).map _)
    (fun _ path => safe_makeDirectory path) fun e =>
      computes_derived horigin hclosing hφ (honly e) (by simpa using hf) hf.symm memo_appDirPath.2

theorem memo_resAppPath :
    Memo sep false (resAppPath sep) ∧ Returns sep .resAppPath (resAppPath sep) :=
  memo_below rfl rfl (inDir_ne_nil RES_DIR) (by simp)

theorem memo_unixAppPath :
    Memo sep false (unixAppPath sep) ∧ Returns sep .unixAppPath (unixAppPath sep) :=
  memo_below rfl rfl (inDir_ne_nil UNIX_DIR) (by simp)

theorem memo_qrAppPath : Memo sep false (qrAppPath sep) ∧ Returns sep .qrAppPath (qrAppPath sep) :=
  memo_below rfl rfl (inDir_ne_nil QR_DIR) (by simp)

theorem memo_encodeAppPath :
    Memo sep false (encodeAppPath sep) ∧ Returns sep .encodeAppPath (encodeAppPath sep) :=
  memo_below rfl rfl (inDir_ne_nil ENCODE_DIR) (by simp)

theorem memo_gamesAppPath :
    Memo sep false (gamesAppPath sep) ∧ Returns sep .gamesAppPath (gamesAppPath sep) :=
  memo_below rfl rfl (inDir_ne_nil GAMES_DIR) (by simp)

theorem memo_calcAppPath :
    Memo sep false (calcAppPath sep) ∧ Returns sep .calcAppPath (calcAppPath sep) :=
  memo_below rfl rfl inCalcDir_ne_nil (by simp)

theorem memo_resDirPath :
    Memo sep false (resDirPath sep) ∧ Returns sep .resDirPath (resDirPath sep) :=
  memo_belowDir rfl rfl (underDir_ne_nil RES_DIR) (by simp)

theorem memo_outDirPath :
    Memo sep false (outDirPath sep) ∧ Returns sep .outDirPath (outDirPath sep) :=
  memo_belowDir rfl rfl (fun v hv => underDir_ne_nil OUT_DIR _ (underDir_ne_nil RES_DIR v hv))
    (by simp)

/-- The name of the log file has the date in it; every other getter is one of these. -/
theorem memo_get {g : Getter} (hg : g ≠ .LogPathFile) :
    Memo sep (g = .LogPathDir) fun e => get sep e g := by
  cases g with
  | LogPathFile => exact absurd rfl hg
  | LogPathDir => exact memo_logPathDir
  | AppPath => exact memo_appPath.1
  | AppDirPath => exact memo_appDirPath.1
  | BaseAppPath => exact memo_baseAppPath.1
  | CalcAppPath => exact memo_calcAppPath.1
  | ResAppPath => exact memo_resAppPath.1
  | UnixAppPath => exact memo_unixAppPath.1
  | QrAppPath => exact memo_qrAppPath.1
  | EncodeAppPath => exact memo_encodeAppPath.1
  | GamesAppPath => exact memo_gamesAppPath.1
  | ResDirPath => exact memo_resDirPath.1
  | OutDirPath => exact memo_outDirPath.1
  | CssAppPath => exact memo_resAppPath.1.map _
  | JsAppPath => exact memo_resAppPath.1.map _
  | TextAppPath => exact memo_resAppPath.1.map _
  | OutAppPath => exact memo_resAppPath.1.map _
  | AdditionalBinDir => exact memo_resDirPath.1.map _
  | TextDirPath => exact memo_resDirPath.1.map _
  | BinDir => exact memo_outDirPath.1.map _
  | QrDirPath => exact memo_appDirPath.1.map _
  | Utf8PathDir => exact memo_appDirPath.1.map _

theorem safe_get (g : Getter) : Safe sep (get sep e g) := by
  by_cases hg : g = .LogPathFile
  · subst hg
    exact (memo_logPathDir.safe e).map _
  · exact (memo_get hg).safe e

/-- **The fields over any calls.** -/
theorem afterCalls_spec (calls : List (Surroundings × Getter)) (hp : Sound sep p) :
    Sound sep (afterCalls sep calls p) ∧ Extends p (afterCalls sep calls p) := by
  refine finalState_induction (P := fun q => Sound sep q ∧ Extends p q) _ ?_ calls
    ⟨hp, Extends.refl p⟩
  rintro ⟨e, g⟩ q ⟨hq, hext⟩
  obtain ⟨hq', hext'⟩ := safe_get (e := e) g q hq
  exact ⟨hq', hext.trans hext'⟩

/-- **A path stays what it was**: once a getter has returned a path, after any calls and with any other
configuration, it returns the same path and changes nothing. Only `LogPathDir` may throw instead, where
its directory is not there and cannot be made. -/
theorem get_fixed (sep : UInt16) (calls : List (Surroundings × Getter)) (e : Surroundings)
    (g : Getter) (hg : g ≠ .LogPathFile) (v : Utf16) (q : Paths)
    (h : (get sep e g).run (afterCalls sep calls .empty) = (.ok v, q))
    (more : List (Surroundings × Getter)) (e' : Surroundings) :
    (get sep e' g).run (afterCalls sep more q) = (.ok v, afterCalls sep more q) ∨
      g = .LogPathDir ∧
        ∃ exn, (get sep e' g).run (afterCalls sep more q) = (.error exn, afterCalls sep more q) := by
  have hp := (afterCalls_spec calls (sound_empty sep)).1
  have hq := (safe_get (e := e) g _ hp).1
  rw [h] at hq
  have hext := (afterCalls_spec more hq).2
  simpa using (memo_get hg).fixed e _ v q hp h e' _ hext

/-- A configuration without settings, on a file system where nothing can be made. -/
def bare : Surroundings :=
  ⟨.ok none, .ok none, some (.ofString "/app"), none, fun _ => false, fun _ => false, [],
    fun path => slash.isSuffixOf path, rfl⟩

/-- A configuration that throws, on a file system where everything is there. -/
def broken : Surroundings :=
  ⟨.error .configuration, .error .configuration, none, none, fun _ => true, fun _ => true, [],
    fun path => slash.isSuffixOf path, rfl⟩

/-- `ResDirPath` has thrown, as its directory could not be made; then it returns the path, and still does
with a configuration that would have given another one. -/
theorem get_fixed_res :
    ((get 47 bare .ResDirPath).run .empty).1 = .error .io ∧
      ∃ q, (get 47 bare .ResDirPath).run
          (afterCalls 47 [(bare, .ResDirPath)] .empty) = (.ok (.ofString "/app/res/"), q) ∧
        (get 47 broken .ResDirPath).run (afterCalls 47 [(broken, .BaseAppPath)] q) =
          (.ok (.ofString "/app/res/"), afterCalls 47 [(broken, .BaseAppPath)] q) := by
  have hrun : (get 47 bare .ResDirPath).run (afterCalls 47 [(bare, .ResDirPath)] .empty) =
      (.ok (.ofString "/app/res/"), afterCalls 47 [(bare, .ResDirPath)] .empty) := rfl
  refine ⟨rfl, _, hrun, ?_⟩
  exact (get_fixed 47 [(bare, .ResDirPath)] bare .ResDirPath (by simp) _ _ hrun
    [(broken, .BaseAppPath)] broken).resolve_right (by simp)

/-! ## The slash of the base path -/

/-- A configured base path that is taken to end with a slash does. -/
def EndsOrdinally (e : Surroundings) : Prop :=
  ∀ path, e.baseAppPath = .ok path → e.endsWithSlash (orEmpty path) = true → slash <:+ orEmpty path

/-- The base path has its slash, once it has been computed. -/
def Slashed (p : Paths) : Prop := p .baseAppPath = [] ∨ slash <:+ p .baseAppPath

/-- A call leaves it so. -/
def Keeps (x : Getting α) : Prop := x.Leaves fun p q => Slashed p → Slashed q

theorem keeps_pure (a : α) : Keeps (pure a : Getting α) := fun _ => id

theorem keeps_liftM (x : Except PathExn α) : Keeps (liftM x : Getting α) := fun _ => id

theorem Keeps.bind {x : Getting α} {y : α → Getting β} (hx : Keeps x) (hy : ∀ a, Keeps (y a)) :
    Keeps (x >>= y) :=
  Method.Leaves.bind (fun _ _ _ hpq hqr hp => hqr (hpq hp)) hx hy

theorem Keeps.map {x : Getting α} (hx : Keeps x) (φ : α → β) : Keeps (φ <$> x) := by
  rw [map_eq_pure_bind]
  exact hx.bind fun _ => keeps_pure _

theorem Keeps.catching {x y : Getting Unit} (hx : Keeps x) (hy : Keeps y) :
    Keeps (catching x y) := by
  intro p hp
  have hq := hx p hp
  rw [LibPaths.catching]
  dsimp only
  rcases hrun : x.run p with ⟨_ | _, q⟩ <;> rw [hrun] at hq
  · exact hy q hq
  · exact hq

/-- Filling another field. -/
theorem keeps_cached {compute : Getting Utf16} {after : Utf16 → Getting Unit}
    (hf : f ≠ .baseAppPath) (hc : Keeps compute) (ha : ∀ v, Keeps (after v)) :
    Keeps (cached f compute after) := by
  intro p
  by_cases hempty : p f = []
  · rw [run_cached_of_eq hempty]
    refine (hc.bind fun path => Keeps.bind ?_ fun _ => (ha path).bind fun _ => ?_) p
    · intro p hp
      rw [Method.run_modify]
      dsimp only [Slashed]
      rwa [Function.update_of_ne hf.symm]
    · exact fun _ => id
  · rw [run_cached_of_ne hempty]
    exact id

theorem keeps_appDirPath : Keeps (appDirPath sep e) :=
  keeps_cached (by simp) (keeps_pure _) fun _ => keeps_pure _

theorem keeps_logPathDir : Keeps (logPathDir sep e) := by
  rw [logPathDir_eq]
  exact keeps_appDirPath.bind fun _ => keeps_liftM _

theorem keeps_logStatic : Keeps (logStatic sep e) := (keeps_logPathDir.map _).map _

theorem keeps_setting (value : Except PathExn NString) (default : Utf16) :
    Keeps (setting sep e value default) := by
  unfold setting
  cases value with
  | ok v => exact keeps_pure _
  | error exn => exact keeps_logStatic.map _

/-- What a setting is. -/
theorem setting_eq_ok {value : Except PathExn NString} {default : Utf16}
    (h : (setting sep e value default).run p = (.ok v, q)) :
    (∃ path, value = .ok path ∧ v = orEmpty path) ∨ v = default := by
  cases value with
  | ok path =>
    simp only [setting, Method.run_pure, Prod.mk.injEq, Except.ok.injEq] at h
    exact .inl ⟨path, rfl, h.1.symm⟩
  | error exn =>
    obtain ⟨_, -, rfl⟩ := run_map_eq_ok h
    exact .inr rfl

/-- The base path itself. -/
theorem keeps_baseAppPath (he : EndsOrdinally e) : Keeps (baseAppPath sep e) := by
  intro p hp
  by_cases hempty : p .baseAppPath = []
  · have hsetting : Keeps (setting sep e e.baseAppPath slash) := keeps_setting _ _
    have hcompute := hsetting.map
      (fun path => if e.endsWithSlash path then path else path ++ slash) p hp
    rw [baseAppPath, run_cached_of_eq hempty]
    rcases hrun : ((fun path => if e.endsWithSlash path then path else path ++ slash) <$>
      setting sep e e.baseAppPath slash).run p with ⟨_ | path, q⟩
    · rw [Method.run_bind_error hrun]
      rwa [hrun] at hcompute
    · obtain ⟨w, hw, rfl⟩ := run_map_eq_ok hrun
      rw [Method.run_bind_ok hrun, Method.run_bind_ok (Method.run_modify _ _)]
      refine .inr ?_
      change slash <:+ Function.update q Field.baseAppPath _ Field.baseAppPath
      rw [Function.update_self]
      split_ifs with hends
      · rcases setting_eq_ok hw with ⟨path, hpath, rfl⟩ | rfl
        · exact he path hpath hends
        · exact List.suffix_refl _
      · exact List.suffix_append _ _
  · rwa [baseAppPath, run_cached_of_ne hempty]

theorem keeps_makeDirectory (path : Utf16) : Keeps (makeDirectory sep e path) := by
  unfold makeDirectory
  split_ifs
  · exact keeps_pure _
  · exact (keeps_logStatic.bind fun _ => keeps_liftM _).catching keeps_logStatic

theorem keeps_resAppPath (he : EndsOrdinally e) : Keeps (resAppPath sep e) :=
  keeps_cached (by simp) ((keeps_baseAppPath he).map _) fun _ => keeps_pure _

theorem keeps_resDirPath : Keeps (resDirPath sep e) :=
  keeps_cached (by simp) (keeps_appDirPath.map _) keeps_makeDirectory

theorem keeps_outDirPath : Keeps (outDirPath sep e) :=
  keeps_cached (by simp) (keeps_appDirPath.map _) keeps_makeDirectory

theorem keeps_get (he : EndsOrdinally e) (g : Getter) : Keeps (get sep e g) := by
  cases g with
  | AppPath =>
    exact keeps_cached (by simp) ((keeps_setting _ _).map _) fun _ => keeps_pure _
  | AppDirPath => exact keeps_appDirPath
  | BaseAppPath => exact keeps_baseAppPath he
  | ResAppPath => exact keeps_resAppPath he
  | ResDirPath => exact keeps_resDirPath
  | OutDirPath => exact keeps_outDirPath
  | LogPathDir => exact keeps_logPathDir
  | LogPathFile => exact keeps_logPathDir.map _
  | CssAppPath | JsAppPath | TextAppPath | OutAppPath => exact (keeps_resAppPath he).map _
  | AdditionalBinDir | TextDirPath => exact keeps_resDirPath.map _
  | BinDir => exact keeps_outDirPath.map _
  | QrDirPath | Utf8PathDir => exact keeps_appDirPath.map _
  | CalcAppPath | UnixAppPath | QrAppPath | EncodeAppPath | GamesAppPath =>
    exact keeps_cached (by simp) ((keeps_baseAppPath he).map _) fun _ => keeps_pure _

/-- The base path over any calls. -/
theorem slashed_afterCalls {calls : List (Surroundings × Getter)}
    (hcalls : ∀ call ∈ calls, EndsOrdinally call.1) : Slashed (afterCalls sep calls .empty) := by
  refine finalState_induction_of (P := Slashed) (C := fun call _ => EndsOrdinally call.1) _ ?_
    (.inl rfl) fun _ call _ hsplit => hcalls call (by simp [hsplit])
  exact fun call p hp he => keeps_get he call.2 p hp

/-! ## The paths -/

/-- The end of the path in a field, and a directory it names. `AppPath` is as configured. -/
def Field.ending (sep : UInt16) : Field → Utf16
  | .appPath => []
  | .appDirPath => SepChar sep
  | .resDirPath => SepChar sep
  | .outDirPath => SepChar sep
  | _ => slash

def Field.dir : Field → Utf16
  | .resAppPath => RES_DIR
  | .qrAppPath => QR_DIR
  | .encodeAppPath => ENCODE_DIR
  | .gamesAppPath => GAMES_DIR
  | .unixAppPath => UNIX_DIR
  | .calcAppPath => CALC_DIR
  | .resDirPath => RES_DIR
  | .outDirPath => OUT_DIR
  | _ => []

theorem infix_middle (u v w : Utf16) : v <:+: u ++ v ++ w := ⟨u, w, rfl⟩

theorem inDir_closed {dir path : Utf16} (h : slash <:+ path) :
    slash <:+ inDir dir path ∧ dir <:+: inDir dir path := by
  unfold inDir
  split_ifs with hdir
  · exact ⟨h, (infix_middle slash dir slash).trans hdir⟩
  · exact ⟨List.suffix_append _ _, infix_middle path dir slash⟩

theorem inCalcDir_closed {path : Utf16} (h : slash <:+ path) :
    slash <:+ inCalcDir path ∧ CALC_DIR <:+: inCalcDir path := by
  unfold inCalcDir
  split_ifs with hdir
  · exact ⟨h, hdir⟩
  · exact ⟨List.suffix_append _ _, infix_middle path CALC_DIR slash⟩

theorem underDir_closed {dir path : Utf16} (h : SepChar sep <:+ path) :
    SepChar sep <:+ underDir sep dir path ∧ dir <:+: underDir sep dir path := by
  unfold underDir
  split_ifs with hdir
  · exact ⟨h, hdir⟩
  · exact ⟨List.suffix_append _ _, infix_middle path dir (SepChar sep)⟩

/-- A computed path has its end and its directory. -/
theorem Sound.closed (h : Sound sep p) (hslash : Slashed p) (hf : p f ≠ []) :
    f.ending sep <:+ p f ∧ f.dir <:+: p f := by
  have hbelow : ∀ φ, origin sep f = some (.baseAppPath, φ) → slash <:+ p .baseAppPath ∧
      p f = φ (p .baseAppPath) := by
    intro φ hφ
    obtain ⟨hne, heq⟩ := (h f hf).origin _ _ hφ
    exact ⟨hslash.resolve_left hne, heq⟩
  have hbelowDir : ∀ φ, origin sep f = some (.appDirPath, φ) → SepChar sep <:+ p .appDirPath ∧
      p f = φ (p .appDirPath) := by
    intro φ hφ
    obtain ⟨hne, heq⟩ := (h f hf).origin _ _ hφ
    exact ⟨(h .appDirPath hne).closing, heq⟩
  cases f with
  | appPath => exact ⟨List.nil_suffix, List.nil_infix⟩
  | baseAppPath => exact ⟨hslash.resolve_left hf, List.nil_infix⟩
  | appDirPath => exact ⟨(h .appDirPath hf).closing, List.nil_infix⟩
  | calcAppPath =>
    obtain ⟨hbase, heq⟩ := hbelow _ rfl
    rw [heq]
    exact inCalcDir_closed hbase
  | resDirPath =>
    obtain ⟨hdir, heq⟩ := hbelowDir _ rfl
    rw [heq]
    exact underDir_closed hdir
  | outDirPath =>
    obtain ⟨hdir, heq⟩ := hbelowDir _ rfl
    rw [heq]
    exact underDir_closed (underDir_closed hdir).1
  | _ =>
    obtain ⟨hbase, heq⟩ := hbelow _ rfl
    rw [heq]
    exact inDir_closed hbase

/-- The separator at the end of the path a getter returns: `AppPath` is as configured, and `LogPathFile`
is a file. -/
def Getter.separator (sep : UInt16) : Getter → Option Utf16
  | .AppPath => none
  | .LogPathFile => none
  | .AppDirPath => some (SepChar sep)
  | .ResDirPath => some (SepChar sep)
  | .AdditionalBinDir => some (SepChar sep)
  | .TextDirPath => some (SepChar sep)
  | .LogPathDir => some (SepChar sep)
  | .OutDirPath => some (SepChar sep)
  | .BinDir => some (SepChar sep)
  | .QrDirPath => some (SepChar sep)
  | .Utf8PathDir => some (SepChar sep)
  | _ => some slash

/-- The directory named in it, if it is one below another path. -/
def Getter.dir : Getter → Utf16
  | .AppPath => []
  | .AppDirPath => []
  | .BaseAppPath => []
  | .CalcAppPath => CALC_DIR
  | .CssAppPath => CSS_DIR
  | .JsAppPath => JS_DIR
  | .ResAppPath => RES_DIR
  | .ResDirPath => RES_DIR
  | .UnixAppPath => UNIX_DIR
  | .QrAppPath => QR_DIR
  | .EncodeAppPath => ENCODE_DIR
  | .GamesAppPath => GAMES_DIR
  | .AdditionalBinDir => BIN_DIR
  | .TextDirPath => TEXT_DIR
  | .TextAppPath => TEXT_DIR
  | .LogPathDir => LOG_DIR
  | .LogPathFile => LOG_DIR
  | .OutAppPath => OUT_DIR
  | .OutDirPath => OUT_DIR
  | .BinDir => BIN_DIR
  | .QrDirPath => QR_DIR
  | .Utf8PathDir => UTF8_DIR

/-- The path in a field, as its getter returns it. -/
theorem closed_of_returns {x : Surroundings → Getting Utf16}
    (hx : Memo sep false x ∧ Returns sep f x) (hkeeps : Keeps (x e)) (hp : Sound sep p)
    (hslash : Slashed p) (hrun : (x e).run p = (.ok v, q)) :
    f.ending sep <:+ v ∧ f.dir <:+: v := by
  obtain ⟨hne, rfl⟩ := hx.2 e p v q hp hrun
  have hq := (hx.1.safe e p hp).1
  have hslash' := hkeeps p hslash
  rw [hrun] at hq hslash'
  exact hq.closed hslash' hne

/-- A getter that appends a directory. -/
theorem closed_of_append {x : Getting Utf16} {dir ending : Utf16}
    (hrun : ((· ++ (dir ++ ending)) <$> x).run p = (.ok v, q)) : ending <:+ v ∧ dir <:+: v := by
  obtain ⟨w, -, rfl⟩ := run_map_eq_ok hrun
  rw [← List.append_assoc]
  exact ⟨List.suffix_append _ _, infix_middle w dir ending⟩

theorem logPathDir_closed (hp : Sound sep p) (hslash : Slashed p)
    (hrun : (logPathDir sep e).run p = (.ok v, q)) :
    SepChar sep <:+ v ∧ LOG_DIR <:+: v := by
  rw [logPathDir_eq] at hrun
  rcases hdir : (appDirPath sep e).run p with ⟨_ | appDir, r⟩
  · rw [Method.run_bind_error hdir] at hrun
    cases hrun
  · rw [Method.run_bind_ok hdir, Method.run_liftM] at hrun
    obtain ⟨hv, -⟩ := Prod.mk.inj hrun
    split_ifs at hv
    obtain rfl := Except.ok.inj hv
    exact underDir_closed (closed_of_returns memo_appDirPath keeps_appDirPath hp hslash hdir).1

/-- A path that is no file. -/
theorem ends_of_separator {g : Getter} (hg : g.separator sep = some w)
    (hv : w <:+ v ∧ g.dir <:+: v) :
    (∀ w, g.separator sep = some w → w <:+ v) ∧
      (g = .LogPathFile → SepChar sep ++ e.appLogFile <:+ v) ∧ g.dir <:+: v := by
  refine ⟨fun w' hw' => ?_, ?_, hv.2⟩
  · obtain rfl := Option.some.inj (hg.symm.trans hw')
    exact hv.1
  · rintro rfl
    cases hg

/-- **Every path is closed**: whatever has been called before, what a getter returns ends with the
separator of its kind, or is the log file in its directory, and has the name of its directory in it. -/
theorem get_closed (sep : UInt16) (calls : List (Surroundings × Getter)) (e : Surroundings)
    (g : Getter) (v : Utf16) (q : Paths) (hcalls : ∀ call ∈ calls, EndsOrdinally call.1)
    (he : EndsOrdinally e)
    (h : (get sep e g).run (afterCalls sep calls .empty) = (.ok v, q)) :
    (∀ w, g.separator sep = some w → w <:+ v) ∧
      (g = .LogPathFile → SepChar sep ++ e.appLogFile <:+ v) ∧ g.dir <:+: v := by
  have hp := (afterCalls_spec calls (sound_empty sep)).1
  have hslash : Slashed (afterCalls sep calls .empty) := slashed_afterCalls hcalls
  have hkeeps : Keeps (get sep e g) := keeps_get he g
  cases g with
  | AppPath => exact ⟨by simp [Getter.separator], by simp, List.nil_infix⟩
  | LogPathFile =>
    obtain ⟨w, hw, rfl⟩ := run_map_eq_ok h
    obtain ⟨⟨w, rfl⟩, hdir⟩ := logPathDir_closed hp hslash hw
    refine ⟨by simp [Getter.separator], fun _ => ⟨w, by simp⟩, ?_⟩
    exact hdir.trans (List.prefix_append _ _).isInfix
  | AppDirPath => exact ends_of_separator rfl (closed_of_returns memo_appDirPath hkeeps hp hslash h)
  | BaseAppPath =>
    exact ends_of_separator rfl (closed_of_returns memo_baseAppPath hkeeps hp hslash h)
  | CalcAppPath =>
    exact ends_of_separator rfl (closed_of_returns memo_calcAppPath hkeeps hp hslash h)
  | ResAppPath => exact ends_of_separator rfl (closed_of_returns memo_resAppPath hkeeps hp hslash h)
  | UnixAppPath =>
    exact ends_of_separator rfl (closed_of_returns memo_unixAppPath hkeeps hp hslash h)
  | QrAppPath => exact ends_of_separator rfl (closed_of_returns memo_qrAppPath hkeeps hp hslash h)
  | EncodeAppPath =>
    exact ends_of_separator rfl (closed_of_returns memo_encodeAppPath hkeeps hp hslash h)
  | GamesAppPath =>
    exact ends_of_separator rfl (closed_of_returns memo_gamesAppPath hkeeps hp hslash h)
  | ResDirPath => exact ends_of_separator rfl (closed_of_returns memo_resDirPath hkeeps hp hslash h)
  | OutDirPath => exact ends_of_separator rfl (closed_of_returns memo_outDirPath hkeeps hp hslash h)
  | LogPathDir => exact ends_of_separator rfl (logPathDir_closed hp hslash h)
  | _ => exact ends_of_separator rfl (closed_of_append h)

/-- In an application directory whose name has `log` in it, the log directory is that directory, also
after a base path without a slash has been computed. -/
theorem get_closed_catalog :
    ∃ q, (get 47 { broken with baseDirectory := some (.ofString "/catalog") } .LogPathDir).run
        (afterCalls 47 [({ bare with baseAppPath := .ok (some (.ofString "/mono")) }, .BaseAppPath)]
          .empty) = (.ok (.ofString "/catalog/"), q) ∧
      q .baseAppPath = .ofString "/mono/" ∧ LOG_DIR <:+: (.ofString "/catalog/" : Utf16) := by
  have hends : EndsOrdinally { bare with baseAppPath := .ok (some (.ofString "/mono")) } :=
    fun path _ hpath => List.isSuffixOf_iff_suffix.1 hpath
  have hbroken : EndsOrdinally { broken with baseDirectory := some (.ofString "/catalog") } := by
    intro path hpath
    cases hpath
  refine ⟨_, rfl, rfl, ?_⟩
  refine (get_closed 47 [({ bare with baseAppPath := .ok (some (.ofString "/mono")) }, .BaseAppPath)]
    { broken with baseDirectory := some (.ofString "/catalog") } .LogPathDir _ _ ?_ hbroken rfl).2.2
  simpa using hends

end LibPaths

end Server6
