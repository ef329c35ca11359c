import Server6.Foundations.Arrays
import Server6.Foundations.Method
import Server6.Foundations.Utf16

/-!
# The runtime under the ciphers

What the cipher classes use of .NET: its exceptions, nullable strings, byte arrays, base64, and the
resource file read through `ResReader`.

`Runtime` collects what is not decided by the repository: the resource manager, the random
generator and the culture's case-insensitive comparison. A `Deployment` is a runtime whose six key
resources decode to as many bytes as the static constructors copy; `Deployment.resx` is the one
with the values of `Resource.resx`.
-/

namespace Server6

/-- The exceptions thrown by the code and by what it calls. -/
inductive Exn
  | argumentNull
  | argument
  | overflow
  | indexOutOfRange
  | divideByZero
  | outOfMemory
  | nullReference
  | format
  | cryptographic
  deriving DecidableEq, Repr

abbrev Bytes := List UInt8

/-- A string reference, which may be null. -/
abbrev NString := Option Utf16

/-- `string.IsNullOrEmpty`. -/
def isNullOrEmpty : NString → Bool
  | none => true
  | some s => s.isEmpty

@[simp] theorem isNullOrEmpty_none : isNullOrEmpty none = true := rfl

@[simp] theorem isNullOrEmpty_some (s : Utf16) :
    isNullOrEmpty (some s) = decide (s = []) := by
  cases s <;> rfl

/-- An argument of `string.Concat`: null counts as empty. -/
def orEmpty (s : NString) : Utf16 := s.getD []

theorem orEmpty_of_isNullOrEmpty {s : NString} (h : isNullOrEmpty s = true) : orEmpty s = [] := by
  cases s with
  | none => rfl
  | some s =>
    have hs : s = [] := by simpa using h
    rw [hs]
    rfl

/-- `new byte[n]`: a negative size is rejected. Running out of memory is not modelled, so that no size
is too large; `newArray` has the limit. -/
def newBytes (n : Int) : Except Exn Bytes :=
  if n < 0 then .error .overflow else .ok (List.replicate n.toNat 0)

theorem newBytes_natCast (n : ℕ) : newBytes n = .ok (List.replicate n 0) := by
  simp [newBytes]

/-- The largest number of bytes the runtime puts into an array. -/
def maxLength : ℕ := 0x7FFFFFC7

/-- `new byte[n]` where the size may be beyond the limit. -/
def newArray (n : Int) : Except Exn Bytes :=
  if (maxLength : Int) < n then .error .outOfMemory else newBytes n

theorem newArray_of_le {n : ℕ} (h : n ≤ maxLength) : newArray n = .ok (List.replicate n 0) := by
  rw [newArray, if_neg (by omega), newBytes_natCast]

theorem newArray_of_lt {n : ℕ} (h : maxLength < n) : newArray n = .error .outOfMemory := by
  rw [newArray, if_pos (by omega)]

/-- `Array.Copy(source, target, n)` for a target of exactly `n` bytes: the target's new value. -/
def arrayCopy (source : Option Bytes) (n : Int) : Except Exn Bytes :=
  match source with
  | none => .error .argumentNull
  | some bs => if 0 ≤ n ∧ n.toNat ≤ bs.length then .ok (bs.take n.toNat) else .error .argument

theorem arrayCopy_some {bs : Bytes} {n : ℕ} (h : n ≤ bs.length) :
    arrayCopy (some bs) n = .ok (bs.take n) := by
  simp [arrayCopy, h]

/-! ## Base64 -/

/-- The digit of a 6-bit value. -/
def base64Digit (n : ℕ) : UInt16 :=
  if n < 26 then UInt16.ofNat (65 + n)
  else if n < 52 then UInt16.ofNat (71 + n)
  else if n < 62 then UInt16.ofNat (n - 4)
  else if n = 62 then 43 else 47

/-- The 6-bit value of a digit. -/
def base64Value (c : UInt16) : Option ℕ :=
  if 65 ≤ c ∧ c ≤ 90 then some (c.toNat - 65)
  else if 97 ≤ c ∧ c ≤ 122 then some (c.toNat - 71)
  else if 48 ≤ c ∧ c ≤ 57 then some (c.toNat + 4)
  else if c = 43 then some 62
  else if c = 47 then some 63
  else none

/-- `Convert.ToBase64String`. -/
def toBase64String : Bytes → Utf16
  | [] => []
  | [a] => [base64Digit (a.toNat / 4), base64Digit (a.toNat % 4 * 16), 61, 61]
  | [a, b] =>
    [base64Digit (a.toNat / 4), base64Digit (a.toNat % 4 * 16 + b.toNat / 16),
      base64Digit (b.toNat % 16 * 4), 61]
  | a :: b :: c :: bs =>
    base64Digit (a.toNat / 4) :: base64Digit (a.toNat % 4 * 16 + b.toNat / 16) ::
      base64Digit (b.toNat % 16 * 4 + c.toNat / 64) :: base64Digit (c.toNat % 64) ::
      toBase64String bs

/-- The bytes of groups of four digits, the last of which may end in one or two `=`. -/
def base64Groups : Utf16 → Option Bytes
  | [] => some []
  | [a, b, c, d] => do
    let x ← base64Value a
    let y ← base64Value b
    if c = 61 ∧ d = 61 then return [UInt8.ofNat (x * 4 + y / 16)]
    let z ← base64Value c
    if d = 61 then return [UInt8.ofNat (x * 4 + y / 16), UInt8.ofNat (y % 16 * 16 + z / 4)]
    let w ← base64Value d
    return [UInt8.ofNat (x * 4 + y / 16), UInt8.ofNat (y % 16 * 16 + z / 4),
      UInt8.ofNat (z % 4 * 64 + w)]
  | a :: b :: c :: d :: cs => do
    let x ← base64Value a
    let y ← base64Value b
    let z ← base64Value c
    let w ← base64Value d
    let bs ← base64Groups cs
    return UInt8.ofNat (x * 4 + y / 16) :: UInt8.ofNat (y % 16 * 16 + z / 4) ::
      UInt8.ofNat (z % 4 * 64 + w) :: bs
  | _ => none

/-- `Convert.FromBase64String`: white space is skipped. -/
def fromBase64String (s : Utf16) : Except Exn Bytes :=
  match base64Groups (s.filter fun c => !(c == 32 || c == 9 || c == 10 || c == 13)) with
  | some bs => .ok bs
  | none => .error .format

/-! ## Constants and resources -/

namespace Constants

def AUTHOR_EMAIL : Utf16 := .ofString "heinrich.elsigan@gmail.com"
def AREA23_EMAIL : Utf16 := .ofString "zen@area23.at"
def AES_KEY : Utf16 := toBase64String (Utf16.utf8 (.ofString "AesKey"))
def AES_IV : Utf16 := toBase64String (Utf16.utf8 (.ofString "AesIv4"))
def DES3_KEY : Utf16 := toBase64String (Utf16.utf8 (.ofString "DesKey"))
def DES3_IV : Utf16 := toBase64String (Utf16.utf8 (.ofString "3DesIv"))
def BOUNCEK : Utf16 := toBase64String (Utf16.utf8 (.ofString "BOUNCE"))
def BOUNCE4 : Utf16 := toBase64String (Utf16.utf8 (.ofString "CASTLE"))

end Constants

/-- What the code is given by its environment. -/
structure Runtime where
  /-- `Resource.ResourceManager.GetString`. -/
  getString : Utf16 → Option Utf16
  /-- Byte `i` of the `n` bytes `RandomNumberGenerator.GetBytes` writes. -/
  randomByte : ℕ → ℕ → UInt8
  /-- `String.Equals` with `InvariantCultureIgnoreCase`, on two strings. -/
  equalsIgnoreCase : Utf16 → Utf16 → Bool

namespace Runtime

variable (R : Runtime)

/-- `ResReader.GetValue`: the resource, or the key itself where there is none. -/
def getValue (key : Utf16) : Utf16 :=
  if isNullOrEmpty (R.getString key) then key else orEmpty (R.getString key)

theorem getValue_ne_nil {key : Utf16} (h : key ≠ []) : R.getValue key ≠ [] := by
  unfold getValue
  rcases R.getString key with _ | s
  · simpa using h
  · by_cases hs : s = []
    · simpa [hs] using h
    · simp [hs, orEmpty]

/-- `Convert.FromBase64String(ResReader.GetValue(key))`. -/
def resourceBytes (key : Utf16) : Except Exn Bytes := fromBase64String (R.getValue key)

/-- `privateKey.Equals(secretKey, StringComparison.InvariantCultureIgnoreCase)`. -/
def equals (privateKey : Utf16) : NString → Bool
  | none => false
  | some secretKey => R.equalsIgnoreCase privateKey secretKey

/-- The test of a call with `init` false: the secret key is not the one held. -/
def differs (privateKey : Utf16) (secretKey : NString) : Bool :=
  (privateKey.isEmpty && !isNullOrEmpty secretKey) || !R.equals privateKey secretKey

end Runtime

/-- An ASCII letter in lower case. -/
def asciiLower (c : UInt16) : UInt16 := if 65 ≤ c ∧ c ≤ 90 then c + 32 else c

/-- What the documentation says of `InvariantCultureIgnoreCase`: it is an equivalence, and does not
see the case of ASCII letters. Which strings it tells apart is left open. -/
structure Runtime.IgnoresCase (R : Runtime) : Prop where
  of_lower_eq : ∀ s t : Utf16, s.map asciiLower = t.map asciiLower → R.equalsIgnoreCase s t = true
  symm : ∀ s t, R.equalsIgnoreCase s t = true → R.equalsIgnoreCase t s = true
  trans : ∀ s t u, R.equalsIgnoreCase s t = true → R.equalsIgnoreCase t u = true →
    R.equalsIgnoreCase s u = true

theorem Runtime.IgnoresCase.refl {R : Runtime} (h : R.IgnoresCase) (s : Utf16) :
    R.equalsIgnoreCase s s = true := h.of_lower_eq s s rfl

/-- The base64 resources the static constructors copy from, with the bytes they copy. -/
def keyResources : List (Utf16 × ℕ) :=
  [(Constants.AES_KEY, 32), (Constants.AES_IV, 16), (Constants.DES3_KEY, 24),
    (Constants.DES3_IV, 8), (Constants.BOUNCEK, 32), (Constants.BOUNCE4, 32)]

/-- A runtime whose key resources are long enough, so that no static constructor fails. -/
structure Deployment extends Runtime where
  resources : ∀ r ∈ keyResources, ∃ bs, toRuntime.resourceBytes r.1 = .ok bs ∧ r.2 ≤ bs.length

/-- The resource table of `Resource.resx`, as far as the ciphers read it. -/
def resx (key : Utf16) : Option Utf16 :=
  if key = Constants.DES3_IV then some (.ofString "fcKZpNSKLTs=")
  else if key = Constants.BOUNCE4 then
    some (.ofString "MEJBQjUxMEJBQjUxMEJBQjUxMEJBQjUxMEJBQjUwQkE=")
  else if key = Constants.BOUNCEK then
    some (.ofString "GvJd0SRyg3AcTF4Sidyrn/nJM1BNUJqKms19FZKx1Z4=")
  else if key = Constants.AES_KEY then
    some (.ofString "0ersgfaO/uP7+HrpTwZjU9VoyobLofw7KvwCAcOVMRc=")
  else if key = Constants.AES_IV then some (.ofString "6pU0BotI3zzF0cWKz56bkQ==")
  else if key = Constants.DES3_KEY then some (.ofString "C6S5DegwbQopnitJnAu/g4BXa0M32ZGZ")
  else none

/-- The repository's own deployment, on any generator and any comparison. -/
def Deployment.resx (randomByte : ℕ → ℕ → UInt8) (equalsIgnoreCase : Utf16 → Utf16 → Bool) :
    Deployment where
  getString := Server6.resx
  randomByte := randomByte
  equalsIgnoreCase := equalsIgnoreCase
  resources := by
    intro r hr
    simp only [keyResources, List.mem_cons, List.not_mem_nil, or_false] at hr
    rcases hr with rfl | rfl | rfl | rfl | rfl | rfl <;> exact ⟨_, rfl, by decide⟩

/-- The repository's deployment with a comparison that ignores the case of ASCII letters and nothing
else. -/
def Deployment.ascii : Deployment :=
  Deployment.resx (fun _ _ => 0) fun s t => s.map asciiLower == t.map asciiLower

theorem Deployment.ignoresCase_ascii : Deployment.ascii.IgnoresCase where
  of_lower_eq _ _ h := beq_iff_eq.2 h
  symm _ _ h := beq_iff_eq.2 (beq_iff_eq.1 h).symm
  trans _ _ _ h h' := beq_iff_eq.2 ((beq_iff_eq.1 h).trans (beq_iff_eq.1 h'))

end Server6
