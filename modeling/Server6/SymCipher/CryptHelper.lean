import Mathlib.Data.List.GetD
import Server6.SymCipher.Runtime

/-!
# Key derivation

`CryptHelper.getUserKeyBytes` turns a secret key and a hash into a key of a given length: it picks
the first of three strings that has enough UTF-8 bytes, or the third, and copies bytes from it,
starting over when they run out. The copying loops at the end (`fillKey`) are shared with
`CryptBounceCastle`, which picks among other strings.

`getUserKeyBytes_eq` is its whole behaviour on a key length `n`: it returns `spread n` of the
string picked, so it never throws on a secret key and no random byte is left in the result.
-/

namespace Server6

/-- `Encoding.UTF8.GetByteCount`. -/
def byteCount (s : Utf16) : Int := (Utf16.utf8 s).length

/-- A reference that the callee dereferences. -/
def nonNull (s : NString) : Except Exn Utf16 :=
  match s with
  | none => .error .argumentNull
  | some s => .ok s

@[simp] theorem nonNull_some (s : Utf16) : nonNull (some s) = .ok s := rfl

/-- The two copying loops of `GetUserKeyBytes`, on the string it has picked. A string that is too
short first has the key array filled with random bytes. -/
def fillKey (R : Runtime) (keyByteHashString : Utf16) (tmpKey : Bytes) (keyLen : Int) :
    Except Exn Bytes :=
  if byteCount keyByteHashString < keyLen then
    let tmpKey := (List.range keyLen.toNat).map (R.randomByte keyLen.toNat)
    let tinyKeyBytes := Utf16.utf8 keyByteHashString
    (List.range keyLen.toNat).foldlM (fun tmpKey bytCnt =>
      if tinyKeyBytes.length = 0 then .error .divideByZero
      else do
        let b ← readAt .indexOutOfRange tinyKeyBytes (bytCnt % tinyKeyBytes.length : ℕ)
        writeAt .indexOutOfRange tmpKey bytCnt b) tmpKey
  else
    let ssSmallNotTinyKeyBytes := Utf16.utf8 keyByteHashString
    (List.range keyLen.toNat).foldlM (fun tmpKey bytIdx => do
      let b ← readAt .indexOutOfRange ssSmallNotTinyKeyBytes (bytIdx : ℕ)
      writeAt .indexOutOfRange tmpKey bytIdx b) tmpKey

/-- Byte `i` of the endless repetition of the UTF-8 bytes of `s`. -/
def keyStream (s : Utf16) (i : ℕ) : UInt8 :=
  (Utf16.utf8 s).getD (i % (Utf16.utf8 s).length) 0

/-- The first `n` bytes of the endless repetition of the UTF-8 bytes of `s`. -/
def spread (n : ℕ) (s : Utf16) : Bytes := (List.range n).map (keyStream s)

@[simp] theorem length_spread (n : ℕ) (s : Utf16) : (spread n s).length = n := by
  simp [spread]

theorem spread_eq_spread_iff {n : ℕ} {s t : Utf16} :
    spread n s = spread n t ↔ ∀ i < n, keyStream s i = keyStream t i := by
  simp [spread, List.map_inj_left]

theorem readAt_keyStream {s : Utf16} {i : ℕ} (hs : s ≠ []) :
    readAt Exn.indexOutOfRange (Utf16.utf8 s) (i % (Utf16.utf8 s).length : ℕ) =
      .ok (keyStream s i) := by
  have hi := Nat.mod_lt i (Utf16.length_utf8_pos hs)
  rw [readAt_of_lt _ hi, keyStream, List.getD_eq_getElem _ _ hi]

/-- **The copying loops**: whatever the generator wrote, the key is the picked string's bytes,
repeated. -/
theorem fillKey_eq (R : Runtime) {s : Utf16} {tmpKey : Bytes} {n : ℕ} (hs : s ≠ [] ∨ n = 0)
    (hlen : tmpKey.length = n) : fillKey R s tmpKey n = .ok (spread n s) := by
  unfold fillKey
  simp only [Int.toNat_natCast]
  by_cases h : byteCount s < n
  · rw [if_pos h]
    have hs : s ≠ [] := hs.resolve_right (by rintro rfl; simp [byteCount] at h; omega)
    refine foldlM_fill (keyStream s) (fun ys i hys hi => ?_) (by simp)
    have hpos := Utf16.length_utf8_pos hs
    rw [if_neg (by omega), readAt_keyStream hs]
    exact writeAt_natCast _ (hys.symm ▸ hi) _
  · rw [if_neg h]
    refine foldlM_fill (keyStream s) (fun ys i hys hi => ?_) hlen
    have hi' : i < (Utf16.utf8 s).length := by simp only [byteCount] at h; omega
    have hs : s ≠ [] := by rintro rfl; simp at hi'
    have hmod := readAt_keyStream (i := i) hs
    rw [Nat.mod_eq_of_lt hi'] at hmod
    rw [hmod]
    exact writeAt_natCast _ (hys.symm ▸ hi) _

/-- The first of three strings with at least `n` bytes, or the third: the string that
`GetUserKeyBytes` takes the key from. -/
def pick (n : ℕ) (s₁ s₂ s₃ : Utf16) : Utf16 :=
  if n ≤ (Utf16.utf8 s₁).length then s₁ else if n ≤ (Utf16.utf8 s₂).length then s₂ else s₃

theorem pick_ne_nil {n : ℕ} {s₁ s₂ s₃ : Utf16} (h₃ : s₃ ≠ []) :
    pick n s₁ s₂ s₃ ≠ [] ∨ n = 0 := by
  unfold pick
  split_ifs with h1 h2
  · rcases eq_or_ne s₁ [] with rfl | h
    · exact .inr (by simpa using h1)
    · exact .inl h
  · rcases eq_or_ne s₂ [] with rfl | h
    · exact .inr (by simpa using h2)
    · exact .inl h
  · exact .inl h₃

/-- The two length tests of `GetUserKeyBytes`, one after the other. -/
theorem pick_eq_ite (n : ℕ) (s₁ s₂ s₃ : Utf16) :
    (if byteCount (if byteCount s₁ < n then s₂ else s₁) < n then s₃
      else if byteCount s₁ < n then s₂ else s₁) = pick n s₁ s₂ s₃ := by
  unfold pick byteCount
  split_ifs <;> first | rfl | omega

namespace CryptHelper

/-- `PrivateUserKey`: despite its name and comment, it does not double the key. -/
def privateUserKey (secretKey : NString) : Utf16 :=
  if isNullOrEmpty secretKey then Constants.AUTHOR_EMAIL else orEmpty secretKey

/-- `PrivateKeyWithUserHash`. -/
def privateKeyWithUserHash (secretKey userHash : NString) : Utf16 :=
  let secKey := if isNullOrEmpty secretKey then Constants.AUTHOR_EMAIL else orEmpty secretKey
  let usrHash := if isNullOrEmpty userHash then Constants.AREA23_EMAIL else orEmpty userHash
  secKey ++ usrHash

/-- `GetUserKeyBytes`. -/
def getUserKeyBytes (R : Runtime) (secretKey usrHash : NString) (keyLen : Int) :
    Except Exn Bytes := do
  let tmpKey ← newBytes keyLen
  let key ← nonNull secretKey
  let keyByteHashString := if byteCount key < keyLen then privateUserKey secretKey else key
  let keyByteHashString :=
    if byteCount keyByteHashString < keyLen then privateKeyWithUserHash secretKey usrHash
    else keyByteHashString
  fillKey R keyByteHashString tmpKey keyLen

/-- The string the key is taken from. -/
def keySource (n : ℕ) (secretKey : Utf16) (usrHash : NString) : Utf16 :=
  pick n secretKey (privateUserKey secretKey) (privateKeyWithUserHash secretKey usrHash)

theorem privateKeyWithUserHash_ne_nil (secretKey usrHash : NString) :
    privateKeyWithUserHash secretKey usrHash ≠ [] := by
  have h : Constants.AUTHOR_EMAIL ≠ [] := by decide
  rcases secretKey with _ | k
  · simp [privateKeyWithUserHash, h]
  · by_cases hk : k = []
    · simp [privateKeyWithUserHash, hk, h]
    · simp [privateKeyWithUserHash, hk, orEmpty]

/-- **What `GetUserKeyBytes` returns**: `n` bytes of the source string, repeated. -/
theorem getUserKeyBytes_eq (R : Runtime) (secretKey : Utf16) (usrHash : NString) (n : ℕ) :
    getUserKeyBytes R secretKey usrHash n = .ok (spread n (keySource n secretKey usrHash)) := by
  have h : getUserKeyBytes R secretKey usrHash n =
      fillKey R (keySource n secretKey usrHash) (List.replicate n 0) n := by
    rw [getUserKeyBytes, newBytes_natCast, nonNull_some, keySource, ← pick_eq_ite]
    rfl
  rw [h]
  exact fillKey_eq R (pick_ne_nil (privateKeyWithUserHash_ne_nil _ _)) (by simp)

theorem getUserKeyBytes_none (R : Runtime) (usrHash : NString) (n : ℕ) :
    getUserKeyBytes R none usrHash n = .error .argumentNull := by
  rw [getUserKeyBytes, newBytes_natCast]
  rfl

/-- Every derived key has the length asked for. -/
theorem length_of_getUserKeyBytes {R : Runtime} {secretKey usrHash : NString} {n : ℕ} {bs : Bytes}
    (h : getUserKeyBytes R secretKey usrHash n = .ok bs) : bs.length = n := by
  rcases secretKey with _ | k
  · simp [getUserKeyBytes_none] at h
  · rw [getUserKeyBytes_eq, Except.ok.injEq] at h
    rw [← h, length_spread]

end CryptHelper

end Server6
