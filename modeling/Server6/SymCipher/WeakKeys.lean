import Server6.SymCipher.DerivedKeys
import Server6.SymCipher.StaticCiphers

/-!
# Keys that Triple-DES refuses

`Des3FromKey` installs whatever 24 bytes it derives. The library takes a key only if its first and
second part of eight bytes differ, and its second and third; this depends on the bytes of the secret
key, or of the secret key and the hash, eight places apart (`keyAccepted_iff`), and is never so when
they repeat after two, four or eight bytes (`not_partsDiffer_of_dvd`).
-/

namespace Server6

open Method

namespace Des3

/-- The part of eight bytes at a place of a key. -/
def part (key : Bytes) (place : ℕ) : Bytes := (key.drop place).take 8

/-- Neighbouring parts of a key differ. -/
def Strong (key : Bytes) : Prop := part key 0 ≠ part key 8 ∧ part key 8 ≠ part key 16

instance (key : Bytes) : Decidable (Strong key) := inferInstanceAs (Decidable (_ ∧ _))

/-- What the library's documentation says of the `Key` setter on a key of 24 bytes. -/
def RefusesWeakKeys (L : Library) : Prop :=
  ∀ key : Bytes, key.length = 24 → (L.tripleDesKey key = .ok () ↔ Strong key)

/-- The key that `Des3FromKey` has reported as installed is strong, and `Encrypt` and `Decrypt` get
as far as transforming their input, `Decrypt` where twice its length is the size of an array. -/
def KeyAccepted (L : Library) (R : Runtime) (secretKey usrHash : NString)
    (s : KeyStore keyLen ivLen) : Prop :=
  ∃ t, (des3FromKey R secretKey usrHash true).run s = (.ok true, t) ∧ Strong t.key.toList ∧
    ∀ bs : Bytes, bs ≠ [] →
      encrypt L t (some bs) = (L.tripleDes true t.key.toList bs).map some ∧
      (2 * bs.length ≤ maxLength →
        decrypt L t (some bs) = (L.tripleDes false t.key.toList bs).map some)

/-- The string the key is taken from. -/
def desSource (secretKey usrHash : Utf16) : Utf16 :=
  if 24 ≤ (Utf16.utf8 secretKey).length then secretKey else secretKey ++ usrHash

/-- Among the first sixteen bytes of the source, repeated, one differs from the byte eight places
on, and so does one of the second to the third eight. -/
def PartsDiffer (s : Utf16) : Prop :=
  (∃ i < 8, keyStream s i ≠ keyStream s (i + 8)) ∧
    ∃ i < 8, keyStream s (i + 8) ≠ keyStream s (i + 16)

instance (s : Utf16) : Decidable (PartsDiffer s) :=
  inferInstanceAs (Decidable ((∃ i < 8, _) ∧ ∃ i < 8, _))

theorem part_spread {n place : ℕ} (h : place + 8 ≤ n) (s : Utf16) :
    part (spread n s) place = (List.range 8).map fun i => keyStream s (i + place) := by
  apply List.ext_getElem
  · simp [part]
    omega
  · intro i hi hi'
    simp [part, spread, Nat.add_comm]

theorem part_ne_part_iff {n a b : ℕ} (ha : a + 8 ≤ n) (hb : b + 8 ≤ n) (s : Utf16) :
    part (spread n s) a ≠ part (spread n s) b ↔
      ∃ i < 8, keyStream s (i + a) ≠ keyStream s (i + b) := by
  rw [part_spread ha, part_spread hb, Ne, List.map_inj_left]
  simp

theorem strong_spread_iff (s : Utf16) : Strong (spread 24 s) ↔ PartsDiffer s := by
  rw [Strong, part_ne_part_iff (by omega) (by omega), part_ne_part_iff (by omega) (by omega)]
  rfl

/-- Bytes that repeat after a divisor of eight make three equal parts. -/
theorem not_partsDiffer_of_dvd {s : Utf16} (h : (Utf16.utf8 s).length ∣ 8) : ¬ PartsDiffer s := by
  rintro ⟨⟨i, -, hi⟩, -⟩
  apply hi
  unfold keyStream
  rw [Nat.add_mod, Nat.mod_eq_zero_of_dvd h, Nat.add_zero, Nat.mod_mod]

/-- What a keying call with a secret key and a hash installs. -/
theorem run_des3FromKey (D : Deployment) {secretKey usrHash : Utf16} (hs : secretKey ≠ [])
    (hh : usrHash ≠ []) (s : KeyStore keyLen ivLen) :
    ∃ t, (des3FromKey D.toRuntime (some secretKey) (some usrHash) true).run s = (.ok true, t) ∧
      t.key.toList = spread 24 (desSource secretKey usrHash) := by
  have hsource : ∀ n : ℕ, CryptHelper.getUserKeyBytes D.toRuntime (some secretKey) (some usrHash) n =
      .ok (spread n (if n ≤ (Utf16.utf8 secretKey).length then secretKey
        else secretKey ++ usrHash)) := by
    intro n
    rw [CryptHelper.getUserKeyBytes_spreadSource, CryptHelper.spreadSource,
      CryptHelper.privateUserKey_of_ne_nil hs, CryptHelper.hashOrDefault_of_ne_nil hh]
  have hmaterial : scheme.material D.toRuntime (some secretKey) (some usrHash) =
      .ok (spread 24 (desSource secretKey usrHash),
        spread 8 (if 8 ≤ (Utf16.utf8 secretKey).length then secretKey
          else secretKey ++ usrHash)) := by
    rw [Scheme.material, if_neg (by simpa using hs)]
    show (do
      let key ← CryptHelper.getUserKeyBytes D.toRuntime (some secretKey) (some usrHash) (24 : ℕ)
      let iv ← CryptHelper.getUserKeyBytes D.toRuntime (some secretKey) (some usrHash) (8 : ℕ)
      return (key, iv)) = _
    rw [hsource, ok_bind, hsource]
    rfl
  obtain ⟨key, iv, hkey, -, hderived⟩ := Scheme.derived_of_material (Des3.fits D) hmaterial
  obtain ⟨t, hrun, htkey, -⟩ := Scheme.run_genWithKey_ok (Des3.fits D) hderived s
  refine ⟨t, hrun, ?_⟩
  have hcopy : copyArray (spread 24 (desSource secretKey usrHash)) keyLen = .ok _ :=
    copyArray_of_le (length_spread _ _).ge
  obtain rfl := Except.ok.inj (hcopy.symm.trans hkey)
  rw [htkey]
  exact List.take_of_length_le (length_spread _ _).le

/-- **When `Des3FromKey` installs a key that Triple-DES takes**: exactly when the bytes of its source
eight places apart differ, once in each half. -/
theorem keyAccepted_iff (L : Library) (hL : RefusesWeakKeys L) (D : Deployment)
    (secretKey usrHash : Utf16) (hs : secretKey ≠ []) (hh : usrHash ≠ [])
    (s : KeyStore keyLen ivLen) :
    KeyAccepted L D.toRuntime (some secretKey) (some usrHash) s ↔
      PartsDiffer (desSource secretKey usrHash) := by
  obtain ⟨t, hrun, hkey⟩ := run_des3FromKey D hs hh s
  rw [← strong_spread_iff, ← hkey]
  constructor
  · rintro ⟨t', hrun', hstrong, -⟩
    obtain rfl : t = t' := congrArg Prod.snd (hrun.symm.trans hrun')
    exact hstrong
  · intro hstrong
    have haccept : L.tripleDesKey t.key.toList = .ok () :=
      (hL _ (by rw [hkey, length_spread])).2 hstrong
    refine ⟨t, hrun, hstrong, fun bs hbs => ?_⟩
    constructor
    · rw [encrypt, haccept, ok_bind, deref, ok_bind]
      exact bind_pure_comp _ _
    · intro hlen
      rw [decrypt, nonEmpty_some hbs, ok_bind, haccept, ok_bind, newArray_of_double_le hlen, ok_bind]
      exact bind_pure_comp _ _

/-- Libraries that check a Triple-DES key and encrypt nothing. -/
def checking : Library where
  init _ := .ok ()
  doFinal _ bs := .ok bs
  processBytes _ _ := .ok none
  processBytesAgain _ _ := .ok none
  rijndaelManaged _ _ bs := .ok bs
  tripleDesKey key := if Strong key then .ok () else .error .cryptographic
  tripleDes _ _ bs := .ok bs

theorem refusesWeakKeys_checking : RefusesWeakKeys checking := by
  intro key _
  show (if Strong key then .ok () else .error .cryptographic : Except Exn Unit) = .ok () ↔ _
  split_ifs with h
  · exact iff_of_true rfl h
  · exact iff_of_false (by simp) h

/-- A secret key and a hash of fifteen bytes, without repetition in them. -/
theorem keyAccepted_password :
    KeyAccepted checking (Deployment.resx (fun _ _ => 0) (· == ·)).toRuntime
      (some (.ofString "password")) (some (.ofString "fe80::1")) ⟨[], none, .replicate 24 1,
        .replicate 8 2⟩ :=
  (keyAccepted_iff checking refusesWeakKeys_checking (Deployment.resx (fun _ _ => 0) (· == ·))
    (.ofString "password") (.ofString "fe80::1") (by decide) (by decide) _).2 (by decide)

/-- The secret key `a` and the hash `b` make the key `abab…`. -/
theorem not_keyAccepted_ab :
    ¬ KeyAccepted checking (Deployment.resx (fun _ _ => 0) (· == ·)).toRuntime
      (some (.ofString "a")) (some (.ofString "b")) ⟨[], none, .replicate 24 1,
        .replicate 8 2⟩ := by
  rintro ⟨t, hrun, hstrong, -⟩
  obtain ⟨t', hrun', hkey⟩ := run_des3FromKey (Deployment.resx (fun _ _ => 0) (· == ·))
    (show Utf16.ofString "a" ≠ [] by decide) (show Utf16.ofString "b" ≠ [] by decide)
    ⟨[], none, .replicate 24 1, .replicate 8 2⟩
  obtain rfl : t' = t := congrArg Prod.snd (hrun'.symm.trans hrun)
  rw [hkey, strong_spread_iff] at hstrong
  exact not_partsDiffer_of_dvd (by decide) hstrong

end Des3

end Server6
