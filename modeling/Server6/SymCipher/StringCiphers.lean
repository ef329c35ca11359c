import Mathlib.Data.Bool.AllAny
import Server6.EnDeCoding.Ascii
import Server6.EnDeCoding.Text
import Server6.SymCipher.Base64
import Server6.SymCipher.CryptHistory

/-!
# Encrypting strings

Eight classes have an `EncryptString` and a `DecryptString` over their `Encrypt` and `Decrypt`. All of
them encrypt the UTF-8 bytes of the string. Seven read the decrypted bytes as ASCII and trim the NUL
characters off the end; `Des3` reads them as UTF-8 and trims nothing.

`recovers_iff_survives` is which strings come back: those of ASCII characters, and for `Des3` those whose
UTF-8 bytes need no padding.
-/

namespace Server6

/-! ## The methods -/

/-- An array argument of the framework. -/
def notNull (data : Option Bytes) : Except Exn Bytes :=
  match data with
  | none => .error .argumentNull
  | some bs => .ok bs

/-- `EncryptString` over `Encrypt`. -/
def encryptStringOf (encrypt : Option Bytes → Except Exn (Option Bytes)) (inPlainString : NString) :
    Except Exn Utf16 := do
  let plain ← nonNull inPlainString
  let encryptedData ← encrypt (some (Utf16.utf8 plain))
  let encryptedData ← notNull encryptedData
  return toBase64String encryptedData

/-- `DecryptString` over `Decrypt` and the way it reads the bytes. -/
def decryptStringOf (decrypt : Option Bytes → Except Exn (Option Bytes)) (read : Bytes → Utf16)
    (inCryptString : NString) : Except Exn Utf16 := do
  let crypt ← nonNull inCryptString
  let cryptData ← fromBase64String crypt
  let plainTextData ← decrypt (some cryptData)
  let plainTextData ← notNull plainTextData
  return read plainTextData

/-- `Encoding.ASCII.GetString(plainTextData).TrimEnd('\0')`. -/
def readAscii (bs : Bytes) : Utf16 := EnDeCoding.trimEnd (asciiString bs) 0

namespace ZenMatrix

def encryptString (z : ZenMatrix) :=
  encryptStringOf fun data => (z.encrypt data).map some
def decryptString (z : ZenMatrix) :=
  decryptStringOf (fun data => (z.decrypt data).map some) readAscii

end ZenMatrix

namespace Aes

def encryptString (L : Library) (s : Aes) := encryptStringOf (encrypt L s)
def decryptString (L : Library) (s : Aes) := decryptStringOf (decrypt L s) readAscii

end Aes

namespace Fish2

def encryptString (L : Library) (s : KeyStore 32 32) := encryptStringOf (encrypt L s)
def decryptString (L : Library) (s : KeyStore 32 32) := decryptStringOf (decrypt L s) readAscii

end Fish2

namespace Fish3

def encryptString (L : Library) (s : KeyStore 32 32) := encryptStringOf (encrypt L s)
def decryptString (L : Library) (s : KeyStore 32 32) := decryptStringOf (decrypt L s) readAscii

end Fish3

namespace Rijndael

def encryptString (L : Library) (s : KeyStore 32 16) := encryptStringOf (encrypt L s)
def decryptString (L : Library) (s : KeyStore 32 16) := decryptStringOf (decrypt L s) readAscii

end Rijndael

namespace Serpent

def encryptString (L : Library) (s : KeyStore 16 16) := encryptStringOf (encrypt L s)
def decryptString (L : Library) (s : KeyStore 16 16) := decryptStringOf (decrypt L s) readAscii

end Serpent

namespace Des3

def encryptString (L : Library) (s : KeyStore keyLen ivLen) := encryptStringOf (encrypt L s)
def decryptString (L : Library) (s : KeyStore keyLen ivLen) :=
  decryptStringOf (decrypt L s) Utf16.ofUtf8

end Des3

namespace CryptBounceCastle

def encryptString (L : Library) (o : CryptBounceCastle) := encryptStringOf (o.encrypt L)
def decryptString (L : Library) (o : CryptBounceCastle) :=
  decryptStringOf (o.decrypt L) readAscii

end CryptBounceCastle

/-- A class in a key state; that of `ZenMatrix` is one its setup calls reach. -/
inductive StringCipher
  | zenMatrix (R : Runtime) (calls : List ZenMatrix.Setup)
  | aes (s : Aes)
  | fish2 (s : KeyStore 32 32)
  | fish3 (s : KeyStore 32 32)
  | rijndael (s : KeyStore 32 16)
  | serpent (s : KeyStore 16 16)
  | des3 (s : KeyStore Des3.keyLen Des3.ivLen)
  | bounceCastle (o : CryptBounceCastle)

/-- The state of `ZenMatrix` after some setup calls. -/
abbrev ZenMatrix.after (R : Runtime) (calls : List Setup) : ZenMatrix :=
  finalState (Setup.call R) calls initial

namespace StringCipher

variable (L : Library)

/-- The `EncryptString` of the class. -/
def encryptString : StringCipher → NString → Except Exn Utf16
  | zenMatrix R calls => (ZenMatrix.after R calls).encryptString
  | aes s => Aes.encryptString L s
  | fish2 s => Fish2.encryptString L s
  | fish3 s => Fish3.encryptString L s
  | rijndael s => Rijndael.encryptString L s
  | serpent s => Serpent.encryptString L s
  | des3 s => Des3.encryptString L s
  | bounceCastle o => o.encryptString L

/-- The `DecryptString` of the class. -/
def decryptString : StringCipher → NString → Except Exn Utf16
  | zenMatrix R calls => (ZenMatrix.after R calls).decryptString
  | aes s => Aes.decryptString L s
  | fish2 s => Fish2.decryptString L s
  | fish3 s => Fish3.decryptString L s
  | rijndael s => Rijndael.decryptString L s
  | serpent s => Serpent.decryptString L s
  | des3 s => Des3.decryptString L s
  | bounceCastle o => o.decryptString L

/-- `DecryptString(EncryptString(s))` is `s`. -/
def Recovers (k : StringCipher) (s : Utf16) : Prop :=
  ∃ e, k.encryptString L (some s) = .ok e ∧ k.decryptString L (some e) = .ok s

end StringCipher

/-! ## Reading the bytes -/

theorem ascii_readAscii (bs : Bytes) : Ascii (readAscii bs) := by
  intro c hc
  obtain ⟨b, -, rfl⟩ := List.mem_map.1 ((List.rdropWhile_prefix _ _).subset hc)
  exact asciiChar_lt b

/-- **Reading ASCII** gives a string back exactly if it is one. -/
theorem readAscii_utf8_iff {s : Utf16} (hnul : s.getLast? ≠ some 0) (n : ℕ) :
    readAscii (Utf16.utf8 s ++ List.replicate n 0) = s ↔ Ascii s := by
  constructor
  · intro h
    rw [← h]
    exact ascii_readAscii _
  · intro h
    have hread : asciiString (Utf16.utf8 s ++ List.replicate n 0) = s ++ List.replicate n 0 := by
      unfold asciiString
      rw [List.map_append, List.map_replicate]
      exact congrArg (· ++ List.replicate n 0) (asciiString_utf8 h)
    unfold readAscii
    rw [hread, EnDeCoding.trimEnd_append_replicate hnul]

/-- With a byte other than zero at the end nothing is trimmed. -/
theorem readAscii_of_getLast? {bs : Bytes} {b : UInt8} (h : bs.getLast? = some b) (hb : b ≠ 0) :
    readAscii bs = asciiString bs := by
  unfold readAscii EnDeCoding.trimEnd
  rw [List.rdropWhile_eq_self_iff]
  intro hne hlast
  rw [beq_iff_eq] at hlast
  have hget : (asciiString bs).getLast? = some (asciiChar b) := by
    unfold asciiString
    rw [List.getLast?_map, h]
    rfl
  rw [List.getLast?_eq_some_getLast hne, hlast] at hget
  exact hb (asciiChar_eq_zero (Option.some.inj hget).symm)

/-! ## The two methods together -/

section

variable {encrypt decrypt : Option Bytes → Except Exn (Option Bytes)} {read : Bytes → Utf16}
  {s : Utf16} {c p : Bytes}

theorem encryptStringOf_eq (h : encrypt (some (Utf16.utf8 s)) = .ok (some c)) :
    encryptStringOf encrypt (some s) = .ok (toBase64String c) := by
  rw [encryptStringOf, nonNull_some, ok_bind, h]
  rfl

theorem decryptStringOf_eq (h : decrypt (some c) = .ok (some p)) :
    decryptStringOf decrypt read (some (toBase64String c)) = .ok (read p) := by
  rw [decryptStringOf, nonNull_some, ok_bind, fromBase64String_toBase64String, ok_bind, h]
  rfl

/-- What the two methods return together is what the plain bytes are read as. -/
theorem decryptStringOf_encryptStringOf_iff
    (hencrypt : encrypt (some (Utf16.utf8 s)) = .ok (some c))
    (hdecrypt : decrypt (some c) = .ok (some p)) :
    (∃ e, encryptStringOf encrypt (some s) = .ok e ∧
      decryptStringOf decrypt read (some e) = .ok s) ↔ read p = s := by
  rw [encryptStringOf_eq hencrypt]
  constructor
  · rintro ⟨e, he, hs⟩
    obtain rfl := Except.ok.inj he
    rw [decryptStringOf_eq hdecrypt] at hs
    exact Except.ok.inj hs
  · intro h
    refine ⟨_, rfl, ?_⟩
    rw [decryptStringOf_eq hdecrypt, h]

end

/-! ## The classes -/

/-- The matrix cipher gives ASCII strings back, in the states that leave 0 in place: elsewhere the
last block, which is not the string's, is not trimmed. -/
theorem ZenMatrix.recoversString_iff {z : ZenMatrix} {σ : Equiv.Perm (Fin 16)} (hz : Keyed z σ)
    {s : Utf16} (hne : s ≠ []) (hnul : s.getLast? ≠ some 0) :
    (∃ e, z.encryptString (some s) = .ok e ∧ z.decryptString (some e) = .ok s) ↔
      Ascii s ∧ z.matrixPermKey[0]? = some 0 := by
  have hp : Utf16.utf8 s ≠ [] := mt Utf16.utf8_eq_nil_iff.1 hne
  have hc : cipher σ (Utf16.utf8 s) ≠ [] := by
    rw [← List.length_pos_iff, length_cipher]
    omega
  have hencrypt := congrArg (Except.map some) (encrypt_eq hz hp)
  have hdecrypt := congrArg (Except.map some) (decrypt_eq hz hc)
  rw [matrixPermKey_zero_iff hz]
  refine Iff.trans (decryptStringOf_encryptStringOf_iff hencrypt hdecrypt) ?_
  by_cases hfixed : σ 0 = 0
  · rw [cipher_symm_cipher_of_fixed hfixed, readAscii_utf8_iff hnul, and_iff_left hfixed]
  · refine iff_of_false ?_ fun h => hfixed h.2
    intro hread
    have hlast : (cipher σ.symm (cipher σ (Utf16.utf8 s))).getLast? = some (mapByte σ.symm 0) := by
      rw [cipher_symm_cipher, List.getLast?_append_of_ne_nil _ (by simp), List.getLast?_replicate]
      rfl
    have hbyte : mapByte σ.symm 0 ≠ 0 := by
      rw [Ne, mapByte_zero_eq_zero_iff, Equiv.symm_apply_eq]
      exact fun h => hfixed h.symm
    have hascii : Ascii s := hread ▸ ascii_readAscii _
    have hlen := congrArg List.length hread
    rw [readAscii_of_getLast? hlast hbyte, asciiString, List.length_map, cipher_symm_cipher,
      List.length_append, length_padded, List.length_replicate, Utf16.utf8_of_ascii hascii,
      List.length_map] at hlen
    omega

/-- `Des3` gives every string back, with the padding of its bytes. -/
theorem ofUtf8_utf8_iff {s : Utf16} (hs : Utf16.WellFormed s) :
    Utf16.ofUtf8 (Utf16.utf8 s ++
        List.replicate ((8 - (Utf16.utf8 s).length % 8) % 8) 0) = s ↔
      8 ∣ (Utf16.utf8 s).length := by
  rw [Utf16.ofUtf8_utf8_append hs, Utf16.ofUtf8_replicate_zero, List.append_right_eq_self,
    List.replicate_eq_nil_iff]
  omega

namespace StringCipher

variable (L : Library)

/-- The `Encrypt` of the class. -/
def encrypt : StringCipher → Option Bytes → Except Exn (Option Bytes)
  | zenMatrix R calls => fun data => ((ZenMatrix.after R calls).encrypt data).map some
  | aes s => Aes.encrypt L s
  | fish2 s => Fish2.encrypt L s
  | fish3 s => Fish3.encrypt L s
  | rijndael s => Rijndael.encrypt L s
  | serpent s => Serpent.encrypt L s
  | des3 s => Des3.encrypt L s
  | bounceCastle o => o.encrypt L

/-- The `Decrypt` of the class. -/
def decrypt : StringCipher → Option Bytes → Except Exn (Option Bytes)
  | zenMatrix R calls => fun data => ((ZenMatrix.after R calls).decrypt data).map some
  | aes s => Aes.decrypt L s
  | fish2 s => Fish2.decrypt L s
  | fish3 s => Fish3.decrypt L s
  | rijndael s => Rijndael.decrypt L s
  | serpent s => Serpent.decrypt L s
  | des3 s => Des3.decrypt L s
  | bounceCastle o => o.decrypt L

/-- The plain text is encrypted, and decryption returns it and zero bytes. -/
def Bytewise (k : StringCipher) (p : Bytes) : Prop :=
  ∃ c n, k.encrypt L (some p) = .ok (some c) ∧
    k.decrypt L (some c) = .ok (some (p ++ List.replicate n 0))

/-- `PaddingMode.Zeros` of the TripleDES provider: zero bytes up to a multiple of the block, none if
the plain text is one. -/
def PadsToBlock : Prop :=
  ∀ key p c, p ≠ [] → L.tripleDes true key p = .ok c →
    L.tripleDes false key c = .ok (p ++ List.replicate ((8 - p.length % 8) % 8) 0)

/-- What is known of the libraries under a class and a plain text; `ZenMatrix` has none. -/
def Supported : StringCipher → Bytes → Prop
  | zenMatrix _ _, _ => True
  | des3 s, p => Bytewise L (des3 s) p ∧ PadsToBlock L
  | k, p => Bytewise L k p

/-- The strings that survive: ASCII ones, except that `Des3` needs whole blocks instead, and
`ZenMatrix` a permutation that leaves 0 in place besides. -/
def Survives : StringCipher → Utf16 → Prop
  | zenMatrix R calls, s => Ascii s ∧ (ZenMatrix.after R calls).matrixPermKey[0]? = some 0
  | des3 _, s => 8 ∣ (Utf16.utf8 s).length
  | _, s => Ascii s

variable {L} {s : Utf16}

/-- The classes that read ASCII. -/
theorem recovers_ascii_iff {encrypt decrypt : Option Bytes → Except Exn (Option Bytes)}
    (h : ∃ c n, encrypt (some (Utf16.utf8 s)) = .ok (some c) ∧
      decrypt (some c) = .ok (some (Utf16.utf8 s ++ List.replicate n 0)))
    (hnul : s.getLast? ≠ some 0) :
    (∃ e, encryptStringOf encrypt (some s) = .ok e ∧
      decryptStringOf decrypt readAscii (some e) = .ok s) ↔ Ascii s := by
  obtain ⟨c, n, hencrypt, hdecrypt⟩ := h
  rw [decryptStringOf_encryptStringOf_iff hencrypt hdecrypt, readAscii_utf8_iff hnul]

/-- The key that is accepted decrypts to the plain text and the padding of its last block. -/
theorem des3_decrypt_encrypt (hpads : PadsToBlock L) {k : KeyStore Des3.keyLen Des3.ivLen}
    {p c d : Bytes} (hp : p ≠ []) (hencrypt : Des3.encrypt L k (some p) = .ok (some c))
    (hdecrypt : Des3.decrypt L k (some c) = .ok (some d)) :
    d = p ++ List.replicate ((8 - p.length % 8) % 8) 0 := by
  cases hkey : L.tripleDesKey k.key.toList with
  | error x => simp [Des3.encrypt, hkey] at hencrypt
  | ok u =>
    cases hout : L.tripleDes true k.key.toList p with
    | error x => simp [Des3.encrypt, hkey, deref, hout] at hencrypt
    | ok out =>
      obtain rfl : out = c := by
        simpa [Des3.encrypt, hkey, deref, hout, Pure.pure, Except.pure] using hencrypt
      cases out with
      | nil => simp [Des3.decrypt, nonEmpty] at hdecrypt
      | cons b bs =>
        have hback := hpads _ p _ hp hout
        cases hnew : newArray (Des3.toDecryptSize (b :: bs)).toInt with
        | error x => simp [Des3.decrypt, nonEmpty, hkey, hnew] at hdecrypt
        | ok a =>
          simp only [Des3.decrypt, nonEmpty, ok_bind, hkey, hnew, hback] at hdecrypt
          exact (Option.some.inj (Except.ok.inj hdecrypt)).symm

/-- `Des3`. -/
theorem recovers_des3_iff {k : KeyStore Des3.keyLen Des3.ivLen}
    (hk : (des3 k).Supported L (Utf16.utf8 s)) (hne : s ≠ []) (hwf : s.WellFormed) :
    (des3 k).Recovers L s ↔ 8 ∣ (Utf16.utf8 s).length := by
  have hp : Utf16.utf8 s ≠ [] := mt Utf16.utf8_eq_nil_iff.1 hne
  obtain ⟨c, n, hencrypt, hdecrypt⟩ := hk.1
  have hpadding := des3_decrypt_encrypt hk.2 hp hencrypt hdecrypt
  rw [hpadding] at hdecrypt
  exact (decryptStringOf_encryptStringOf_iff hencrypt hdecrypt).trans (ofUtf8_utf8_iff hwf)

/-- **Which strings come back**, in every key state of every class. -/
theorem recovers_iff_survives (L : Library) (k : StringCipher) (s : Utf16)
    (hk : k.Supported L (Utf16.utf8 s)) (hne : s ≠ []) (hwf : s.WellFormed)
    (hnul : s.getLast? ≠ some 0) : k.Recovers L s ↔ k.Survives s := by
  cases k with
  | zenMatrix R calls =>
    obtain ⟨σ, hσ⟩ := ZenMatrix.exists_keyed R calls
    exact ZenMatrix.recoversString_iff hσ hne hnul
  | aes k => exact recovers_ascii_iff hk hnul
  | fish2 k => exact recovers_ascii_iff hk hnul
  | fish3 k => exact recovers_ascii_iff hk hnul
  | rijndael k => exact recovers_ascii_iff hk hnul
  | serpent k => exact recovers_ascii_iff hk hnul
  | bounceCastle o => exact recovers_ascii_iff hk hnul
  | des3 k => exact recovers_des3_iff hk hne hwf

/-- Libraries that do nothing but pad to blocks of eight bytes. -/
def padOnly : Library where
  init _ := .ok ()
  doFinal c bs := .ok (pad c.forEncryption bs)
  processBytes _ _ := .ok none
  processBytesAgain _ _ := .ok none
  rijndaelManaged forEncryption _ bs := .ok (pad forEncryption bs)
  tripleDesKey _ := .ok ()
  tripleDes forEncryption _ bs := .ok (pad forEncryption bs)
where
  pad (forEncryption : Bool) (bs : Bytes) : Bytes :=
    if forEncryption then bs ++ List.replicate ((8 - bs.length % 8) % 8) 0 else bs

theorem bytewise_aes_padOnly (s : Aes) {p : Bytes} (hp : p ≠ []) : (aes s).Bytewise padOnly p := by
  obtain ⟨b, bs, rfl⟩ := List.exists_cons_of_ne_nil hp
  exact ⟨_, _, rfl, rfl⟩

theorem bytewise_des3_padOnly (s : KeyStore Des3.keyLen Des3.ivLen) {p : Bytes} (hp : p ≠ [])
    (hlen : p.length ≤ 8 * (maxLength / 16)) : (des3 s).Bytewise padOnly p := by
  let c := padOnly.pad true p
  have hc : c ≠ [] := by simp [c, padOnly.pad, hp]
  have hdouble : newArray (Des3.toDecryptSize c).toInt = .ok (List.replicate (2 * c.length) 0) := by
    refine Des3.newArray_of_double_le (le_trans ?_ ((Crypt.double_blocks_le_iff _).2 hlen))
    simp only [c, padOnly.pad, if_true, List.length_append, List.length_replicate]
    omega
  refine ⟨c, (8 - p.length % 8) % 8, rfl, ?_⟩
  have hkey : padOnly.tripleDesKey s.key.toList = .ok () := rfl
  show Des3.decrypt padOnly s (some c) = _
  rw [Des3.decrypt, nonEmpty_some hc, ok_bind, hkey, ok_bind, hdouble]
  rfl

theorem padsToBlock_padOnly : PadsToBlock padOnly := by
  intro key p c hp hc
  obtain rfl := Except.ok.inj hc
  rfl

/-- `Aes` and `Des3` give back what they can, and so does `ZenMatrix` under its first key. -/
theorem recovers_iff_survives_zen :
    (aes ⟨[], .replicate 32 1, .replicate 16 2, .replicate 32 1, .replicate 16 2⟩).Recovers padOnly
      (.ofString "zen") ∧
    (des3 ⟨[], none, .replicate 24 1, .replicate 8 2⟩).Recovers padOnly (.ofString "12345678") ∧
    (zenMatrix (Deployment.resx (fun _ _ => 0) (· == ·)).toRuntime []).Recovers padOnly
      (.ofString "zen") :=
  ⟨(recovers_iff_survives padOnly (aes _) (.ofString "zen") (bytewise_aes_padOnly _ (by decide))
      (by decide)
      (Utf16.wellFormed_of_ascii (List.all_iff_forall_prop.1 (by decide))) (by decide)).2
      (List.all_iff_forall_prop.1 (by decide)),
    (recovers_iff_survives padOnly (des3 _) (.ofString "12345678")
      ⟨bytewise_des3_padOnly _ (by decide) (by decide), padsToBlock_padOnly⟩ (by decide)
      (Utf16.wellFormed_of_ascii (List.all_iff_forall_prop.1 (by decide))) (by decide)).2
      (show 8 ∣ (Utf16.utf8 (.ofString "12345678")).length by decide),
    (recovers_iff_survives padOnly (zenMatrix _ []) (.ofString "zen") trivial (by decide)
      (Utf16.wellFormed_of_ascii (List.all_iff_forall_prop.1 (by decide))) (by decide)).2
      ⟨List.all_iff_forall_prop.1 (by decide), by decide⟩⟩

/-- `ZenMatrix` turns `ä` into two question marks, and `Des3` appends seven NUL characters to `a`. -/
theorem not_recovers_umlaut :
    ¬ (zenMatrix (Deployment.resx (fun _ _ => 0) (· == ·)).toRuntime []).Recovers padOnly [0xE4] ∧
    ¬ (des3 ⟨[], none, .replicate 24 1, .replicate 8 2⟩).Recovers padOnly (.ofString "a") := by
  constructor
  · intro h
    have hkeyed : ZenMatrix.Keyed ZenMatrix.initial 1 :=
      ZenMatrix.initial_eq_identity ▸ ZenMatrix.keyed_identity [] []
    have hascii := ((ZenMatrix.recoversString_iff hkeyed (s := [0xE4]) (by decide)
      (by decide)).1 h).1
    exact absurd (hascii 0xE4 (by simp)) (by decide)
  · intro h
    have hsupported := bytewise_des3_padOnly ⟨[], none, .replicate 24 1, .replicate 8 2⟩
      (p := Utf16.utf8 (.ofString "a")) (by decide) (by decide)
    have hblocks := (recovers_des3_iff ⟨hsupported, padsToBlock_padOnly⟩ (by decide)
      (Utf16.wellFormed_of_ascii (List.all_iff_forall_prop.1 (by decide)))).1 h
    exact absurd hblocks (by decide)

/-! ## What the libraries promise -/

/-- The cipher works in ECB; so do those of all static classes. -/
def InEcb : StringCipher → Prop
  | bounceCastle o => o.mode = some (.ofString "ECB")
  | zenMatrix _ _ => False
  | _ => True

/-- Null is never decrypted. -/
theorem decryptUnder_none (cls : StaticClass) (q : CipherParameters) (d : Option Bytes) :
    cls.decryptUnder L q none ≠ .ok d := by
  have hfinish : ∀ c, L.finish c none ≠ .ok d := by
    intro c h
    unfold Library.finish at h
    cases hi : L.init c with
    | error x => simp [hi] at h
    | ok u => simp [hi, deref] at h
  have hprocess : ∀ c, L.finishOrProcess c none ≠ .ok d := by
    intro c h
    unfold Library.finishOrProcess at h
    cases hi : L.init c with
    | error x => simp [hi] at h
    | ok u => simp [hi, deref] at h
  cases cls with
  | fish2 => exact hfinish _
  | fish3 => exact hfinish _
  | rijndael => exact hfinish _
  | serpent => exact hprocess _
  | des3 => exact fun h => by cases h
  | aes => exact fun h => by cases h
  | zenMatrix => exact fun h => by cases h

/-- A class is supported by libraries that pad with zeros, under every key they accept, and `Des3` for
plain texts up to half the limit of an array. -/
theorem bytewise_of_zeroPadded (hL : L.ZeroPadded) (k : StringCipher) (hmode : k.InEcb) {p : Bytes}
    (hp : p ≠ []) (hlen : ∀ s, k = des3 s → p.length ≤ 8 * (maxLength / 16))
    (haccepts : ∃ c, k.encrypt L (some p) = .ok c) : k.Bytewise L p := by
  obtain ⟨c, hc⟩ := haccepts
  have hstatic : ∀ (cls : StaticClass) (key : Bytes),
      (∀ data, k.encrypt L data = cls.encryptUnder L ⟨key, none⟩ data) →
      (∀ data, k.decrypt L data = cls.decryptUnder L ⟨key, none⟩ data) →
      (cls = .des3 → p.length ≤ 8 * (maxLength / 16)) → k.Bytewise L p := by
    intro cls key hencrypt hdecrypt hlen
    obtain ⟨n, hn⟩ := Crypt.decryptUnder_encryptUnder hL cls rfl hp hlen ((hencrypt _).symm.trans hc)
    cases c with
    | none => exact (decryptUnder_none cls ⟨key, none⟩ _ hn).elim
    | some c => exact ⟨c, n, hc, (hdecrypt _).trans hn⟩
  cases k with
  | zenMatrix R calls => exact absurd hmode id
  | aes s => exact hstatic .aes s.algoKey.toList (fun _ => rfl) (fun _ => rfl) nofun
  | fish2 s => exact hstatic .fish2 s.key.toList (fun _ => rfl) (fun _ => rfl) nofun
  | fish3 s => exact hstatic .fish3 s.key.toList (fun _ => rfl) (fun _ => rfl) nofun
  | rijndael s => exact hstatic .rijndael s.key.toList (fun _ => rfl) (fun _ => rfl) nofun
  | serpent s => exact hstatic .serpent s.key.toList (fun _ => rfl) (fun _ => rfl) nofun
  | des3 s =>
    exact hstatic .des3 s.key.toList (fun _ => rfl) (fun _ => rfl) fun _ => hlen s rfl
  | bounceCastle o =>
    have hencrypt : o.encrypt L (some p) = .ok c := hc
    unfold CryptBounceCastle.encrypt at hencrypt
    cases hcipher : o.cipherMode with
    | error x => simp [hcipher] at hencrypt
    | ok cipher =>
      cases hparam : o.cipherParameters with
      | error x => simp [hcipher, hparam] at hencrypt
      | ok q =>
        have hecb : cipher.mode = .ecb := by
          have hmode : o.mode = some (.ofString "ECB") := hmode
          unfold CryptBounceCastle.cipherMode at hcipher
          rw [hmode] at hcipher
          cases hengine : o.cryptoBlockCipher with
          | none => simp [hengine] at hcipher
          | some engine =>
            rw [hengine] at hcipher
            obtain rfl := Except.ok.inj hcipher
            rfl
        obtain ⟨engine, mode, padding⟩ := cipher
        obtain rfl : mode = .ecb := hecb
        obtain ⟨key, iv⟩ := q
        obtain rfl : iv = none := CryptBounceCastle.iv_of_cipherParameters hparam
        rw [hcipher, ok_bind, hparam, ok_bind] at hencrypt
        obtain ⟨bs, n, rfl, hi, ho⟩ := hL.doFinal_of_finish hp hencrypt
        refine ⟨bs, n, hc, ?_⟩
        show o.decrypt L (some bs) = _
        rw [CryptBounceCastle.decrypt, hcipher, ok_bind, hparam, ok_bind]
        exact Library.finishOrProcess_of_doFinal hi ho

end StringCipher

end Server6
