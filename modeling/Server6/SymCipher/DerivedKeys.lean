import Server6.Foundations.Repetition
import Server6.Foundations.Utf8
import Server6.SymCipher.BounceCastle

/-!
# The bytes of a derived key

Both `GetUserKeyBytes` return a `spread` of one of several strings, each of which begins with the
secret key, and they choose it by the length asked for. Two lengths, or the two methods, may thus
take their bytes from different strings.

* `getUserKeyBytes_prefix_iff`: the shorter key is the beginning of the longer one, unless the secret
  key and the hash break a character in two.
* `derivationsAgree_iff`: the two methods agree but for the lengths between that of the secret key
  and twice that. There `CryptHelper` does not double it, and the hash is taken for the second copy
  only if the secret key begins with the endlessly repeated hash (`HashContinues`).
-/

namespace Server6

/-! ## Spreading a string and a longer one -/

theorem spread_eq_cycled (n : ℕ) (s : Utf16) : spread n s = cycled n 0 (Utf16.utf8 s) := rfl

theorem take_spread {m n : ℕ} (h : m ≤ n) (s : Utf16) : (spread n s).take m = spread m s :=
  take_cycled h _ _

/-- A string that is long enough is cut. -/
theorem spread_of_le {n : ℕ} {s : Utf16} (h : n ≤ (Utf16.utf8 s).length) :
    spread n s = (Utf16.utf8 s).take n := cycled_of_le h

theorem spread_append_iff {n : ℕ} {s t : Utf16} (h : n ≤ (Utf16.utf8 s).length) :
    spread n (s ++ t) = spread n s ↔
      (Utf16.joins s t = true → n + 3 ≤ (Utf16.utf8 s).length) := by
  rw [spread_of_le h, spread_of_le (h.trans (Utf16.length_utf8_le_append s t)),
    Utf16.take_utf8_append_iff h]

/-- Writing a string twice does not change its endless repetition, unless its end and its beginning
form a pair. -/
theorem spread_append_self_iff {n : ℕ} {s : Utf16} :
    spread n (s ++ s) = spread n s ↔
      (Utf16.joins s s = true → n + 3 ≤ (Utf16.utf8 s).length) := by
  cases hjoin : Utf16.joins s s with
  | false =>
    refine iff_of_true ?_ (by simp)
    rw [spread_eq_cycled, Utf16.utf8_append hjoin, cycled_append_self, spread_eq_cycled]
  | true =>
    rcases Nat.lt_or_ge (Utf16.utf8 s).length n with hn | hn
    · -- the first of the two disagrees within its own length already
      refine iff_of_false (fun h => ?_) (by simp; omega)
      have hcut := congrArg (List.take (Utf16.utf8 s).length) h
      rw [take_spread hn.le, take_spread hn.le, spread_append_iff le_rfl, hjoin] at hcut
      exact absurd (hcut rfl) (by omega)
    · rw [spread_append_iff hn, hjoin]

/-- Strings behind a third one that repeat alike with it, pair alike with it. -/
theorem joins_eq_of_spread_append_eq {n : ℕ} {s t u : Utf16} (hn : (Utf16.utf8 s).length ≤ n)
    (h : spread n (s ++ t) = spread n (s ++ u)) : Utf16.joins s t = Utf16.joins s u := by
  have hcut := congrArg (List.take (Utf16.utf8 s).length) h
  rw [take_spread hn, take_spread hn] at hcut
  have hiff : ∀ v, Utf16.joins s v = true ↔
      spread (Utf16.utf8 s).length (s ++ v) ≠ spread (Utf16.utf8 s).length s := by
    intro v
    rw [Ne, spread_append_iff le_rfl]
    simp
  rw [Bool.eq_iff_iff, hiff, hiff, hcut]

namespace CryptHelper

/-! ## Keys of two lengths -/

/-- The hash `PrivateKeyWithUserHash` puts behind the key. -/
def hashOrDefault (usrHash : NString) : Utf16 :=
  if isNullOrEmpty usrHash then Constants.AREA23_EMAIL else orEmpty usrHash

theorem privateKeyWithUserHash_eq (secretKey usrHash : NString) :
    privateKeyWithUserHash secretKey usrHash =
      privateUserKey secretKey ++ hashOrDefault usrHash := rfl

theorem privateUserKey_of_ne_nil {secretKey : Utf16} (h : secretKey ≠ []) :
    privateUserKey secretKey = secretKey := by
  unfold privateUserKey
  rw [if_neg (by simpa using h)]
  rfl

theorem hashOrDefault_of_ne_nil {usrHash : Utf16} (h : usrHash ≠ []) :
    hashOrDefault usrHash = usrHash := by
  unfold hashOrDefault
  rw [if_neg (by simpa using h)]
  rfl

/-- Which string `GetUserKeyBytes` spreads: the key, or the key and the hash. -/
def spreadSource (n : ℕ) (secretKey : Utf16) (usrHash : NString) : Utf16 :=
  if n ≤ (Utf16.utf8 (privateUserKey secretKey)).length then privateUserKey secretKey
  else privateUserKey secretKey ++ hashOrDefault usrHash

theorem getUserKeyBytes_spreadSource (R : Runtime) (secretKey : Utf16) (usrHash : NString)
    (n : ℕ) :
    getUserKeyBytes R secretKey usrHash n =
      .ok (spread n (spreadSource n secretKey usrHash)) := by
  rw [getUserKeyBytes_eq, keySource, pick, privateKeyWithUserHash_eq, spreadSource]
  by_cases hkey : n ≤ (Utf16.utf8 secretKey).length
  · rw [if_pos hkey]
    rcases eq_or_ne secretKey [] with rfl | hs
    · -- no byte is asked for
      obtain rfl : n = 0 := by simpa using hkey
      rfl
    · rw [privateUserKey_of_ne_nil hs, if_pos hkey]
  · rw [if_neg hkey]

/-- `bs` is the key of `n` bytes, derived without an exception and whatever the generator gives. -/
structure DerivesKey (secretKey : Utf16) (usrHash : NString) (n : ℕ) (bs : Bytes) : Prop where
  returns : ∀ R, getUserKeyBytes R secretKey usrHash n = .ok bs
  length : bs.length = n

theorem derivesKey_iff {secretKey : Utf16} {usrHash : NString} {n : ℕ} {bs : Bytes} :
    DerivesKey secretKey usrHash n bs ↔ bs = spread n (spreadSource n secretKey usrHash) := by
  constructor
  · intro h
    let R := (Deployment.resx (fun _ _ => 0) (· == ·)).toRuntime
    exact Except.ok.inj ((h.returns R).symm.trans (getUserKeyBytes_spreadSource R ..))
  · rintro rfl
    exact ⟨fun R => getUserKeyBytes_spreadSource R .., length_spread _ _⟩

/-- The keys of `m` and of `n` bytes are derived, and the first is the beginning of the second. -/
def PrefixConsistent (secretKey : Utf16) (usrHash : NString) (m n : ℕ) : Prop :=
  ∃ as bs, DerivesKey secretKey usrHash m as ∧ DerivesKey secretKey usrHash n bs ∧
    as = bs.take m

/-- The last unit of the secret key and the first of the hash are the halves of one character, which
the longer key contains whole and the shorter one does not. -/
def SplitsCharacter (secretKey : Utf16) (usrHash : NString) (m n : ℕ) : Prop :=
  Utf16.joins secretKey (hashOrDefault usrHash) = true ∧ m ≤ (Utf16.utf8 secretKey).length ∧
    (Utf16.utf8 secretKey).length < n ∧ (Utf16.utf8 secretKey).length < m + 3

instance (secretKey : Utf16) (usrHash : NString) (m n : ℕ) :
    Decidable (SplitsCharacter secretKey usrHash m n) :=
  inferInstanceAs (Decidable (_ ∧ _ ∧ _ ∧ _))

/-- The default key is part of no broken character. -/
theorem splitsCharacter_iff {secretKey : Utf16} {usrHash : NString} {m n : ℕ} :
    SplitsCharacter secretKey usrHash m n ↔
      Utf16.joins (privateUserKey secretKey) (hashOrDefault usrHash) = true ∧
        m ≤ (Utf16.utf8 (privateUserKey secretKey)).length ∧
        (Utf16.utf8 (privateUserKey secretKey)).length < n ∧
        (Utf16.utf8 (privateUserKey secretKey)).length < m + 3 := by
  unfold SplitsCharacter
  rcases eq_or_ne secretKey [] with rfl | hs
  · have hlast : (privateUserKey (some [])).getLast?.any Utf16.isHighSurrogate = false := by decide
    simp [Utf16.joins, hlast]
  · rw [privateUserKey_of_ne_nil hs]

/-- The strings of two lengths have the same beginning unless a character is broken. -/
theorem spread_spreadSource_iff {secretKey : Utf16} {usrHash : NString} {m n : ℕ} (h : m ≤ n) :
    spread m (spreadSource n secretKey usrHash) = spread m (spreadSource m secretKey usrHash) ↔
      ¬ SplitsCharacter secretKey usrHash m n := by
  rw [splitsCharacter_iff, spreadSource, spreadSource]
  by_cases hn : n ≤ (Utf16.utf8 (privateUserKey secretKey)).length
  · rw [if_pos hn, if_pos (h.trans hn)]
    exact iff_of_true rfl fun hsplit => absurd hsplit.2.2.1 (by omega)
  · rw [if_neg hn]
    by_cases hm : m ≤ (Utf16.utf8 (privateUserKey secretKey)).length
    · rw [if_pos hm, spread_append_iff hm]
      constructor
      · rintro hroom ⟨hjoin, -, -, hlast⟩
        have hroom := hroom hjoin
        omega
      · intro hsplit hjoin
        by_contra hroom
        exact hsplit ⟨hjoin, hm, by omega, by omega⟩
    · rw [if_neg hm]
      exact iff_of_true rfl fun hsplit => hm hsplit.2.1

/-- **The keys of two lengths**: both are derived, and the shorter is the beginning of the longer
exactly when no character is broken between the secret key and the hash. -/
theorem getUserKeyBytes_prefix_iff (secretKey : Utf16) (usrHash : NString) (m n : ℕ)
    (h : m ≤ n) :
    ∃ as bs, DerivesKey secretKey usrHash m as ∧ DerivesKey secretKey usrHash n bs ∧
      (as = bs.take m ↔ ¬ SplitsCharacter secretKey usrHash m n) := by
  refine ⟨_, _, derivesKey_iff.2 rfl, derivesKey_iff.2 rfl, ?_⟩
  rw [take_spread h, eq_comm]
  exact spread_spreadSource_iff h

/-- Two bytes of a secret key, and sixteen that bring in the hash. -/
theorem getUserKeyBytes_prefix_zen :
    ∃ as bs, DerivesKey (.ofString "zen") (some (.ofString "::1")) 2 as ∧
      DerivesKey (.ofString "zen") (some (.ofString "::1")) 16 bs ∧
      (as = bs.take 2 ↔ ¬ SplitsCharacter (.ofString "zen") (some (.ofString "::1")) 2 16) :=
  getUserKeyBytes_prefix_iff (.ofString "zen") (some (.ofString "::1")) 2 16 (by decide)

/-- The key is half a character and the hash the other half: the key of three bytes is a replacement
character, and the key of four the whole character. -/
theorem not_prefixConsistent_halves : ¬ PrefixConsistent [0xD83D] (some [0xDE00]) 3 4 := by
  rintro ⟨as, bs, has, hbs, htake⟩
  obtain rfl := derivesKey_iff.1 has
  obtain rfl := derivesKey_iff.1 hbs
  rw [take_spread (by decide)] at htake
  exact absurd htake (by decide)

end CryptHelper

/-! ## The two derivations -/

/-- Doubling a string, and the hash behind each of its copies. -/
theorem CryptBounceCastle.keySource_eq (n : ℕ) (secretKey hash : Utf16) :
    CryptBounceCastle.keySource n secretKey (some hash) =
      pick n secretKey (secretKey ++ secretKey)
        ((secretKey ++ hash) ++ (secretKey ++ hash)) := by
  simp [keySource, orEmpty]

/-- The two methods derive the same key of `n` bytes from a secret key and a hash, and double the
secret key where it is shorter than that but twice as long is not. -/
def DerivationsAgree (R : Runtime) (n : ℕ) (secretKey hash : Utf16) : Prop :=
  ∃ bs, CryptHelper.getUserKeyBytes R secretKey (some hash) n = .ok bs ∧
    CryptBounceCastle.Derives R n secretKey (some hash) bs ∧
    ((Utf16.utf8 secretKey).length < n → n ≤ (Utf16.utf8 (secretKey ++ secretKey)).length →
      bs = (Utf16.utf8 (secretKey ++ secretKey)).take n)

/-- Behind a secret key, the hash goes on for as long as a key of `n` bytes needs it as the secret key
itself would: the secret key begins with the endlessly repeated hash. Where the last unit of the secret
key forms a pair with what follows, that is the same unit, and two more bytes are needed. -/
def HashContinues (n : ℕ) (secretKey hash : Utf16) : Prop :=
  ((Utf16.joins secretKey hash || Utf16.joins secretKey secretKey) = true →
      hash.head? = secretKey.head?) ∧
    ∀ i < n - (Utf16.utf8 secretKey).length + (if Utf16.joins secretKey secretKey then 2 else 0),
      keyStream hash i = keyStream secretKey i

/-- The secret key is long enough, or the hash behind it goes on like the secret key itself, or twice
the secret key is too short as well; then it only matters that the hash and the secret key behind it
do not share a character. -/
def HashUnnoticed (n : ℕ) (secretKey hash : Utf16) : Prop :=
  n ≤ (Utf16.utf8 secretKey).length ∨
    (n ≤ (Utf16.utf8 (secretKey ++ secretKey)).length ∧ HashContinues n secretKey hash) ∨
    ((Utf16.utf8 (secretKey ++ secretKey)).length < n ∧
      (Utf16.joins hash secretKey = true → n + 3 ≤ (Utf16.utf8 (secretKey ++ hash)).length))

section HashContinues

variable {n : ℕ} {secretKey hash : Utf16}

/-- Strings that form no pairs. -/
theorem spread_append_eq_double_of_not_joins (hhash : hash ≠ [])
    (hjoin : Utf16.joins secretKey hash = false) (hself : Utf16.joins secretKey secretKey = false)
    (hlong : (Utf16.utf8 secretKey).length < n)
    (hshort : n ≤ (Utf16.utf8 (secretKey ++ secretKey)).length) :
    spread n (secretKey ++ hash) = spread n (secretKey ++ secretKey) ↔
      HashContinues n secretKey hash := by
  rw [Utf16.utf8_append hself, List.length_append] at hshort
  obtain ⟨d, rfl⟩ := Nat.exists_eq_add_of_le hlong.le
  have hhash : Utf16.utf8 hash ≠ [] := mt Utf16.utf8_eq_nil_iff.1 hhash
  rw [spread_eq_cycled, spread_eq_cycled, Utf16.utf8_append hjoin, Utf16.utf8_append hself,
    cycled_append_eq_append_self_iff 0 hhash (by omega), ← spread_eq_cycled, ← spread_eq_cycled,
    spread_eq_spread_iff, HashContinues, hjoin, hself]
  simp

/-- A secret key whose end forms a pair with its beginning, and with that of the hash. -/
theorem spread_append_eq_double_of_joins (hjoin : Utf16.joins secretKey hash = true)
    (hself : Utf16.joins secretKey secretKey = true)
    (hlong : (Utf16.utf8 secretKey).length < n)
    (hshort : n ≤ (Utf16.utf8 (secretKey ++ secretKey)).length) :
    spread n (secretKey ++ hash) = spread n (secretKey ++ secretKey) ↔
      HashContinues n secretKey hash := by
  obtain ⟨s, c, e, t, hend, hstart, hc, he⟩ := Utf16.joins_eq_true_iff.1 hself
  obtain ⟨s', c', f, u, hend', rfl, -, hf⟩ := Utf16.joins_eq_true_iff.1 hjoin
  have hkey : Utf16.utf8 secretKey = Utf16.utf8 s ++ Utf16.replacement := by
    rw [hend, Utf16.utf8_concat_high s hc]
  have hkey' : Utf16.utf8 secretKey = Utf16.replacement ++ Utf16.utf8 t := by
    rw [hstart, Utf16.utf8_cons_low he]
  have hlen : (Utf16.utf8 secretKey).length = (Utf16.utf8 s).length + 3 := by
    rw [hkey, List.length_append]
    rfl
  have hlen' : (Utf16.utf8 t).length = (Utf16.utf8 s).length := by
    have hlengths := congrArg List.length (hkey.symm.trans hkey')
    simp only [List.length_append] at hlengths
    omega
  have hhash : Utf16.utf8 (secretKey ++ f :: u) =
      Utf16.utf8 s ++ (Utf16.utf8 [c, f] ++ Utf16.utf8 u) := by
    rw [hend, Utf16.utf8_concat_append_cons s u hc hf]
  have hdouble : Utf16.utf8 (secretKey ++ secretKey) =
      Utf16.utf8 s ++ (Utf16.utf8 [c, e] ++ Utf16.utf8 t) := by
    rw [← Utf16.utf8_concat_append_cons s t hc he, ← hend, ← hstart]
  have hpair := Utf16.length_utf8_pair hc hf
  have hpair' := Utf16.length_utf8_pair hc he
  rw [hdouble, List.length_append, List.length_append, hpair'] at hshort
  obtain ⟨d, rfl⟩ : ∃ d, n = (Utf16.utf8 s).length + ((Utf16.utf8 [c, f]).length + d) :=
    ⟨n - (Utf16.utf8 s).length - 4, by omega⟩
  have hcount : (Utf16.utf8 s).length + ((Utf16.utf8 [c, f]).length + d) -
      (Utf16.utf8 secretKey).length + 2 = Utf16.replacement.length + d := by
    have hthree : Utf16.replacement.length = 3 := rfl
    omega
  -- in front of either side stands the lone first unit
  have hleft : (Utf16.utf8 (f :: u) ++ Utf16.utf8 secretKey).take (Utf16.replacement.length + d) =
      Utf16.replacement ++ (Utf16.utf8 u ++ Utf16.utf8 s).take d := by
    have hd : d ≤ (Utf16.utf8 u ++ Utf16.utf8 s).length := by
      rw [List.length_append]
      omega
    rw [Utf16.utf8_cons_low hf, hkey, List.append_assoc, List.take_length_add_append,
      ← List.append_assoc, List.take_append_of_le_length hd]
  have hright : (Utf16.utf8 secretKey).take (Utf16.replacement.length + d) =
      Utf16.replacement ++ (Utf16.utf8 t).take d := by
    rw [hkey', List.take_length_add_append]
  have hrepeat : (Utf16.utf8 u ++ Utf16.utf8 s).take d = (Utf16.utf8 t).take d ↔
      spread (Utf16.replacement.length + d) (f :: u) =
        spread (Utf16.replacement.length + d) secretKey := by
    have hne : Utf16.utf8 (f :: u) ≠ [] := mt Utf16.utf8_eq_nil_iff.1 (List.cons_ne_nil _ _)
    have hthree : Utf16.replacement.length = 3 := rfl
    rw [spread_of_le (s := secretKey) (by omega), spread_eq_cycled, ← take_append_eq_take_iff hne,
      hleft, hright, List.append_cancel_left_eq]
  rw [spread_eq_cycled, spread_eq_cycled, hhash, hdouble,
    cycled_append_eq_iff 0 _ _ (hpair.trans hpair'.symm) hlen' (by omega),
    Utf16.utf8_pair_inj hc hf he, hrepeat, spread_eq_spread_iff, HashContinues, hself, if_pos rfl,
    hcount, hstart]
  simp

/-- **A secret key with the hash behind it** repeats like two of it, in a key that is not longer than
these, exactly if the hash goes on as the secret key does. -/
theorem spread_append_eq_double_iff (hhash : hash ≠ [])
    (hlong : (Utf16.utf8 secretKey).length < n)
    (hshort : n ≤ (Utf16.utf8 (secretKey ++ secretKey)).length) :
    spread n (secretKey ++ hash) = spread n (secretKey ++ secretKey) ↔
      HashContinues n secretKey hash := by
  rcases eq_or_ne (Utf16.joins secretKey hash) (Utf16.joins secretKey secretKey) with heq | hne
  · cases hself : Utf16.joins secretKey secretKey with
    | true => exact spread_append_eq_double_of_joins (heq.trans hself) hself hlong hshort
    | false =>
      exact spread_append_eq_double_of_not_joins hhash (heq.trans hself) hself hlong hshort
  · refine iff_of_false (fun h => hne (joins_eq_of_spread_append_eq hlong.le h)) ?_
    rintro ⟨hheads, -⟩
    have hsome : (Utf16.joins secretKey hash || Utf16.joins secretKey secretKey) = true := by
      rw [Bool.or_eq_true]
      by_contra hneither
      obtain ⟨hjoin, hself⟩ := not_or.1 hneither
      exact hne ((Bool.of_not_eq_true hjoin).trans (Bool.of_not_eq_true hself).symm)
    refine hne ?_
    unfold Utf16.joins
    rw [hheads hsome]

end HashContinues

theorem derivationsAgree_iff_spread {R : Runtime} {n : ℕ} {secretKey hash : Utf16}
    (hs : secretKey ≠ []) (hh : hash ≠ []) :
    DerivationsAgree R n secretKey hash ↔
      spread n (if n ≤ (Utf16.utf8 secretKey).length then secretKey else secretKey ++ hash) =
        spread n (pick n secretKey (secretKey ++ secretKey)
          ((secretKey ++ hash) ++ (secretKey ++ hash))) := by
  have hhelper := CryptHelper.getUserKeyBytes_spreadSource R secretKey (some hash) n
  rw [CryptHelper.spreadSource, CryptHelper.privateUserKey_of_ne_nil hs,
    CryptHelper.hashOrDefault_of_ne_nil hh] at hhelper
  have hcastle : ∀ bs, CryptBounceCastle.Derives R n secretKey (some hash) bs ↔
      bs = spread n (pick n secretKey (secretKey ++ secretKey)
        ((secretKey ++ hash) ++ (secretKey ++ hash))) := fun bs => by
    rw [CryptBounceCastle.derives_iff hs, CryptBounceCastle.userKeyBytes,
      CryptBounceCastle.keySource_eq]
  constructor
  · rintro ⟨bs, hbs, hderives, -⟩
    rw [hhelper, Except.ok.injEq] at hbs
    rw [hbs, (hcastle bs).1 hderives]
  · intro h
    refine ⟨_, hhelper, (hcastle _).2 h, fun hlong hshort => ?_⟩
    rw [h, pick, if_neg (by omega), if_pos hshort, spread_of_le hshort]

/-- **When the two derivations agree**: exactly when the hash that `CryptHelper` appends to a secret
key it does not double makes no difference to the bytes taken. -/
theorem derivationsAgree_iff (R : Runtime) (n : ℕ) (secretKey hash : Utf16) (hs : secretKey ≠ [])
    (hh : hash ≠ []) :
    DerivationsAgree R n secretKey hash ↔ HashUnnoticed n secretKey hash := by
  have hdouble := Utf16.length_utf8_le_append secretKey secretKey
  rw [derivationsAgree_iff_spread hs hh, pick, HashUnnoticed]
  by_cases hlong : n ≤ (Utf16.utf8 secretKey).length
  · rw [if_pos hlong, if_pos hlong]
    exact iff_of_true rfl (.inl hlong)
  · rw [if_neg hlong, if_neg hlong]
    by_cases hshort : n ≤ (Utf16.utf8 (secretKey ++ secretKey)).length
    · rw [if_pos hshort, spread_append_eq_double_iff hh (Nat.lt_of_not_le hlong) hshort]
      constructor
      · intro h
        exact .inr (.inl ⟨hshort, h⟩)
      · rintro (h | ⟨-, h⟩ | ⟨h, -⟩)
        · exact absurd h hlong
        · exact h
        · exact absurd hshort (by omega)
    · rw [if_neg hshort, eq_comm, spread_append_self_iff]
      have hjoin : Utf16.joins (secretKey ++ hash) (secretKey ++ hash) =
          Utf16.joins hash secretKey := by
        unfold Utf16.joins
        rw [List.getLast?_append_of_ne_nil _ hh, List.head?_append_of_ne_nil _ hs]
      rw [hjoin]
      constructor
      · intro h
        exact .inr (.inr ⟨by omega, h⟩)
      · rintro (h | ⟨h, -⟩ | ⟨-, h⟩)
        · exact absurd h hlong
        · exact absurd h hshort
        · exact h

/-- A secret key of eight bytes for a key of 32: both methods append the hash and go round. -/
theorem derivationsAgree_32 :
    DerivationsAgree (Deployment.resx (fun _ _ => 0) (· == ·)).toRuntime 32 (.ofString "password")
      (.ofString "::1") :=
  (derivationsAgree_iff _ 32 (.ofString "password") (.ofString "::1") (by decide) (by decide)).2
    (.inr (.inr (by decide)))

/-- For a key of 16 bytes one method doubles it and the other appends the hash. -/
theorem not_derivationsAgree_16 :
    ¬ DerivationsAgree (Deployment.resx (fun _ _ => 0) (· == ·)).toRuntime 16
      (.ofString "password") (.ofString "::1") := by
  rw [derivationsAgree_iff_spread (by decide) (by decide)]
  decide

end Server6
