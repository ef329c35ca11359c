import Server6.Foundations.Scattered
import Server6.KernelCrypto.Sm4

/-!
# Key wrapping

The template `kw` of `keywrap.c`: six rounds over the semiblocks of a buffer, forwards to wrap and
backwards to unwrap, with a counter and one more semiblock `A` that goes through all of them. The
buffers are scatterlists, the addresses of their bytes in several entries.

* `cryptoKwEncrypt_spec`, `cryptoKwDecrypt_spec`: the code computes the rounds as a chaining mode and
  one from behind, in place and elsewhere.
* `cryptoKwDecrypt_cryptoKwEncrypt`: what was wrapped is unwrapped, and accepted.
* `cryptoKwDecrypt_accepts_iff`: nothing else is accepted.
-/

namespace Server6

namespace KernelCrypto

open Memory

def SEMIBSIZE : ℕ := 8
def EBADMSG : Int := 74

/-- The default value of `A`. -/
def kwIv : List UInt8 := cpuToBe64 0xa6a6a6a6a6a6a6a6

/-- An instance that `crypto_kw_create` registers. -/
structure Kw extends Cipher where
  blocksize_eq : blocksize = 2 * SEMIBSIZE

/-! ## The code -/

/-- The addresses of the bytes, entry by entry. -/
abbrev Scatterlist := List (List ℕ)

/-- The addresses that a walk has not visited. -/
abbrev Walk := List ℕ

/-- `crypto_kw_scatterlist_ff`, with the number of bytes to skip. -/
def scatterlistFf : Scatterlist → ℕ → Walk
  | [], _ => []
  | entry :: sg, skip =>
    if skip < entry.length then entry.drop skip ++ sg.flatten
    else scatterlistFf sg (skip - entry.length)

def cryptoKwScatterlistFf (sg : Scatterlist) (stop : ℕ) : Walk := scatterlistFf sg (stop - SEMIBSIZE)

/-- The semiblock `block.A` and the variable `t`. -/
@[ext] structure KwState where
  A : List UInt8
  t : UInt64

/-- The outer loop of both functions, with `n` rounds to go: all but the first one read what the one
before has written. -/
def kwRounds (loop : Scatterlist → Scatterlist → Memory × KwState → Memory × KwState)
    (dst : Scatterlist) : ℕ → Scatterlist → Memory × KwState → Memory × KwState
  | 0, _, r => r
  | n + 1, src, r => kwRounds loop dst n dst (loop src dst r)

section

variable (k : Kw)

/-- The operation of `crypto_kw_encrypt` on one semiblock. -/
def kwEncryptStep (s : KwState) (R : List UInt8) : List UInt8 × KwState :=
  let block := k.encrypt (s.A ++ R)
  (block.drop SEMIBSIZE, ⟨xorBytes (block.take SEMIBSIZE) (cpuToBe64 s.t), s.t + 1⟩)

/-- The operation of `crypto_kw_decrypt` on one semiblock. -/
def kwDecryptStep (s : KwState) (R : List UInt8) : List UInt8 × KwState :=
  let block := k.decrypt (xorBytes s.A (cpuToBe64 s.t) ++ R)
  (block.drop SEMIBSIZE, ⟨block.take SEMIBSIZE, s.t - 1⟩)

/-- The inner loop of `crypto_kw_encrypt`. -/
def kwEncryptLoop (mem : Memory) (srcWalk dstWalk : Walk) (s : KwState) (nbytes : ℕ) :
    Memory × KwState :=
  if nbytes = 0 then (mem, s)
  else
    let r := kwEncryptStep k s (gather mem (srcWalk.take SEMIBSIZE))
    kwEncryptLoop (scatter mem (dstWalk.take SEMIBSIZE) r.1) (srcWalk.drop SEMIBSIZE)
      (dstWalk.drop SEMIBSIZE) r.2 (nbytes - SEMIBSIZE)
termination_by nbytes
decreasing_by
  have hpos : 0 < SEMIBSIZE := by decide
  omega

/-- The body of the outer loop of `crypto_kw_encrypt`. -/
def kwEncryptPass (cryptlen : ℕ) (src dst : Scatterlist) (r : Memory × KwState) : Memory × KwState :=
  kwEncryptLoop k r.1 src.flatten dst.flatten r.2 cryptlen

/-- `crypto_kw_encrypt`. -/
def cryptoKwEncrypt (mem : Memory) (src dst : Scatterlist) (cryptlen iv : ℕ) : Memory × Int :=
  if cryptlen < 2 * SEMIBSIZE ∨ cryptlen % SEMIBSIZE ≠ 0 then (mem, -EINVAL)
  else
    let r := kwRounds (kwEncryptPass k cryptlen) dst 6 src (mem, ⟨kwIv, 1⟩)
    (assign r.1 iv r.2.A, 0)

/-- The inner loop of `crypto_kw_decrypt`. -/
def kwDecryptLoop (mem : Memory) (src dst : Scatterlist) (s : KwState) (nbytes : ℕ) :
    Memory × KwState :=
  if nbytes = 0 then (mem, s)
  else
    let r := kwDecryptStep k s (gather mem ((cryptoKwScatterlistFf src nbytes).take SEMIBSIZE))
    kwDecryptLoop (scatter mem ((cryptoKwScatterlistFf dst nbytes).take SEMIBSIZE) r.1) src dst r.2
      (nbytes - SEMIBSIZE)
termination_by nbytes
decreasing_by
  have hpos : 0 < SEMIBSIZE := by decide
  omega

/-- The body of the outer loop of `crypto_kw_decrypt`. -/
def kwDecryptPass (cryptlen : ℕ) (src dst : Scatterlist) (r : Memory × KwState) : Memory × KwState :=
  kwDecryptLoop k r.1 src dst r.2 cryptlen

/-- `crypto_kw_decrypt`. -/
def cryptoKwDecrypt (mem : Memory) (src dst : Scatterlist) (cryptlen iv : ℕ) : Memory × Int :=
  if cryptlen < 2 * SEMIBSIZE ∨ cryptlen % SEMIBSIZE ≠ 0 then (mem, -EINVAL)
  else
    let t : UInt64 := 6 * UInt64.ofNat (cryptlen / SEMIBSIZE)
    let r := kwRounds (kwDecryptPass k cryptlen) dst 6 src (mem, ⟨load mem iv SEMIBSIZE, t⟩)
    (r.1, if r.2.A ≠ kwIv then -EBADMSG else 0)

end

/-! ## Walks -/

theorem scatterlistFf_eq (sg : Scatterlist) (skip : ℕ) :
    scatterlistFf sg skip = sg.flatten.drop skip := by
  induction sg generalizing skip with
  | nil => simp [scatterlistFf]
  | cons entry sg ih =>
    rw [scatterlistFf, List.flatten_cons]
    split_ifs with h
    · rw [List.drop_append_of_le_length (Nat.le_of_lt h)]
    · rw [ih, List.drop_append, List.drop_eq_nil_of_le (Nat.not_lt.1 h), List.nil_append]

section

variable {k : Kw} {mem : Memory} {S D : List ℕ} {src dst : Scatterlist} {s : KwState} {n q iv : ℕ}

/-- What a round reads and writes: the same bytes, or bytes of which none is read. -/
structure Buffers (S D : List ℕ) (n : ℕ) : Prop where
  nodup : D.Nodup
  same : S = D ∨ ∀ a ∈ S, a ∉ D
  source : n ≤ S.length
  target : n ≤ D.length

theorem Buffers.inplace (h : Buffers S D n) : Buffers D D n := ⟨h.nodup, .inl rfl, h.target, h.target⟩

theorem Buffers.notMem_of_drop (h : Buffers S D n) {i a : ℕ} (ha : a ∈ D.drop i) : a ∉ D.take i := by
  have hnodup := h.nodup
  rw [← List.take_append_drop i D] at hnodup
  exact fun hmem => (List.nodup_append.1 hnodup).2.2 a hmem a ha rfl

theorem Buffers.notMem_of_source_drop (h : Buffers S D n) {i a : ℕ} (ha : a ∈ S.drop i) :
    a ∉ D.take i := by
  rcases h.same with rfl | hapart
  · exact h.notMem_of_drop ha
  · exact fun hmem => hapart a (List.mem_of_mem_drop ha) (List.mem_of_mem_take hmem)

theorem Buffers.notMem_of_source_take (h : Buffers S D n) {i a : ℕ} (ha : a ∈ S.take i) :
    a ∉ D.drop i := by
  rcases h.same with rfl | hapart
  · exact fun hmem => h.notMem_of_drop hmem ha
  · exact fun hmem => hapart a (List.mem_of_mem_take ha) (List.mem_of_mem_drop hmem)

theorem Buffers.drop (h : Buffers S D (n + q)) : Buffers (S.drop n) (D.drop n) q := by
  obtain ⟨hnodup, hsame, hsource, htarget⟩ := h
  refine ⟨hnodup.sublist (List.drop_sublist n D), hsame.imp (congrArg _) fun h a ha hmem => ?_, ?_, ?_⟩
  · exact h a (List.mem_of_mem_drop ha) (List.mem_of_mem_drop hmem)
  · rw [List.length_drop]
    omega
  · rw [List.length_drop]
    omega

theorem Buffers.take (h : Buffers S D (n + q)) : Buffers S D n :=
  ⟨h.nodup, h.same, Nat.le_trans (Nat.le_add_right n q) h.source,
    Nat.le_trans (Nat.le_add_right n q) h.target⟩

/-! ## One round -/

/-- A round of wrapping, on the semiblocks. -/
def kwRound (k : Kw) (p : List (List UInt8) × KwState) : List (List UInt8) × KwState :=
  chain (kwEncryptStep k) p.2 p.1

/-- A round of unwrapping. -/
def kwRoundBack (k : Kw) (p : List (List UInt8) × KwState) : List (List UInt8) × KwState :=
  chainBack (kwDecryptStep k) p.2 p.1

/-- Semiblocks, and a state with one. -/
def Semiblocks (p : List (List UInt8) × KwState) : Prop :=
  (∀ x ∈ p.1, x.length = SEMIBSIZE) ∧ p.2.A.length = SEMIBSIZE

theorem length_cpuToBe64 (t : UInt64) : (cpuToBe64 t).length = SEMIBSIZE := rfl

theorem length_kwEncryptStep (k : Kw) (s : KwState) (R : List UInt8) (hs : s.A.length = SEMIBSIZE)
    (hR : R.length = SEMIBSIZE) :
    (kwEncryptStep k s R).1.length = SEMIBSIZE ∧ (kwEncryptStep k s R).2.A.length = SEMIBSIZE := by
  have hblock : (k.encrypt (s.A ++ R)).length = 2 * SEMIBSIZE := by
    rw [k.length_encrypt _ (by rw [List.length_append, hs, hR, k.blocksize_eq, Nat.two_mul]),
      k.blocksize_eq]
  constructor
  · rw [kwEncryptStep, List.length_drop, hblock]
    rfl
  · refine length_xorBytes ?_ (length_cpuToBe64 s.t)
    rw [List.length_take, hblock]
    rfl

theorem length_kwDecryptStep (k : Kw) (s : KwState) (R : List UInt8) (hs : s.A.length = SEMIBSIZE)
    (hR : R.length = SEMIBSIZE) :
    (kwDecryptStep k s R).1.length = SEMIBSIZE ∧ (kwDecryptStep k s R).2.A.length = SEMIBSIZE := by
  have hA := length_xorBytes hs (length_cpuToBe64 s.t)
  have hblock : (k.decrypt (xorBytes s.A (cpuToBe64 s.t) ++ R)).length = 2 * SEMIBSIZE := by
    rw [k.length_decrypt _ (by rw [List.length_append, hA, hR, k.blocksize_eq, Nat.two_mul]),
      k.blocksize_eq]
  constructor
  · rw [kwDecryptStep, List.length_drop, hblock]
    rfl
  · rw [kwDecryptStep, List.length_take, hblock]
    rfl

theorem semiblocks_kwRound (k : Kw) {p : List (List UInt8) × KwState} (h : Semiblocks p) :
    Semiblocks (kwRound k p) :=
  forall_chain (f := kwEncryptStep k) (I := fun s => s.A.length = SEMIBSIZE)
    (Q := fun R => R.length = SEMIBSIZE) (fun s R hs hR => length_kwEncryptStep k s R hs hR) h.2 h.1

theorem semiblocks_kwRoundBack (k : Kw) {p : List (List UInt8) × KwState} (h : Semiblocks p) :
    Semiblocks (kwRoundBack k p) :=
  forall_chainBack (g := kwDecryptStep k) (I := fun s => s.A.length = SEMIBSIZE)
    (Q := fun R => R.length = SEMIBSIZE) (fun s R hs hR => length_kwDecryptStep k s R hs hR) h.2 h.1

theorem kwEncryptLoop_succ (k : Kw) (mem : Memory) (S D : List ℕ) (s : KwState) (q : ℕ) :
    kwEncryptLoop k mem S D s (SEMIBSIZE * (q + 1)) =
      kwEncryptLoop k (scatter mem (D.take SEMIBSIZE)
          (kwEncryptStep k s (gather mem (S.take SEMIBSIZE))).1) (S.drop SEMIBSIZE) (D.drop SEMIBSIZE)
        (kwEncryptStep k s (gather mem (S.take SEMIBSIZE))).2 (SEMIBSIZE * q) := by
  have hne : SEMIBSIZE * (q + 1) ≠ 0 := Nat.mul_ne_zero (by decide) (Nat.succ_ne_zero q)
  rw [kwEncryptLoop, if_neg hne, Nat.mul_succ, Nat.add_sub_cancel]

theorem kwDecryptLoop_succ (k : Kw) (mem : Memory) (src dst : Scatterlist) (s : KwState) (q : ℕ) :
    kwDecryptLoop k mem src dst s (SEMIBSIZE * (q + 1)) =
      kwDecryptLoop k (scatter mem ((dst.flatten.drop (SEMIBSIZE * q)).take SEMIBSIZE)
          (kwDecryptStep k s (gather mem ((src.flatten.drop (SEMIBSIZE * q)).take SEMIBSIZE))).1)
        src dst
        (kwDecryptStep k s (gather mem ((src.flatten.drop (SEMIBSIZE * q)).take SEMIBSIZE))).2
        (SEMIBSIZE * q) := by
  have hne : SEMIBSIZE * (q + 1) ≠ 0 := Nat.mul_ne_zero (by decide) (Nat.succ_ne_zero q)
  rw [kwDecryptLoop, if_neg hne, cryptoKwScatterlistFf, cryptoKwScatterlistFf, scatterlistFf_eq,
    scatterlistFf_eq, Nat.mul_succ, Nat.add_sub_cancel]

theorem length_gather_take (mem : Memory) {i : ℕ} (h : i ≤ S.length) :
    (gather mem (S.take i)).length = i := by
  rw [gather, List.length_map, List.length_take, Nat.min_eq_left h]

/-- The inner loop of wrapping computes a round. -/
theorem kwEncryptLoop_spec (k : Kw) (mem : Memory) (s : KwState) (hs : s.A.length = SEMIBSIZE)
    (h : Buffers S D (SEMIBSIZE * q)) :
    (wordsAt (kwEncryptLoop k mem S D s (SEMIBSIZE * q)).1 SEMIBSIZE q D,
        (kwEncryptLoop k mem S D s (SEMIBSIZE * q)).2) = kwRound k (wordsAt mem SEMIBSIZE q S, s) ∧
      ∀ a, a ∉ D.take (SEMIBSIZE * q) →
        (kwEncryptLoop k mem S D s (SEMIBSIZE * q)).1 a = mem a := by
  induction q generalizing mem s S D with
  | zero =>
    rw [kwEncryptLoop, if_pos (Nat.mul_zero _)]
    exact ⟨rfl, fun _ _ => rfl⟩
  | succ q ih =>
    rw [Nat.mul_succ, Nat.add_comm] at h
    have hfirst := h.take
    obtain ⟨hword, hA⟩ := length_kwEncryptStep k s _ hs (length_gather_take mem hfirst.source)
    rw [kwEncryptLoop_succ, wordsAt, wordsAt, kwRound, chain]
    generalize kwEncryptStep k s (gather mem (S.take SEMIBSIZE)) = r at *
    obtain ⟨hround, hframe⟩ := ih (scatter mem (D.take SEMIBSIZE) r.1) r.2 hA h.drop
    generalize kwEncryptLoop k (scatter mem (D.take SEMIBSIZE) r.1) (S.drop SEMIBSIZE)
      (D.drop SEMIBSIZE) r.2 (SEMIBSIZE * q) = r' at *
    -- the rest of the source is not written, and the first semiblock is not written again
    have hrest : wordsAt (scatter mem (D.take SEMIBSIZE) r.1) SEMIBSIZE q (S.drop SEMIBSIZE) =
        wordsAt mem SEMIBSIZE q (S.drop SEMIBSIZE) :=
      wordsAt_congr fun a ha =>
        scatter_of_notMem (h.notMem_of_source_drop (List.mem_of_mem_take ha))
    have hhead : gather r'.1 (D.take SEMIBSIZE) = r.1 := by
      rw [gather_congr fun a ha => hframe a fun hmem =>
        h.notMem_of_drop (List.mem_of_mem_take hmem) ha]
      refine gather_scatter _ (h.nodup.sublist (List.take_sublist _ D)) ?_
      rw [hword, List.length_take, Nat.min_eq_left hfirst.target]
    rw [hrest, kwRound] at hround
    obtain ⟨hwords, hend⟩ := Prod.ext_iff.1 hround
    refine ⟨Prod.ext (congrArg₂ List.cons hhead hwords) hend, fun a ha => ?_⟩
    rw [Nat.mul_succ, Nat.add_comm, List.take_add] at ha
    rw [hframe a fun hmem => ha (List.mem_append_right _ hmem),
      scatter_of_notMem fun hmem => ha (List.mem_append_left _ hmem)]

/-- The inner loop of unwrapping computes a round. -/
theorem kwDecryptLoop_spec (k : Kw) (mem : Memory) (s : KwState) (hs : s.A.length = SEMIBSIZE)
    (h : Buffers src.flatten dst.flatten (SEMIBSIZE * q)) :
    (wordsAt (kwDecryptLoop k mem src dst s (SEMIBSIZE * q)).1 SEMIBSIZE q dst.flatten,
        (kwDecryptLoop k mem src dst s (SEMIBSIZE * q)).2) =
          kwRoundBack k (wordsAt mem SEMIBSIZE q src.flatten, s) ∧
      ∀ a, a ∉ dst.flatten.take (SEMIBSIZE * q) →
        (kwDecryptLoop k mem src dst s (SEMIBSIZE * q)).1 a = mem a := by
  induction q generalizing mem s with
  | zero =>
    rw [kwDecryptLoop, if_pos (Nat.mul_zero _)]
    exact ⟨rfl, fun _ _ => rfl⟩
  | succ q ih =>
    rw [Nat.mul_succ] at h
    have hlast := h.drop
    obtain ⟨hword, hA⟩ := length_kwDecryptStep k s _ hs (length_gather_take mem hlast.source)
    rw [kwDecryptLoop_succ, wordsAt_succ, wordsAt_succ, kwRoundBack, chainBack_append]
    generalize kwDecryptStep k s
      (gather mem ((src.flatten.drop (SEMIBSIZE * q)).take SEMIBSIZE)) = r at *
    generalize hmem' :
      scatter mem ((dst.flatten.drop (SEMIBSIZE * q)).take SEMIBSIZE) r.1 = mem' at *
    obtain ⟨hround, hframe⟩ := ih mem' r.2 hA h.take
    generalize kwDecryptLoop k mem' src dst r.2 (SEMIBSIZE * q) = r' at *
    subst hmem'
    -- the source before the last semiblock is not written, and this one is not written again
    have hrest : wordsAt (scatter mem ((dst.flatten.drop (SEMIBSIZE * q)).take SEMIBSIZE) r.1)
        SEMIBSIZE q src.flatten = wordsAt mem SEMIBSIZE q src.flatten :=
      wordsAt_congr fun a ha => scatter_of_notMem fun hmem =>
        h.notMem_of_source_take ha (List.mem_of_mem_take hmem)
    have hhead : gather r'.1 ((dst.flatten.drop (SEMIBSIZE * q)).take SEMIBSIZE) = r.1 := by
      rw [gather_congr fun a ha => hframe a (h.notMem_of_drop (List.mem_of_mem_take ha))]
      refine gather_scatter _ (hlast.nodup.sublist (List.take_sublist _ _)) ?_
      rw [hword, List.length_take, Nat.min_eq_left hlast.target]
    rw [hrest, kwRoundBack] at hround
    obtain ⟨hwords, hend⟩ := Prod.ext_iff.1 hround
    refine ⟨Prod.ext (congrArg₂ (· ++ ·) hwords (congrArg (fun w => [w]) hhead)) hend, fun a ha => ?_⟩
    rw [Nat.mul_succ, List.take_add] at ha
    rw [hframe a fun hmem => ha (List.mem_append_left _ hmem),
      scatter_of_notMem fun hmem => ha (List.mem_append_right _ hmem)]

/-! ## Six rounds -/

/-- An inner loop computes a round of `q` semiblocks. -/
def ComputesRound (round : List (List UInt8) × KwState → List (List UInt8) × KwState) (q : ℕ)
    (loop : Scatterlist → Scatterlist → Memory × KwState → Memory × KwState) : Prop :=
  ∀ src dst r, r.2.A.length = SEMIBSIZE → Buffers src.flatten dst.flatten (SEMIBSIZE * q) →
    (wordsAt (loop src dst r).1 SEMIBSIZE q dst.flatten, (loop src dst r).2) =
        round (wordsAt r.1 SEMIBSIZE q src.flatten, r.2) ∧
      ∀ a, a ∉ dst.flatten.take (SEMIBSIZE * q) → (loop src dst r).1 a = r.1 a

theorem kwRounds_spec {round : List (List UInt8) × KwState → List (List UInt8) × KwState}
    {loop : Scatterlist → Scatterlist → Memory × KwState → Memory × KwState}
    (hloop : ComputesRound round q loop) (hround : ∀ p, Semiblocks p → Semiblocks (round p))
    (r : Memory × KwState) (hs : r.2.A.length = SEMIBSIZE)
    (h : Buffers src.flatten dst.flatten (SEMIBSIZE * q)) (n : ℕ) :
    (wordsAt (kwRounds loop dst (n + 1) src r).1 SEMIBSIZE q dst.flatten,
        (kwRounds loop dst (n + 1) src r).2) =
          round^[n + 1] (wordsAt r.1 SEMIBSIZE q src.flatten, r.2) ∧
      ∀ a, a ∉ dst.flatten.take (SEMIBSIZE * q) → (kwRounds loop dst (n + 1) src r).1 a = r.1 a := by
  induction n generalizing src r with
  | zero => exact hloop src dst r hs h
  | succ n ih =>
    obtain ⟨hfirst, hframe⟩ := hloop src dst r hs h
    have hsemi : Semiblocks (wordsAt r.1 SEMIBSIZE q src.flatten, r.2) :=
      ⟨fun x hx => length_of_mem_wordsAt h.source hx, hs⟩
    have hA : (loop src dst r).2.A.length = SEMIBSIZE := by
      have hkept := (hround _ hsemi).2
      rwa [← hfirst] at hkept
    obtain ⟨hrest, hframe'⟩ := ih (loop src dst r) hA h.inplace
    rw [kwRounds, Function.iterate_succ_apply, ← hfirst]
    exact ⟨hrest, fun a ha => (hframe' a ha).trans (hframe a ha)⟩

/-- What wrapping makes of semiblocks, and the state it ends with. -/
def kwWrap (k : Kw) (W : List (List UInt8)) : List (List UInt8) × KwState :=
  (kwRound k)^[6] (W, ⟨kwIv, 1⟩)

/-- What unwrapping makes of semiblocks behind `A`. -/
def kwUnwrap (k : Kw) (A : List UInt8) (C : List (List UInt8)) : List (List UInt8) × KwState :=
  (kwRoundBack k)^[6] (C, ⟨A, 6 * UInt64.ofNat C.length⟩)

theorem semiblocks_iterate {round : List (List UInt8) × KwState → List (List UInt8) × KwState}
    (hround : ∀ p, Semiblocks p → Semiblocks (round p)) (n : ℕ) {p : List (List UInt8) × KwState}
    (h : Semiblocks p) : Semiblocks (round^[n] p) := by
  induction n generalizing p with
  | zero => exact h
  | succ n ih =>
    rw [Function.iterate_succ_apply]
    exact ih (hround p h)

theorem semiblocks_kwWrap (k : Kw) {W : List (List UInt8)} (hW : ∀ x ∈ W, x.length = SEMIBSIZE) :
    Semiblocks (kwWrap k W) :=
  semiblocks_iterate (fun _ h => semiblocks_kwRound k h) 6 ⟨hW, rfl⟩

/-- The counter goes on by one with every semiblock. -/
theorem t_kwRound (k : Kw) (p : List (List UInt8) × KwState) :
    (kwRound k p).1.length = p.1.length ∧ (kwRound k p).2.t = p.2.t + UInt64.ofNat p.1.length := by
  refine ⟨length_chain p.1, ?_⟩
  obtain ⟨W, s⟩ := p
  induction W generalizing s with
  | nil => exact (UInt64.add_zero s.t).symm
  | cons R W ih =>
    have hrest := ih (kwEncryptStep k s R).2
    rw [kwRound] at hrest ⊢
    rw [chain, hrest, List.length_cons, UInt64.ofNat_add, UInt64.add_comm (UInt64.ofNat W.length),
      ← UInt64.add_assoc]
    rfl

/-- And back. -/
theorem t_kwRoundBack (k : Kw) (p : List (List UInt8) × KwState) :
    (kwRoundBack k p).1.length = p.1.length ∧
      (kwRoundBack k p).2.t = p.2.t - UInt64.ofNat p.1.length := by
  obtain ⟨C, s⟩ := p
  refine ⟨by simp [kwRoundBack, chainBack, length_chain], ?_⟩
  induction C with
  | nil => exact (UInt64.sub_zero s.t).symm
  | cons R C ih =>
    simp only [kwRoundBack] at ih ⊢
    rw [chainBack_cons, List.length_cons, UInt64.ofNat_add]
    simp only [kwDecryptStep, ih]
    grind

theorem t_iterate {round : List (List UInt8) × KwState → List (List UInt8) × KwState}
    (next : UInt64 → UInt64 → UInt64)
    (hround : ∀ p, (round p).1.length = p.1.length ∧
      (round p).2.t = next p.2.t (UInt64.ofNat p.1.length)) (n : ℕ) (p : List (List UInt8) × KwState) :
    (round^[n] p).1.length = p.1.length ∧
      (round^[n] p).2.t = (next · (UInt64.ofNat p.1.length))^[n] p.2.t := by
  induction n generalizing p with
  | zero => exact ⟨rfl, rfl⟩
  | succ n ih =>
    obtain ⟨hlen, ht⟩ := hround p
    obtain ⟨hlen', ht'⟩ := ih (round p)
    rw [Function.iterate_succ_apply, Function.iterate_succ_apply, ← ht, ← hlen]
    exact ⟨hlen', ht'⟩

/-! ## Unwrapping what was wrapped -/

/-- Encryption undoes decryption too. -/
def Cipher.Permutes (c : Cipher) : Prop :=
  c.Inverts ∧ ∀ b, b.length = c.blocksize → c.encrypt (c.decrypt b) = b

/-- The state in which unwrapping is where wrapping is. -/
def KwState.back (s : KwState) : KwState := ⟨s.A, s.t - 1⟩

/-- The state in which wrapping is where unwrapping is. -/
def KwState.forth (s : KwState) : KwState := ⟨s.A, s.t + 1⟩

theorem kwDecryptStep_kwEncryptStep (hk : k.Inverts) (s : KwState) (R : List UInt8)
    (hs : s.A.length = SEMIBSIZE) (hR : R.length = SEMIBSIZE) :
    kwDecryptStep k (kwEncryptStep k s R).2.back (kwEncryptStep k s R).1 = (R, s.back) := by
  have hlen : (s.A ++ R).length = k.blocksize := by
    rw [List.length_append, hs, hR, k.blocksize_eq, Nat.two_mul]
  have hA : ((k.encrypt (s.A ++ R)).take SEMIBSIZE).length = (cpuToBe64 s.t).length := by
    rw [List.length_take, k.length_encrypt _ hlen, k.blocksize_eq]
    rfl
  simp only [kwDecryptStep, kwEncryptStep, KwState.back, UInt64.add_sub_cancel]
  rw [xorBytes_xorBytes hA, List.take_append_drop, hk _ hlen, List.drop_left' hs, List.take_left' hs]

theorem kwEncryptStep_kwDecryptStep (hk : k.Permutes) (s : KwState) (R : List UInt8)
    (hs : s.A.length = SEMIBSIZE) (hR : R.length = SEMIBSIZE) :
    kwEncryptStep k (kwDecryptStep k s R).2.forth (kwDecryptStep k s R).1 = (R, s.forth) := by
  have hA : (xorBytes s.A (cpuToBe64 s.t)).length = SEMIBSIZE :=
    length_xorBytes hs (length_cpuToBe64 s.t)
  have hlen : (xorBytes s.A (cpuToBe64 s.t) ++ R).length = k.blocksize := by
    rw [List.length_append, hA, hR, k.blocksize_eq, Nat.two_mul]
  simp only [kwDecryptStep, kwEncryptStep, KwState.forth, UInt64.sub_add_cancel]
  rw [List.take_append_drop, hk.2 _ hlen, List.drop_left' hA, List.take_left' hA,
    xorBytes_xorBytes (hs.trans (length_cpuToBe64 s.t).symm)]

/-- Six rounds count to six times the number of semiblocks. -/
theorem t_kwWrap (k : Kw) (W : List (List UInt8)) :
    (kwWrap k W).1.length = W.length ∧ (kwWrap k W).2.t = 1 + 6 * UInt64.ofNat W.length := by
  obtain ⟨hlen, ht⟩ := t_iterate (fun t n => t + n) (t_kwRound k) 6 (W, ⟨kwIv, 1⟩)
  refine ⟨hlen, ht.trans ?_⟩
  simp only [Function.iterate_succ_apply, Function.iterate_zero_apply]
  grind

theorem t_kwUnwrap (k : Kw) (A : List UInt8) (C : List (List UInt8)) :
    (kwUnwrap k A C).1.length = C.length ∧ (kwUnwrap k A C).2.t = 0 := by
  obtain ⟨hlen, ht⟩ := t_iterate (fun t n => t - n) (t_kwRoundBack k) 6
    (C, ⟨A, 6 * UInt64.ofNat C.length⟩)
  refine ⟨hlen, ht.trans ?_⟩
  simp only [Function.iterate_succ_apply, Function.iterate_zero_apply]
  grind

theorem kwUnwrap_kwWrap (hk : k.Inverts) {W : List (List UInt8)}
    (hW : ∀ x ∈ W, x.length = SEMIBSIZE) :
    kwUnwrap k (kwWrap k W).2.A (kwWrap k W).1 = (W, ⟨kwIv, 0⟩) := by
  have hrounds := iterate_iterate (F := kwRound k) (G := kwRoundBack k) (I := Semiblocks)
    (K := fun p => (p.1, p.2.back)) (p := (W, ⟨kwIv, 1⟩)) (fun p hp => ?_) 6 ⟨hW, rfl⟩
  · obtain ⟨hlen, ht⟩ := t_kwWrap k W
    have hback : (kwWrap k W).2.back =
        ⟨(kwWrap k W).2.A, 6 * UInt64.ofNat (kwWrap k W).1.length⟩ := by
      rw [KwState.back, ht, hlen, UInt64.add_comm, UInt64.add_sub_cancel]
    have hstart : KwState.back ⟨kwIv, 1⟩ = ⟨kwIv, 0⟩ := by
      rw [KwState.back, UInt64.sub_self]
    rw [hstart] at hrounds
    rw [kwUnwrap, ← hback]
    exact hrounds
  · refine ⟨?_, semiblocks_kwRound k hp⟩
    exact chainBack_chain (k := KwState.back) (I := fun s => s.A.length = SEMIBSIZE)
      (fun s R hs hR => ⟨kwDecryptStep_kwEncryptStep hk s R hs hR,
        (length_kwEncryptStep k s R hs hR).2⟩) hp.2 hp.1

theorem kwWrap_kwUnwrap (hk : k.Permutes) {A : List UInt8} {C : List (List UInt8)}
    (hC : ∀ x ∈ C, x.length = SEMIBSIZE) (hA : A.length = SEMIBSIZE)
    (haccept : (kwUnwrap k A C).2.A = kwIv) :
    (kwWrap k (kwUnwrap k A C).1).1 = C ∧ (kwWrap k (kwUnwrap k A C).1).2.A = A := by
  have hrounds := iterate_iterate (F := kwRoundBack k) (G := kwRound k) (I := Semiblocks)
    (K := fun p => (p.1, p.2.forth)) (p := (C, ⟨A, 6 * UInt64.ofNat C.length⟩)) (fun p hp => ?_) 6
    ⟨hC, hA⟩
  · have hstart : (kwUnwrap k A C).2.forth = ⟨kwIv, 1⟩ := by
      rw [KwState.forth, (t_kwUnwrap k A C).2, haccept, UInt64.zero_add]
    have hwrap : kwWrap k (kwUnwrap k A C).1 =
        (C, KwState.forth ⟨A, 6 * UInt64.ofNat C.length⟩) := by
      rw [kwWrap, ← hstart]
      exact hrounds
    rw [hwrap]
    exact ⟨rfl, rfl⟩
  · refine ⟨?_, semiblocks_kwRoundBack k hp⟩
    exact chain_chainBack (k := KwState.forth) (I := fun s => s.A.length = SEMIBSIZE)
      (fun s R hs hR => ⟨kwEncryptStep_kwDecryptStep hk s R hs hR,
        (length_kwDecryptStep k s R hs hR).2⟩) hp.2 hp.1

/-! ## The functions -/

/-- The address of no byte of `as` is one of the eight from `iv` on. -/
def ApartFrom (iv : ℕ) (as : List ℕ) : Prop := ∀ a ∈ as, a < iv ∨ iv + SEMIBSIZE ≤ a

theorem wrong_length (h : ¬(2 ≤ q)) : SEMIBSIZE * q < 2 * SEMIBSIZE := by
  rw [Nat.mul_comm]
  exact Nat.mul_lt_mul_of_pos_right (Nat.not_le.1 h) (by decide)

theorem right_length (h : 2 ≤ q) :
    ¬(SEMIBSIZE * q < 2 * SEMIBSIZE ∨ SEMIBSIZE * q % SEMIBSIZE ≠ 0) := by
  rw [Nat.mul_mod_right, Nat.mul_comm]
  have hle := Nat.mul_le_mul_right SEMIBSIZE h
  omega

/-- **Wrapping**, in place and elsewhere. -/
theorem cryptoKwEncrypt_spec (k : Kw) (mem : Memory) (hq : 2 ≤ q)
    (h : Buffers src.flatten dst.flatten (SEMIBSIZE * q)) (hiv : ApartFrom iv dst.flatten) :
    (cryptoKwEncrypt k mem src dst (SEMIBSIZE * q) iv).2 = 0 ∧
      wordsAt (cryptoKwEncrypt k mem src dst (SEMIBSIZE * q) iv).1 SEMIBSIZE q dst.flatten =
        (kwWrap k (wordsAt mem SEMIBSIZE q src.flatten)).1 ∧
      load (cryptoKwEncrypt k mem src dst (SEMIBSIZE * q) iv).1 iv SEMIBSIZE =
        (kwWrap k (wordsAt mem SEMIBSIZE q src.flatten)).2.A ∧
      ∀ a, a ∉ dst.flatten.take (SEMIBSIZE * q) → (a < iv ∨ iv + SEMIBSIZE ≤ a) →
        (cryptoKwEncrypt k mem src dst (SEMIBSIZE * q) iv).1 a = mem a := by
  have hpass : ComputesRound (kwRound k) q (kwEncryptPass k (SEMIBSIZE * q)) :=
    fun src dst r hs h => kwEncryptLoop_spec k r.1 r.2 hs h
  obtain ⟨hrounds, hframe⟩ := kwRounds_spec hpass (fun p hp => semiblocks_kwRound k hp)
    (mem, ⟨kwIv, 1⟩) rfl h 5
  rw [cryptoKwEncrypt, if_neg (right_length hq)]
  dsimp only at hrounds hframe ⊢
  rw [← kwWrap] at hrounds
  generalize kwRounds (kwEncryptPass k (SEMIBSIZE * q)) dst 6 src (mem, ⟨kwIv, 1⟩) = r at *
  obtain ⟨hwords, hstate⟩ := Prod.ext_iff.1 hrounds
  have hA : r.2.A.length = SEMIBSIZE := by
    have hsemi := semiblocks_kwWrap k (W := wordsAt mem SEMIBSIZE q src.flatten)
      fun x hx => length_of_mem_wordsAt h.source hx
    exact (congrArg (fun s => s.A.length) hstate).trans hsemi.2
  refine ⟨rfl, ?_, ?_, fun a ha ha' => ?_⟩
  · rw [← hwords]
    refine wordsAt_congr fun a ha => assign_of_outside ?_
    rw [hA]
    exact hiv a (List.mem_of_mem_take ha)
  · exact (load_assign r.1 hA).trans (congrArg KwState.A hstate)
  · refine (assign_of_outside ?_).trans (hframe a ha)
    rwa [hA]

/-- **Unwrapping**, in place and elsewhere. -/
theorem cryptoKwDecrypt_spec (k : Kw) (mem : Memory) (iv : ℕ) (hq : 2 ≤ q)
    (h : Buffers src.flatten dst.flatten (SEMIBSIZE * q)) :
    (cryptoKwDecrypt k mem src dst (SEMIBSIZE * q) iv).2 =
        (if (kwUnwrap k (load mem iv SEMIBSIZE) (wordsAt mem SEMIBSIZE q src.flatten)).2.A ≠ kwIv then
          -EBADMSG else 0) ∧
      wordsAt (cryptoKwDecrypt k mem src dst (SEMIBSIZE * q) iv).1 SEMIBSIZE q dst.flatten =
        (kwUnwrap k (load mem iv SEMIBSIZE) (wordsAt mem SEMIBSIZE q src.flatten)).1 ∧
      ∀ a, a ∉ dst.flatten.take (SEMIBSIZE * q) →
        (cryptoKwDecrypt k mem src dst (SEMIBSIZE * q) iv).1 a = mem a := by
  have hdiv : SEMIBSIZE * q / SEMIBSIZE = q := Nat.mul_div_cancel_left q (by decide)
  have hpass : ComputesRound (kwRoundBack k) q (kwDecryptPass k (SEMIBSIZE * q)) :=
    fun src dst r hs h => kwDecryptLoop_spec k r.1 r.2 hs h
  obtain ⟨hrounds, hframe⟩ := kwRounds_spec hpass (fun p hp => semiblocks_kwRoundBack k hp)
    (mem, ⟨load mem iv SEMIBSIZE, 6 * UInt64.ofNat q⟩) (length_load ..) h 5
  rw [cryptoKwDecrypt, if_neg (right_length hq), hdiv, kwUnwrap, length_wordsAt]
  dsimp only at hrounds hframe ⊢
  generalize kwRounds (kwDecryptPass k (SEMIBSIZE * q)) dst 6 src
    (mem, ⟨load mem iv SEMIBSIZE, 6 * UInt64.ofNat q⟩) = r at *
  rw [← hrounds]
  exact ⟨rfl, rfl, hframe⟩

theorem exists_of_accepted {cryptlen : ℕ} (h : (cryptoKwEncrypt k mem src dst cryptlen iv).2 = 0) :
    ∃ q, 2 ≤ q ∧ cryptlen = SEMIBSIZE * q := by
  by_cases hlen : cryptlen < 2 * SEMIBSIZE ∨ cryptlen % SEMIBSIZE ≠ 0
  · rw [cryptoKwEncrypt, if_pos hlen] at h
    exact absurd h (by decide : -EINVAL ≠ 0)
  · obtain ⟨hle, hmod⟩ := not_or.1 hlen
    obtain ⟨q, rfl⟩ := Nat.dvd_of_mod_eq_zero (not_not.1 hmod)
    refine ⟨q, ?_, rfl⟩
    by_contra hlt
    exact hle (wrong_length hlt)

theorem cryptoKwDecrypt_wrong {cryptlen : ℕ}
    (hlen : cryptlen < 2 * SEMIBSIZE ∨ cryptlen % SEMIBSIZE ≠ 0) :
    (cryptoKwDecrypt k mem src dst cryptlen iv).2 ≠ 0 := by
  rw [cryptoKwDecrypt, if_pos hlen]
  exact (by decide : -EINVAL ≠ 0)

theorem decrypt_eq_zero_iff (hq : 2 ≤ q) (h : Buffers src.flatten dst.flatten (SEMIBSIZE * q)) :
    (cryptoKwDecrypt k mem src dst (SEMIBSIZE * q) iv).2 = 0 ↔
      (kwUnwrap k (load mem iv SEMIBSIZE) (wordsAt mem SEMIBSIZE q src.flatten)).2.A = kwIv := by
  rw [(cryptoKwDecrypt_spec k mem iv hq h).1, ite_eq_right_iff]
  constructor
  · intro hne
    by_contra hA
    exact absurd (hne hA) (by decide : -EBADMSG ≠ 0)
  · exact fun hA hne => absurd hA hne

end

/-- **The round trip**: what a call has wrapped, from `src` to `dst` and `iv`, in place or not, is
accepted and unwrapped to `out`, in place or not. -/
theorem cryptoKwDecrypt_cryptoKwEncrypt (k : Kw) (hk : k.Inverts) (mem : Memory)
    (src dst out : Scatterlist) (cryptlen iv : ℕ)
    (hwrapped : (cryptoKwEncrypt k mem src dst cryptlen iv).2 = 0)
    (h : Buffers src.flatten dst.flatten cryptlen) (h' : Buffers dst.flatten out.flatten cryptlen)
    (hiv : ApartFrom iv dst.flatten) :
    (cryptoKwDecrypt k (cryptoKwEncrypt k mem src dst cryptlen iv).1 dst out cryptlen iv).2 = 0 ∧
      gather (cryptoKwDecrypt k (cryptoKwEncrypt k mem src dst cryptlen iv).1 dst out cryptlen iv).1
        (out.flatten.take cryptlen) = gather mem (src.flatten.take cryptlen) := by
  obtain ⟨q, hq, rfl⟩ := exists_of_accepted hwrapped
  obtain ⟨-, hwords, hA, -⟩ := cryptoKwEncrypt_spec k mem hq h hiv
  generalize (cryptoKwEncrypt k mem src dst (SEMIBSIZE * q) iv).1 = mem' at *
  obtain ⟨-, hout, -⟩ := cryptoKwDecrypt_spec k mem' iv hq h'
  have hunwrap := kwUnwrap_kwWrap (W := wordsAt mem SEMIBSIZE q src.flatten) hk
    fun x hx => length_of_mem_wordsAt h.source hx
  rw [← hwords, ← hA] at hunwrap
  constructor
  · rw [decrypt_eq_zero_iff hq h', hunwrap]
  · rw [← flatten_wordsAt, ← flatten_wordsAt, hout, hunwrap]

/-- The instance for SM4. -/
def sm4Kw (inKey : List UInt8) : Kw := ⟨(sm4Ctx inKey).cipher, rfl⟩

/-- A zero key. -/
def zeroKey : List UInt8 := List.replicate 16 0

theorem permutes_sm4Kw : (sm4Kw zeroKey).Permutes := by
  have hmirror : (sm4Ctx zeroKey).Mirrored 32 := mirrored_of_accepted _ rfl
  exact ⟨Sm4Ctx.inverts_cipher hmirror, fun _ hbs => sm4CryptBlock_sm4CryptBlock hmirror.symm hbs⟩

/-- Twenty-four bytes in two entries, of which one divides a semiblock. -/
def twoEntries : Scatterlist := [List.range' 8 12, List.range' 40 12]

theorem buffers_twoEntries : Buffers twoEntries.flatten twoEntries.flatten 24 :=
  ⟨by decide, .inl rfl, by decide, by decide⟩

theorem apartFrom_twoEntries : ApartFrom 0 twoEntries.flatten := by
  unfold ApartFrom
  decide

theorem cryptoKwDecrypt_cryptoKwEncrypt_twoEntries :
    let mem : Memory := fun a => UInt8.ofNat a
    let mem' : Memory := (cryptoKwEncrypt (sm4Kw zeroKey) mem twoEntries twoEntries 24 0).1
    (cryptoKwDecrypt (sm4Kw zeroKey) mem' twoEntries twoEntries 24 0).2 = 0 ∧
      gather (cryptoKwDecrypt (sm4Kw zeroKey) mem' twoEntries twoEntries 24 0).1
        (twoEntries.flatten.take 24) = gather mem (twoEntries.flatten.take 24) :=
  cryptoKwDecrypt_cryptoKwEncrypt (sm4Kw zeroKey) permutes_sm4Kw.1 _ twoEntries twoEntries twoEntries
    24 0 rfl buffers_twoEntries buffers_twoEntries apartFrom_twoEntries

/-- **Nothing else is accepted**: where encryption and decryption undo each other, a call accepts the
bytes of `src` and `iv` exactly if there is something that is wrapped to them. -/
theorem cryptoKwDecrypt_accepts_iff (k : Kw) (hk : k.Permutes) (mem : Memory)
    (src dst : Scatterlist) (cryptlen iv : ℕ) (hsrc : Buffers src.flatten src.flatten cryptlen)
    (h : Buffers src.flatten dst.flatten cryptlen) (hiv : ApartFrom iv src.flatten) :
    (cryptoKwDecrypt k mem src dst cryptlen iv).2 = 0 ↔
      ∃ mem', (cryptoKwEncrypt k mem' src src cryptlen iv).2 = 0 ∧
        gather (cryptoKwEncrypt k mem' src src cryptlen iv).1 (src.flatten.take cryptlen) =
          gather mem (src.flatten.take cryptlen) ∧
        load (cryptoKwEncrypt k mem' src src cryptlen iv).1 iv SEMIBSIZE = load mem iv SEMIBSIZE := by
  by_cases hlen : cryptlen < 2 * SEMIBSIZE ∨ cryptlen % SEMIBSIZE ≠ 0
  · refine ⟨fun haccept => absurd haccept (cryptoKwDecrypt_wrong hlen), ?_⟩
    rintro ⟨mem', hwrapped, -⟩
    rw [cryptoKwEncrypt, if_pos hlen] at hwrapped
    exact absurd hwrapped (by decide : -EINVAL ≠ 0)
  · obtain ⟨hle, hmod⟩ := not_or.1 hlen
    obtain ⟨q, rfl⟩ := Nat.dvd_of_mod_eq_zero (not_not.1 hmod)
    have hq : 2 ≤ q := by
      by_contra hlt
      exact hle (wrong_length hlt)
    rw [decrypt_eq_zero_iff hq h]
    constructor
    · intro haccept
      -- what is wrapped is what the bytes are unwrapped to
      obtain ⟨hC, hA⟩ := kwWrap_kwUnwrap hk (fun x hx => length_of_mem_wordsAt hsrc.source hx)
        (length_load ..) haccept
      obtain ⟨-, hplain, -⟩ := cryptoKwDecrypt_spec k mem iv hq hsrc
      refine ⟨(cryptoKwDecrypt k mem src src (SEMIBSIZE * q) iv).1, ?_⟩
      obtain ⟨hzero, hwords, hkept, -⟩ := cryptoKwEncrypt_spec k
        (cryptoKwDecrypt k mem src src (SEMIBSIZE * q) iv).1 hq hsrc hiv
      rw [hplain] at hwords hkept
      refine ⟨hzero, ?_, hkept.trans hA⟩
      rw [← flatten_wordsAt, ← flatten_wordsAt, hwords, hC]
    · rintro ⟨mem', -, hsame, hkept⟩
      obtain ⟨-, hwords, hA, -⟩ := cryptoKwEncrypt_spec k mem' hq hsrc hiv
      have hunwrap := kwUnwrap_kwWrap (W := wordsAt mem' SEMIBSIZE q src.flatten) hk.1
        fun x hx => length_of_mem_wordsAt hsrc.source hx
      have hsource : wordsAt (cryptoKwEncrypt k mem' src src (SEMIBSIZE * q) iv).1 SEMIBSIZE q
          src.flatten = wordsAt mem SEMIBSIZE q src.flatten :=
        wordsAt_congr fun a ha => eq_of_gather hsame ha
      rw [← hwords, ← hA, hsource, hkept] at hunwrap
      rw [hunwrap]

theorem cryptoKwDecrypt_accepts_iff_twoEntries :
    let k : Kw := sm4Kw zeroKey
    let mem : Memory := fun a => UInt8.ofNat a
    (cryptoKwDecrypt k mem twoEntries twoEntries 24 0).2 = 0 ↔
      ∃ mem', (cryptoKwEncrypt k mem' twoEntries twoEntries 24 0).2 = 0 ∧
        gather (cryptoKwEncrypt k mem' twoEntries twoEntries 24 0).1 (twoEntries.flatten.take 24) =
          gather mem (twoEntries.flatten.take 24) ∧
        load (cryptoKwEncrypt k mem' twoEntries twoEntries 24 0).1 0 SEMIBSIZE =
          load mem 0 SEMIBSIZE :=
  cryptoKwDecrypt_accepts_iff (sm4Kw zeroKey) permutes_sm4Kw _ twoEntries twoEntries 24 0
    buffers_twoEntries buffers_twoEntries apartFrom_twoEntries

end KernelCrypto

end Server6
