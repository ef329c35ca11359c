import Server6.KernelCrypto.Sm4
import Server6.KernelCrypto.Tea

/-!
# Keyed hashes from a block cipher

The templates `cmac` and `xcbc`. They make their constants in different ways and share the rest: a
message comes in pieces, of which whole blocks are encrypted at once, except for the last one, which is
kept with what is no whole block.

`cmac_xcbc_pieces`: however a message is cut, the hash is `mac` of the message, which does not know of
pieces.
-/

namespace Server6

namespace KernelCrypto

/-- A cipher algorithm: `crypto_cipher_setkey` on a handle of it, with its error. -/
structure CipherAlg where
  blocksize : ℕ
  setkey : List UInt8 → Except Int Cipher
  blocksize_setkey : ∀ key c, setkey key = .ok c → c.blocksize = blocksize

/-- `struct cmac_tfm_ctx` and `struct xcbc_tfm_ctx`. -/
structure MacTfmCtx where
  child : Cipher
  consts : List UInt8
  length_consts : consts.length = 2 * child.blocksize

/-- `struct cmac_desc_ctx` and `struct xcbc_desc_ctx`, with the two buffers behind them. -/
structure MacDescCtx where
  len : ℕ
  odds : List UInt8
  prev : List UInt8

/-! ## Keys -/

/-- `gfmask` if the highest bit is set. -/
def msbMask (w gfmask : UInt64) : UInt64 := if w >>> 63 = 1 then gfmask else 0

/-- The body of the loop of `crypto_cmac_digest_setkey` for 16 bytes, on `_const[1]` and `_const[0]`. -/
def doubleTwo (w : UInt64 × UInt64) : UInt64 × UInt64 :=
  ((w.1 <<< 1) ||| (w.2 >>> 63), (w.2 <<< 1) ^^^ msbMask w.1 0x87)

/-- The body of the loop for 8 bytes. -/
def doubleOne (w : UInt64) : UInt64 := (w <<< 1) ^^^ msbMask w 0x1B

/-- What `crypto_cmac_digest_setkey` leaves in `consts`, by the encryption of the zero block. -/
def cmacConsts (zero : List UInt8) : List UInt8 :=
  if zero.length = 16 then
    let w := doubleTwo (be64ToCpu zero 0, be64ToCpu zero 1)
    cpuToBe64 w.1 ++ cpuToBe64 w.2 ++ cpuToBe64 (doubleTwo w).1 ++ cpuToBe64 (doubleTwo w).2
  else
    let w := doubleOne (be64ToCpu zero 0)
    cpuToBe64 w ++ cpuToBe64 (doubleOne w)

/-- An instance that `cmac_create` registers. -/
structure CmacAlg extends CipherAlg where
  blocksize_eq : blocksize = 16 ∨ blocksize = 8

/-- An instance that `xcbc_create` registers. -/
structure XcbcAlg extends CipherAlg where
  blocksize_eq : blocksize = 16

theorem length_cmacConsts {zero : List UInt8} (h : zero.length = 16 ∨ zero.length = 8) :
    (cmacConsts zero).length = 2 * zero.length := by
  rcases h with h | h <;> simp [cmacConsts, cpuToBe64, h]

/-- `crypto_cmac_digest_setkey`. -/
def cryptoCmacDigestSetkey (alg : CmacAlg) (inkey : List UInt8) : Except Int MacTfmCtx :=
  match h : alg.setkey inkey with
  | .error err => .error err
  | .ok child => .ok
    { child := child
      consts := cmacConsts (child.encrypt (List.replicate child.blocksize 0))
      length_consts := by
        have hlen := child.length_encrypt (List.replicate child.blocksize 0) List.length_replicate
        have hsize := alg.blocksize_setkey inkey child h
        rw [length_cmacConsts (by rw [hlen, hsize]; exact alg.blocksize_eq), hlen] }

/-- The bytes of the table `ks`, from block `i` on. -/
def ks (i : ℕ) : List UInt8 := List.replicate 16 (UInt8.ofNat (i + 1))

/-- `crypto_xcbc_digest_setkey`. -/
def cryptoXcbcDigestSetkey (alg : XcbcAlg) (inkey : List UInt8) : Except Int MacTfmCtx :=
  match h : alg.setkey inkey with
  | .error err => .error err
  | .ok child =>
    match h' : alg.setkey (child.encrypt (ks 0)) with
    | .error err => .error err
    | .ok child' => .ok
      { child := child'
        consts := child.encrypt (ks 1) ++ child.encrypt (ks 2)
        length_consts := by
          have hsize : child.blocksize = 16 := (alg.blocksize_setkey _ _ h).trans alg.blocksize_eq
          have hsize' : child'.blocksize = 16 := (alg.blocksize_setkey _ _ h').trans alg.blocksize_eq
          have hks : ∀ i, (child.encrypt (ks i)).length = 16 := fun i => by
            rw [child.length_encrypt (ks i) (by rw [hsize]; exact List.length_replicate), hsize]
          rw [List.length_append, hks, hks, hsize'] }

/-! ## Pieces -/

/-- `memcpy` to a place in a buffer. -/
def putAt (buf : List UInt8) (i : ℕ) (bs : List UInt8) : List UInt8 :=
  buf.take i ++ bs ++ buf.drop (i + bs.length)

section

variable (ctx : MacTfmCtx)

/-- A block is combined with `prev` and encrypted. -/
def macBlock (prev block : List UInt8) : List UInt8 := ctx.child.encrypt (xorBytes prev block)

/-- `crypto_cmac_digest_init` and `crypto_xcbc_digest_init`. -/
def digestInit (desc : MacDescCtx) : MacDescCtx :=
  { desc with len := 0, prev := List.replicate ctx.child.blocksize 0 }

/-- The loop of `crypto_cmac_digest_update`, with what is left of the piece. -/
def updateLoop (prev p : List UInt8) : List UInt8 × List UInt8 :=
  if _h : ctx.child.blocksize < p.length then
    updateLoop (macBlock ctx prev (p.take ctx.child.blocksize)) (p.drop ctx.child.blocksize)
  else (prev, p)
termination_by p.length
decreasing_by
  have hpos := ctx.child.blocksize_pos
  rw [List.length_drop]
  omega

/-- `crypto_cmac_digest_update` and `crypto_xcbc_digest_update`; the sum of the lengths is an
`unsigned int`. -/
def digestUpdate (desc : MacDescCtx) (p : List UInt8) : MacDescCtx :=
  if (desc.len + p.length) % 2 ^ 32 ≤ ctx.child.blocksize then
    { desc with odds := putAt desc.odds desc.len p, len := desc.len + p.length }
  else
    let filling := p.take (ctx.child.blocksize - desc.len)
    let odds := putAt desc.odds desc.len filling
    let r := updateLoop ctx (macBlock ctx desc.prev odds) (p.drop (ctx.child.blocksize - desc.len))
    if r.2.length ≠ 0 then ⟨r.2.length, putAt odds 0 r.2, r.1⟩ else ⟨0, odds, r.1⟩

/-- `crypto_cmac_digest_final` and `crypto_xcbc_digest_final`. -/
def digestFinal (desc : MacDescCtx) : List UInt8 :=
  let bs := ctx.child.blocksize
  if desc.len ≠ bs then
    let odds := putAt desc.odds desc.len (0x80 :: List.replicate (bs - desc.len - 1) 0)
    ctx.child.encrypt (xorBytes (xorBytes desc.prev odds) ((ctx.consts.drop bs).take bs))
  else ctx.child.encrypt (xorBytes (xorBytes desc.prev desc.odds) (ctx.consts.take bs))

/-- A message in pieces. -/
def digest (desc : MacDescCtx) (ps : List (List UInt8)) : List UInt8 :=
  digestFinal ctx (ps.foldl (digestUpdate ctx) (digestInit ctx desc))

/-! ## The message as a whole -/

/-- The last block, filled up if it is not a whole one. -/
def lastBlock (prev m : List UInt8) : List UInt8 :=
  let bs := ctx.child.blocksize
  if m.length = bs then ctx.child.encrypt (xorBytes (xorBytes prev m) (ctx.consts.take bs))
  else
    let padded := m ++ 0x80 :: List.replicate (bs - m.length - 1) 0
    ctx.child.encrypt (xorBytes (xorBytes prev padded) (ctx.consts.drop bs))

/-- The hash of a message behind `prev`. -/
def macFrom (prev m : List UInt8) : List UInt8 :=
  if _h : ctx.child.blocksize < m.length then
    macFrom (macBlock ctx prev (m.take ctx.child.blocksize)) (m.drop ctx.child.blocksize)
  else lastBlock ctx prev m
termination_by m.length
decreasing_by
  have hpos := ctx.child.blocksize_pos
  rw [List.length_drop]
  omega

/-- The hash of a message. -/
def mac (m : List UInt8) : List UInt8 := macFrom ctx (List.replicate ctx.child.blocksize 0) m

end

/-! ## However it is cut -/

section

variable {ctx : MacTfmCtx} {desc : MacDescCtx} {p m r prev block : List UInt8}

/-- The buffers have a block each, of which `len` bytes of `odds` are kept. -/
structure MacDescCtx.Valid (bs : ℕ) (desc : MacDescCtx) : Prop where
  len_le : desc.len ≤ bs
  length_odds : desc.odds.length = bs

/-- The bytes kept. -/
def MacDescCtx.kept (desc : MacDescCtx) : List UInt8 := desc.odds.take desc.len

/-- A whole block with something behind it. -/
theorem macFrom_block (hb : block.length = ctx.child.blocksize) (hr : r ≠ []) :
    macFrom ctx prev (block ++ r) = macFrom ctx (macBlock ctx prev block) r := by
  have hlong : ctx.child.blocksize < (block ++ r).length := by
    rw [List.length_append, hb]
    exact Nat.lt_add_of_pos_right (List.length_pos_iff.2 hr)
  rw [macFrom, dif_pos hlong, List.take_left' hb, List.drop_left' hb]

theorem macFrom_updateLoop (ctx : MacTfmCtx) (prev r : List UInt8) (hp : p ≠ []) :
    (updateLoop ctx prev p).2 ≠ [] ∧ (updateLoop ctx prev p).2.length ≤ ctx.child.blocksize ∧
      macFrom ctx prev (p ++ r) =
        macFrom ctx (updateLoop ctx prev p).1 ((updateLoop ctx prev p).2 ++ r) := by
  fun_induction updateLoop ctx prev p with
  | case1 prev p hlong ih =>
    have hrest : p.drop ctx.child.blocksize ≠ [] := by
      intro hnil
      exact Nat.not_le.2 hlong (List.drop_eq_nil_iff.1 hnil)
    obtain ⟨hne, hle, hmac⟩ := ih hrest
    refine ⟨hne, hle, ?_⟩
    have hblock : (p.take ctx.child.blocksize).length = ctx.child.blocksize := by
      rw [List.length_take, Nat.min_eq_left (Nat.le_of_lt hlong)]
    have hmore : p.drop ctx.child.blocksize ++ r ≠ [] := List.append_ne_nil_of_left_ne_nil hrest r
    rw [← hmac, ← macFrom_block hblock hmore, ← List.append_assoc, List.take_append_drop]
  | case2 prev p hshort => exact ⟨hp, Nat.not_lt.1 hshort, rfl⟩

theorem length_putAt {buf bs : List UInt8} {i : ℕ} (h : i + bs.length ≤ buf.length) :
    (putAt buf i bs).length = buf.length := by
  simp only [putAt, List.length_append, List.length_take, List.length_drop]
  omega

theorem take_putAt {buf bs : List UInt8} {i n : ℕ} (h : i ≤ buf.length)
    (hn : n = i + bs.length) :
    (putAt buf i bs).take n = buf.take i ++ bs := by
  have hlen : (buf.take i ++ bs).length = n := by
    rw [List.length_append, List.length_take, Nat.min_eq_left h, hn]
  rw [putAt, List.take_left' hlen]

theorem length_kept (h : desc.Valid ctx.child.blocksize) : desc.kept.length = desc.len := by
  rw [MacDescCtx.kept, List.length_take, h.length_odds, Nat.min_eq_left h.len_le]

/-- What is kept from the beginning of the buffer on. -/
theorem kept_putAt (buf q prev : List UInt8) :
    MacDescCtx.kept ⟨q.length, putAt buf 0 q, prev⟩ = q := by
  rw [MacDescCtx.kept, take_putAt (Nat.zero_le _) (Nat.zero_add _).symm, List.take_zero,
    List.nil_append]

/-- A piece that fills up a block, with the rest `q` of it. -/
theorem digestUpdate_fills {filling q : List UInt8} (h : desc.Valid ctx.child.blocksize)
    (hq : q ≠ []) (hp : (filling ++ q).length + ctx.child.blocksize < 2 ^ 32)
    (hfilling : desc.len + filling.length = ctx.child.blocksize) :
    digestUpdate ctx desc (filling ++ q) =
      ⟨(updateLoop ctx (macBlock ctx desc.prev (desc.kept ++ filling)) q).2.length,
        putAt (desc.kept ++ filling) 0
          (updateLoop ctx (macBlock ctx desc.prev (desc.kept ++ filling)) q).2,
        (updateLoop ctx (macBlock ctx desc.prev (desc.kept ++ filling)) q).1⟩ := by
  have hlen := h.len_le
  have hodds := h.length_odds
  have hpos := List.length_pos_iff.2 hq
  rw [List.length_append] at hp
  have hlong : ¬(desc.len + (filling ++ q).length) % 2 ^ 32 ≤ ctx.child.blocksize := by
    rw [List.length_append, Nat.mod_eq_of_lt (by omega)]
    omega
  have hsize : filling.length = ctx.child.blocksize - desc.len := by omega
  have hblock : putAt desc.odds desc.len filling = desc.kept ++ filling := by
    have htake : (putAt desc.odds desc.len filling).take ctx.child.blocksize =
        desc.odds.take desc.len ++ filling := take_putAt (by omega) hfilling.symm
    rwa [List.take_of_length_le (by rw [length_putAt (by omega), hodds])] at htake
  have hne : (updateLoop ctx (macBlock ctx desc.prev (desc.kept ++ filling)) q).2.length ≠ 0 :=
    fun hzero => (macFrom_updateLoop ctx _ [] hq).1 (List.length_eq_zero_iff.1 hzero)
  rw [digestUpdate, if_neg hlong, List.take_left' hsize, List.drop_left' hsize]
  dsimp only
  rw [hblock, if_pos hne]

/-- **One piece**: with whatever comes behind it, it is as good as what the update keeps of it. -/
theorem digestUpdate_spec (h : desc.Valid ctx.child.blocksize)
    (hp : p.length + ctx.child.blocksize < 2 ^ 32) :
    (digestUpdate ctx desc p).Valid ctx.child.blocksize ∧
      ∀ r, macFrom ctx desc.prev (desc.kept ++ (p ++ r)) =
        macFrom ctx (digestUpdate ctx desc p).prev ((digestUpdate ctx desc p).kept ++ r) := by
  have hlen := h.len_le
  have hodds := h.length_odds
  by_cases hfits : desc.len + p.length ≤ ctx.child.blocksize
  · have hmod : (desc.len + p.length) % 2 ^ 32 = desc.len + p.length := Nat.mod_eq_of_lt (by omega)
    rw [digestUpdate, hmod, if_pos hfits]
    refine ⟨⟨hfits, ?_⟩, fun r => ?_⟩
    · rw [length_putAt (by omega), hodds]
    · simp only [MacDescCtx.kept]
      rw [take_putAt (by omega) rfl, List.append_assoc]
  · obtain ⟨filling, q, rfl, hfilling⟩ : ∃ filling q, p = filling ++ q ∧
        desc.len + filling.length = ctx.child.blocksize := by
      refine ⟨p.take (ctx.child.blocksize - desc.len), p.drop (ctx.child.blocksize - desc.len),
        (List.take_append_drop _ p).symm, ?_⟩
      rw [List.length_take]
      omega
    have hq : q ≠ [] := by
      rintro rfl
      rw [List.append_nil] at hfits
      omega
    have hfull : (desc.kept ++ filling).length = ctx.child.blocksize := by
      rw [List.length_append, length_kept h, hfilling]
    rw [digestUpdate_fills h hq hp hfilling]
    refine ⟨⟨(macFrom_updateLoop ctx _ [] hq).2.1, ?_⟩, fun r => ?_⟩
    · rw [length_putAt, hfull]
      rw [Nat.zero_add, hfull]
      exact (macFrom_updateLoop ctx _ [] hq).2.1
    · have hmac := (macFrom_updateLoop ctx (macBlock ctx desc.prev (desc.kept ++ filling)) r hq).2.2
      rw [kept_putAt, ← hmac, ← macFrom_block hfull (List.append_ne_nil_of_left_ne_nil hq r),
        List.append_assoc, List.append_assoc]

/-- All pieces. -/
theorem macFrom_foldl {ps : List (List UInt8)} (h : desc.Valid ctx.child.blocksize)
    (hps : ∀ p ∈ ps, p.length + ctx.child.blocksize < 2 ^ 32) :
    (ps.foldl (digestUpdate ctx) desc).Valid ctx.child.blocksize ∧
      macFrom ctx desc.prev (desc.kept ++ ps.flatten) =
        macFrom ctx (ps.foldl (digestUpdate ctx) desc).prev
          (ps.foldl (digestUpdate ctx) desc).kept := by
  induction ps generalizing desc with
  | nil => exact ⟨h, by rw [List.flatten_nil, List.append_nil, List.foldl_nil]⟩
  | cons p ps ih =>
    obtain ⟨hvalid, hmac⟩ := digestUpdate_spec h (hps p List.mem_cons_self)
    obtain ⟨hend, hrest⟩ := ih hvalid fun q hq => hps q (List.mem_cons_of_mem _ hq)
    rw [List.flatten_cons, hmac, List.foldl_cons]
    exact ⟨hend, hrest⟩

/-- The end of a message. -/
theorem digestFinal_eq (h : desc.Valid ctx.child.blocksize) :
    digestFinal ctx desc = macFrom ctx desc.prev desc.kept := by
  have hlen := h.len_le
  have hodds := h.length_odds
  have hkept := length_kept h
  have hconsts : (ctx.consts.drop ctx.child.blocksize).take ctx.child.blocksize =
      ctx.consts.drop ctx.child.blocksize := by
    refine List.take_of_length_le ?_
    rw [List.length_drop, ctx.length_consts]
    omega
  rw [macFrom, dif_neg (by rw [hkept]; exact Nat.not_lt.2 hlen), digestFinal, lastBlock, hkept]
  by_cases hfull : desc.len = ctx.child.blocksize
  · have hall : desc.kept = desc.odds := List.take_of_length_le (by omega)
    rw [if_neg (not_not.2 hfull), if_pos hfull, hall]
  · have hpad : putAt desc.odds desc.len
        (0x80 :: List.replicate (ctx.child.blocksize - desc.len - 1) 0) =
          desc.kept ++ 0x80 :: List.replicate (ctx.child.blocksize - desc.len - 1) 0 := by
      have hsize : desc.len + (0x80 :: List.replicate (ctx.child.blocksize - desc.len - 1)
          (0 : UInt8)).length = desc.odds.length := by
        rw [List.length_cons, List.length_replicate]
        omega
      rw [putAt, hsize, List.drop_length, List.append_nil, MacDescCtx.kept]
    rw [if_pos hfull, if_neg hfull]
    simp only [hpad, hconsts]

end

theorem digest_eq (ctx : MacTfmCtx) (desc : MacDescCtx) (ps : List (List UInt8))
    (hodds : desc.odds.length = ctx.child.blocksize)
    (hps : ∀ p ∈ ps, p.length + ctx.child.blocksize < 2 ^ 32) :
    digest ctx desc ps = mac ctx ps.flatten := by
  have hstart : (digestInit ctx desc).Valid ctx.child.blocksize := ⟨Nat.zero_le _, hodds⟩
  obtain ⟨hend, hmac⟩ := macFrom_foldl hstart hps
  rw [digest, digestFinal_eq hend, ← hmac]
  rfl

/-! ## The templates -/

/-- A `cmac` of a message in pieces, from the key on. -/
def cryptoCmacDigest (alg : CmacAlg) (inkey : List UInt8) (desc : MacDescCtx)
    (ps : List (List UInt8)) : Except Int (List UInt8) :=
  (cryptoCmacDigestSetkey alg inkey).map fun ctx => digest ctx desc ps

/-- An `xcbc` of a message in pieces, from the key on. -/
def cryptoXcbcDigest (alg : XcbcAlg) (inkey : List UInt8) (desc : MacDescCtx)
    (ps : List (List UInt8)) : Except Int (List UInt8) :=
  (cryptoXcbcDigestSetkey alg inkey).map fun ctx => digest ctx desc ps

theorem blocksize_cmac {alg : CmacAlg} {inkey : List UInt8} {ctx : MacTfmCtx}
    (h : cryptoCmacDigestSetkey alg inkey = .ok ctx) : ctx.child.blocksize = alg.blocksize := by
  unfold cryptoCmacDigestSetkey at h
  split at h
  · cases h
  · next child hchild =>
    cases h
    exact alg.blocksize_setkey inkey child hchild

theorem blocksize_xcbc {alg : XcbcAlg} {inkey : List UInt8} {ctx : MacTfmCtx}
    (h : cryptoXcbcDigestSetkey alg inkey = .ok ctx) : ctx.child.blocksize = alg.blocksize := by
  unfold cryptoXcbcDigestSetkey at h
  split at h
  · cases h
  · split at h
    · cases h
    · next child' hchild' =>
      cases h
      exact alg.blocksize_setkey _ child' hchild'

/-- What a key gives does not change if the hash is another expression for the same. -/
theorem map_congr_of_ok {r : Except Int MacTfmCtx} {f g : MacTfmCtx → List UInt8}
    (h : ∀ ctx, r = .ok ctx → f ctx = g ctx) : r.map f = r.map g := by
  cases r with
  | error err => rfl
  | ok ctx => exact congrArg Except.ok (h ctx rfl)

/-- **However a message is cut**, and whatever the buffer holds before, both templates give the hash of
the message as a whole, as long as the length of a piece is an `unsigned int` with a block to spare. -/
theorem cmac_xcbc_pieces (alg : CmacAlg) (alg' : XcbcAlg) (inkey : List UInt8)
    (desc desc' : MacDescCtx) (ps : List (List UInt8)) (hodds : desc.odds.length = alg.blocksize)
    (hodds' : desc'.odds.length = alg'.blocksize) (hps : ∀ p ∈ ps, p.length + 16 < 2 ^ 32) :
    cryptoCmacDigest alg inkey desc ps =
        (cryptoCmacDigestSetkey alg inkey).map (fun ctx => mac ctx ps.flatten) ∧
      cryptoXcbcDigest alg' inkey desc' ps =
        (cryptoXcbcDigestSetkey alg' inkey).map (fun ctx => mac ctx ps.flatten) := by
  constructor
  · refine map_congr_of_ok fun ctx hctx => digest_eq ctx desc ps ?_ fun p hp => ?_
    · rw [hodds, blocksize_cmac hctx]
    · have hshort := hps p hp
      have hsize := alg.blocksize_eq
      rw [blocksize_cmac hctx]
      omega
  · refine map_congr_of_ok fun ctx hctx => digest_eq ctx desc' ps ?_ fun p hp => ?_
    · rw [hodds', blocksize_xcbc hctx]
    · rw [blocksize_xcbc hctx, alg'.blocksize_eq]
      exact hps p hp

/-- `sm4_alg`. -/
def sm4Alg : CipherAlg where
  blocksize := SM4_BLOCK_SIZE
  setkey inKey :=
    let r := sm4Expandkey ⟨fun _ => 0, fun _ => 0⟩ inKey
    if r.2 = 0 then .ok r.1.cipher else .error r.2
  blocksize_setkey key c h := by
    dsimp only at h
    split_ifs at h
    cases h
    rfl

theorem cmac_xcbc_pieces_sm4 :
    let cmac : CmacAlg := ⟨sm4Alg, .inl rfl⟩
    let xcbc : XcbcAlg := ⟨sm4Alg, rfl⟩
    let desc : MacDescCtx := ⟨5, List.replicate 16 7, []⟩
    let inkey : List UInt8 := List.replicate 16 1
    let ps : List (List UInt8) := [[1, 2, 3], [], List.replicate 40 4]
    cryptoCmacDigest cmac inkey desc ps =
        (cryptoCmacDigestSetkey cmac inkey).map (fun ctx => mac ctx ps.flatten) ∧
      cryptoXcbcDigest xcbc inkey desc ps =
        (cryptoXcbcDigestSetkey xcbc inkey).map (fun ctx => mac ctx ps.flatten) := by
  refine cmac_xcbc_pieces ⟨sm4Alg, .inl rfl⟩ ⟨sm4Alg, rfl⟩ _ _ _ _ rfl rfl fun p hp => ?_
  have hcases : p = [1, 2, 3] ∨ p = [] ∨ p = List.replicate 40 4 := by simpa using hp
  rcases hcases with rfl | rfl | rfl
  · exact (by decide : 3 + 16 < 2 ^ 32)
  · exact (by decide : 0 + 16 < 2 ^ 32)
  · exact (by decide : 40 + 16 < 2 ^ 32)

end KernelCrypto

end Server6
