import Mathlib.Algebra.Order.Group.Nat

/-!
# Words of four and of eight bytes

What the ciphers read from a block and write to it: words in either order of their bytes.
-/

namespace Server6

namespace KernelCrypto

/-- The word of four bytes, from the lowest one to the highest one. -/
def word (c0 c1 c2 c3 : UInt8) : UInt32 :=
  UInt32.ofNat (c0.toNat + 256 * c1.toNat + 65536 * c2.toNat + 16777216 * c3.toNat)

/-- The byte of a word at a power of 256. -/
def byte (w : UInt32) (k : ℕ) : UInt8 := UInt8.ofNat (w.toNat / k)

theorem word_byte (w : UInt32) :
    word (byte w 1) (byte w 256) (byte w 65536) (byte w 16777216) = w := by
  have hw := w.toNat_lt
  apply UInt32.toNat_inj.1
  simp only [word, byte, UInt32.toNat_ofNat', UInt8.toNat_ofNat']
  omega

theorem byte_word (c0 c1 c2 c3 : UInt8) :
    byte (word c0 c1 c2 c3) 1 = c0 ∧ byte (word c0 c1 c2 c3) 256 = c1 ∧
      byte (word c0 c1 c2 c3) 65536 = c2 ∧ byte (word c0 c1 c2 c3) 16777216 = c3 := by
  have h0 := c0.toNat_lt
  have h1 := c1.toNat_lt
  have h2 := c2.toNat_lt
  have h3 := c3.toNat_lt
  have hbyte : ∀ (b : UInt8) (k : ℕ),
      (c0.toNat + 256 * c1.toNat + 65536 * c2.toNat + 16777216 * c3.toNat) % 2 ^ 32 / k % 2 ^ 8 =
        b.toNat → byte (word c0 c1 c2 c3) k = b := by
    intro b k h
    apply UInt8.toNat_inj.1
    rwa [byte, word, UInt8.toNat_ofNat', UInt32.toNat_ofNat']
  refine ⟨hbyte _ _ ?_, hbyte _ _ ?_, hbyte _ _ ?_, hbyte _ _ ?_⟩ <;> omega

/-- `le32_to_cpu` of word `i`. -/
def le32ToCpu (bs : List UInt8) (i : ℕ) : UInt32 :=
  word (bs.getD (4 * i) 0) (bs.getD (4 * i + 1) 0) (bs.getD (4 * i + 2) 0) (bs.getD (4 * i + 3) 0)

/-- `cpu_to_le32`. -/
def cpuToLe32 (w : UInt32) : List UInt8 := [byte w 1, byte w 256, byte w 65536, byte w 16777216]

/-- `get_unaligned_be32` of word `i`. -/
def getUnalignedBe32 (bs : List UInt8) (i : ℕ) : UInt32 :=
  word (bs.getD (4 * i + 3) 0) (bs.getD (4 * i + 2) 0) (bs.getD (4 * i + 1) 0) (bs.getD (4 * i) 0)

/-- `put_unaligned_be32`. -/
def putUnalignedBe32 (w : UInt32) : List UInt8 :=
  [byte w 16777216, byte w 65536, byte w 256, byte w 1]

/-- `be64_to_cpu` of word `i`. -/
def be64ToCpu (bs : List UInt8) (i : ℕ) : UInt64 :=
  UInt64.ofNat (((bs.drop (8 * i)).take 8).foldl (fun n b => 256 * n + b.toNat) 0)

/-- `cpu_to_be64`. -/
def cpuToBe64 (t : UInt64) : List UInt8 :=
  (List.range 8).map fun i => UInt8.ofNat (t.toNat / 256 ^ (7 - i))

section

variable {bs : List UInt8}

/-- The first word of some bytes, and those behind it. -/
theorem exists_of_four_le (bs : List UInt8) (h : 4 ≤ bs.length) :
    ∃ c0 c1 c2 c3 cs, bs = c0 :: c1 :: c2 :: c3 :: cs := by
  match bs, h with
  | c0 :: c1 :: c2 :: c3 :: cs, _ => exact ⟨c0, c1, c2, c3, cs, rfl⟩

/-- Words that are read by `get` and written by `put` give the bytes again. -/
theorem flatMap_put_get {get : List UInt8 → ℕ → UInt32} {put : UInt32 → List UInt8}
    (hhead : ∀ c0 c1 c2 c3 cs, put (get (c0 :: c1 :: c2 :: c3 :: cs) 0) = [c0, c1, c2, c3])
    (htail : ∀ c0 c1 c2 c3 cs i, get (c0 :: c1 :: c2 :: c3 :: cs) (i + 1) = get cs i) {n : ℕ}
    (h : bs.length = 4 * n) : (List.range n).flatMap (fun i => put (get bs i)) = bs := by
  induction n generalizing bs with
  | zero => exact (List.length_eq_zero_iff.1 h).symm
  | succ n ih =>
    obtain ⟨c0, c1, c2, c3, cs, rfl⟩ := exists_of_four_le bs (by omega)
    have hrest : cs.length = 4 * n := by
      simp only [List.length_cons] at h
      omega
    rw [List.range_succ_eq_map, List.flatMap_cons, List.flatMap_map, hhead]
    simp only [Nat.succ_eq_add_one, htail, ih hrest, List.cons_append, List.nil_append]

theorem flatMap_cpuToLe32 {n : ℕ} (h : bs.length = 4 * n) :
    (List.range n).flatMap (fun i => cpuToLe32 (le32ToCpu bs i)) = bs := by
  refine flatMap_put_get (fun c0 c1 c2 c3 cs => ?_) (fun c0 c1 c2 c3 cs i => rfl) h
  obtain ⟨h0, h1, h2, h3⟩ := byte_word c0 c1 c2 c3
  simp [le32ToCpu, cpuToLe32, h0, h1, h2, h3]

theorem flatMap_putUnalignedBe32 {n : ℕ} (h : bs.length = 4 * n) :
    (List.range n).flatMap (fun i => putUnalignedBe32 (getUnalignedBe32 bs i)) = bs := by
  refine flatMap_put_get (fun c0 c1 c2 c3 cs => ?_) (fun c0 c1 c2 c3 cs i => rfl) h
  obtain ⟨h3, h2, h1, h0⟩ := byte_word c3 c2 c1 c0
  simp [getUnalignedBe32, putUnalignedBe32, h0, h1, h2, h3]

end

end KernelCrypto

end Server6
