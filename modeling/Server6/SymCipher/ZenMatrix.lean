import Server6.Foundations.Blocks
import Server6.Foundations.SwapSchedule
import Server6.SymCipher.CryptHelper

/-!
# The matrix cipher

`ZenMatrix` is a static class: a permutation of 0..15 in `MatrixPermKey`, its inverse in
`MatrixReverse`, and the set `PermKeyHash` of the nibbles a key schedule has used. Encryption
moves the bytes of each block of 16 and maps the two nibbles of every byte by the permutation.

This module is the code; `ZenMatrixSchedule` computes what the key schedule installs, and
`ZenMatrixRoundTrip` what decryption makes of an encryption.
-/

namespace Server6

open Equiv

/-- `(sbyte)x`. -/
def toSByte (x : Int) : Int := Int.bmod x 256

/-- The static fields of `ZenMatrix`. -/
structure ZenMatrix where
  privateKey : Utf16
  userHash : Utf16
  matrixPermKey : List Int
  matrixReverse : List Int
  permKeyHash : List Int
  deriving DecidableEq, Repr

namespace ZenMatrix

open Method

/-! ## Key setup, as the code has it -/

/-- `MatrixBasePerm`. -/
def matrixBasePerm : List Int := [0, 1, 2, 3, 4, 5, 6, 7, 8, 9, 10, 11, 12, 13, 14, 15]

/-- `BuildReveseMatrix`. -/
def buildReveseMatrix (matrix : List Int) : Except Exn (List Int) :=
  let rmatrix := List.replicate matrix.length 0
  if 16 ≤ matrix.length then
    (List.range matrix.length).foldlM (fun rmatrix (m : ℕ) => do
      let sm ← readAt Exn.indexOutOfRange matrix m
      writeAt Exn.indexOutOfRange rmatrix sm (toSByte m)) rmatrix
  else .ok rmatrix

/-- `InitMatrixSymChiffer`. -/
def initMatrixSymChiffer : Method Exn ZenMatrix Unit := do
  let p ← (matrixBasePerm.zipIdx.foldlM (fun p s => writeAt Exn.indexOutOfRange p s.2 s.1)
    (List.replicate 16 0) : Except Exn (List Int))
  modify fun z => { z with matrixPermKey := p }
  modify fun z => { z with permKeyHash := matrixBasePerm }
  let r ← buildReveseMatrix p
  modify fun z => { z with matrixReverse := r }

/-- `SwapSBytes`: the new values of its two references. -/
def swapSBytes (a0 b1 : Int) : Int × Int := (b1, a0)

/-- One iteration of the key schedule: `bCnt` counts the nibbles used so far. -/
def permuteByKeyByte (bCnt : Int) (keyByte : UInt8) : Method Exn ZenMatrix Int := do
  let b := toSByte (keyByte.toNat % 16)
  let seen ← gets permKeyHash
  if b ∈ seen then return bCnt
  else do
    modify fun z => { z with permKeyHash := z.permKeyHash ++ [b] }
    let aCnt := b
    if aCnt ≠ bCnt then do
      let p ← gets matrixPermKey
      let sba ← readAt Exn.indexOutOfRange p aCnt
      let sbb ← readAt Exn.indexOutOfRange p bCnt
      let p ← writeAt Exn.indexOutOfRange p aCnt (swapSBytes sba sbb).1
      modify fun z => { z with matrixPermKey := p }
      let p ← writeAt Exn.indexOutOfRange p bCnt (swapSBytes sba sbb).2
      modify fun z => { z with matrixPermKey := p }
      return bCnt + 1
    else return bCnt + 1

/-- The key schedule, written out alike in `ZenMatrixGenWithKey` and `GetMatrixPermutation`. -/
def permuteByKeyBytes (keyBytes : Bytes) : Method Exn ZenMatrix Unit := do
  let _ ← keyBytes.foldlM permuteByKeyByte 0
  let p ← gets matrixPermKey
  let r ← buildReveseMatrix p
  modify fun z => { z with matrixReverse := r }

/-- `ZenMatrixGenWithKey`. -/
def zenMatrixGenWithKey (R : Runtime) (secretKey usrHash : NString) (init : Bool) :
    Method Exn ZenMatrix Bool := do
  let privateKey ← gets privateKey
  if !init && R.differs privateKey secretKey then return false
  else if init then do
    modify fun z =>
      { z with
        privateKey :=
          if isNullOrEmpty secretKey then Constants.AUTHOR_EMAIL else orEmpty secretKey
        userHash := if isNullOrEmpty usrHash then Constants.AREA23_EMAIL else orEmpty usrHash }
    initMatrixSymChiffer
    let privateKey ← gets ZenMatrix.privateKey
    let userHash ← gets userHash
    let keyBytes ← CryptHelper.getUserKeyBytes R (some privateKey) (some userHash) 16
    permuteByKeyBytes keyBytes
    return true
  else return true

/-- `GetMatrixPermutation`, which throws on a null key after it has set the state up. -/
def getMatrixPermutation (key : NString) : Method Exn ZenMatrix (List Int) := do
  initMatrixSymChiffer
  initMatrixSymChiffer
  modify fun z => { z with permKeyHash := [] }
  let key ← nonNull key
  permuteByKeyBytes (Utf16.utf8 key)
  gets matrixPermKey

/-! ## Encryption and decryption, as the code has them -/

/-- `MapByteValue` through `MatrixPermKey` or `MatrixReverse`: the pair of nibbles and the byte. -/
def mapByteValue (z : ZenMatrix) (inByte : UInt8) (encrypt : Bool) :
    Except Exn (List Int × UInt8) := do
  let lsbIn := toSByte (inByte.toNat % 16)
  let msbIn := toSByte (inByte.toNat / 16)
  let matrix := if encrypt then z.matrixPermKey else z.matrixReverse
  let lsbOut ← readAt Exn.indexOutOfRange matrix lsbIn
  let msbOut ← readAt Exn.indexOutOfRange matrix msbIn
  return ([lsbOut, msbOut], UInt8.ofInt (msbOut * 16 + lsbOut))

/-- The body of `ProcessEncryptBytes` and `ProcessDecryptBytes`; `none` is the null they return
when the block does not lie in the buffer. -/
def processBytes (z : ZenMatrix) (encrypt : Bool) (inBytes : Bytes) (offSet len : Int) :
    Except Exn (Option Bytes) :=
  if offSet < inBytes.length ∧ offSet + len ≤ inBytes.length then do
    let processed ← newBytes len
    let processed ← (List.range len.toNat).foldlM (fun processed (aCnt : ℕ) => do
      let b ← readAt Exn.indexOutOfRange inBytes (offSet + aCnt)
      let mapB ← mapByteValue z b encrypt
      let sm ← readAt Exn.indexOutOfRange
        (if encrypt then z.matrixPermKey else z.matrixReverse) aCnt
      writeAt Exn.indexOutOfRange processed sm mapB.2) processed
    return some processed
  else return none

/-- `ProcessEncryptBytes`. -/
def processEncryptBytes (z : ZenMatrix) (inBytesPadding : Bytes) (offSet len : Int) :
    Except Exn (Option Bytes) := processBytes z true inBytesPadding offSet len

/-- `ProcessDecryptBytes`. -/
def processDecryptBytes (z : ZenMatrix) (inBytesEncrypted : Bytes) (offSet len : Int) :
    Except Exn (Option Bytes) := processBytes z false inBytesEncrypted offSet len

/-- The padded copy both directions make of their input: at least one byte is added, up to a
multiple of 16. -/
def padInput (data : Bytes) : Except Exn Bytes := do
  let oSize : Int := data.length + (16 - data.length % 16)
  let outputSize := oSize / 16 * 16
  let inBytes ← newBytes outputSize
  (List.range outputSize.toNat).foldlM (fun inBytes (bCnt : ℕ) =>
    if bCnt < data.length then do
      let b ← readAt Exn.indexOutOfRange data bCnt
      writeAt Exn.indexOutOfRange inBytes bCnt b
    else writeAt Exn.indexOutOfRange inBytes bCnt 0) inBytes

/-- The loop that processes block after block and collects the results; iterating over the null of
a block outside the buffer throws. -/
def processBlocks (process : Int → Except Exn (Option Bytes)) (length : ℕ) : Except Exn Bytes :=
  (List.range ((length + 15) / 16)).foldlM (fun outBytes (k : ℕ) => do
    match ← process (16 * k : ℕ) with
    | some retByte => return outBytes ++ retByte
    | none => .error .nullReference) []

/-- `Encrypt`. -/
def encrypt (z : ZenMatrix) (plainData : Option Bytes) : Except Exn Bytes :=
  match plainData with
  | none | some [] => .error .argumentNull
  | some plainData => do
    let inBytesPadding ← padInput plainData
    processBlocks (fun processCnt => processEncryptBytes z inBytesPadding processCnt 16)
      inBytesPadding.length

/-- `Decrypt`. -/
def decrypt (z : ZenMatrix) (cipherData : Option Bytes) : Except Exn Bytes :=
  match cipherData with
  | none | some [] => .error .argumentNull
  | some cipherData => do
    let inBytesEncrypted ← padInput cipherData
    processBlocks (fun processCnt => processDecryptBytes z inBytesEncrypted processCnt 16)
      inBytesEncrypted.length

end ZenMatrix

end Server6
