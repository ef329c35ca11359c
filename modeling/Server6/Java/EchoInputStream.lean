import Server6.Java.Echo

/-!
# The request reader that the Java echo server does not use

`EchoInputStream.getRequest` reads a request as `EchoServer.receiveIn` does, which has taken its place in
`run`. `getRequest_eq` says where the two differ: on an empty request, and where the stream breaks.
-/

namespace Server6

/-- The exception of `read()`. -/
inductive IOException
  | ioException
  deriving DecidableEq, Repr

namespace EchoInputStream

def MAXCHARS : ℕ := 8192

/-- The loop of `readLine` with `result` read so far; `none` while it waits in `read()`. -/
def read (result : Utf16) : List (ReadResult UInt8) → Option (Except IOException Utf16)
  | [] => none
  | .eof :: _ => some (.ok result)
  | .ioException :: _ => some (.error .ioException)
  | .ch b :: rest =>
    if b = 10 ∨ b = 13 then some (.ok result)
    else
      let result := result ++ [toChar b]
      if result.length < MAXCHARS then read result rest else some (.ok result)

/-- `readLine`. -/
def readLine (inStream : List (ReadResult UInt8)) : Option (Except IOException Utf16) :=
  read [] inStream

/-- `getRequest`. -/
def getRequest (inStream : List (ReadResult UInt8)) : Option (Except IOException Utf16) :=
  (readLine inStream).map fun line =>
    line.map fun line => if line.length < 1 then .ofString "(NULL)" else line

/-! ## The first line of a stream -/

/-- The byte of a request, if it is one. -/
def textByte : ReadResult UInt8 → Option UInt8
  | .ch b => if EchoServer.isText b then some b else none
  | _ => none

/-- The line in the first `n` reads. -/
def lineIn (n : ℕ) (inStream : List (ReadResult UInt8)) : Utf16 :=
  (((inStream.take n).takeWhile fun r => (textByte r).isSome).filterMap textByte).map toChar

/-- It does not end there. -/
def waits (n : ℕ) (inStream : List (ReadResult UInt8)) : Bool :=
  inStream.length < n && inStream.all fun r => (textByte r).isSome

/-- It ends in an exception. -/
def breaks (n : ℕ) (inStream : List (ReadResult UInt8)) : Bool :=
  match ((inStream.take n).dropWhile fun r => (textByte r).isSome).head? with
  | some .ioException => true
  | _ => false

variable {n : ℕ} {b : UInt8} {rest : List (ReadResult UInt8)}

theorem textByte_ch (hb : EchoServer.isText b = true) : textByte (.ch b) = some b := by
  rw [textByte, if_pos hb]

theorem lineIn_ch (hb : EchoServer.isText b = true) :
    lineIn (n + 1) (.ch b :: rest) = toChar b :: lineIn n rest := by
  simp [lineIn, textByte_ch hb]

theorem waits_ch (hb : EchoServer.isText b = true) :
    waits (n + 1) (.ch b :: rest) = waits n rest := by
  simp [waits, textByte_ch hb]

theorem breaks_ch (hb : EchoServer.isText b = true) :
    breaks (n + 1) (.ch b :: rest) = breaks n rest := by
  simp [breaks, textByte_ch hb]

/-- Both loops, with room for `n` more characters. -/
theorem loops_eq (result : Utf16) (inStream : List (ReadResult UInt8))
    (hroom : result.length + n = MAXCHARS)
    (hn : n ≠ 0) :
    EchoServer.receive result inStream =
        (if waits n inStream then none else some (result ++ lineIn n inStream)) ∧
      read result inStream =
        (if waits n inStream then none
        else if breaks n inStream then some (.error .ioException)
        else some (.ok (result ++ lineIn n inStream))) := by
  obtain ⟨n, rfl⟩ := Nat.exists_eq_succ_of_ne_zero hn
  induction inStream generalizing result n with
  | nil => simp [EchoServer.receive, read, waits]
  | cons r rest ih =>
    cases r with
    | eof => simp [EchoServer.receive, read, waits, breaks, lineIn, textByte]
    | ioException => simp [EchoServer.receive, read, waits, breaks, lineIn, textByte]
    | ch b =>
      rw [EchoServer.receive, read]
      by_cases hb : b = 10 ∨ b = 13
      · have htext : textByte (.ch b) = none := by rcases hb with rfl | rfl <;> rfl
        simp [hb, waits, breaks, lineIn, htext]
      · have htext : EchoServer.isText b = true := by simpa [EchoServer.isText] using hb
        rw [if_neg hb, if_neg hb, lineIn_ch htext, waits_ch htext, breaks_ch htext]
        have hlen : (result ++ [toChar b]).length + n = MAXCHARS := by
          simp only [List.length_append, List.length_singleton]
          omega
        cases n with
        | zero =>
          -- the buffer is full
          have hfull : ¬ (result ++ [toChar b]).length < MAXCHARS := by omega
          have hfull' : ¬ (result ++ [toChar b]).length < EchoServer.MAXCHARS := hfull
          simp only [if_neg hfull, if_neg hfull']
          simp [waits, breaks, lineIn]
        | succ n =>
          have hmore : (result ++ [toChar b]).length < MAXCHARS := by omega
          have hmore' : (result ++ [toChar b]).length < EchoServer.MAXCHARS := hmore
          simp only [if_pos hmore, if_pos hmore']
          obtain ⟨hreceive, hread⟩ := ih (result ++ [toChar b]) n hlen (Nat.succ_ne_zero n)
          rw [hreceive, hread]
          simp

/-- **What the two readers give**, on every sequence of reads: they wait in the same cases, `receiveIn`
returns the line in the other ones, and `getRequest` the same but for an empty line; it throws where
`receiveIn` returns what it has read before an exception. -/
theorem getRequest_eq (inStream : List (ReadResult UInt8)) :
    EchoServer.receiveIn inStream =
        (if waits MAXCHARS inStream then none else some (lineIn MAXCHARS inStream)) ∧
      getRequest inStream = (EchoServer.receiveIn inStream).map fun inBuffer =>
        if breaks MAXCHARS inStream then .error .ioException
        else .ok (if inBuffer = [] then .ofString "(NULL)" else inBuffer) := by
  obtain ⟨hreceive, hread⟩ :=
    loops_eq [] inStream (Nat.zero_add MAXCHARS) (by decide)
  rw [List.nil_append] at hreceive hread
  refine ⟨hreceive, ?_⟩
  rw [getRequest, readLine, hread, EchoServer.receiveIn, hreceive]
  by_cases hwaits : waits MAXCHARS inStream
  · simp [hwaits]
  · by_cases hbreaks : breaks MAXCHARS inStream
    · simp [hwaits, hbreaks, Except.map]
    · simp [hwaits, hbreaks, Except.map]

end EchoInputStream

end Server6
