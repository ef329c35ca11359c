import Mathlib.Data.Bool.AllAny
import Mathlib.Data.List.TakeWhile
import Server6.Foundations.Utf16

/-!
# The Java echo exchange

`EchoClient` writes a message, `EchoServer` reads it, prepends the two addresses and writes it back,
and `EchoClient` reads the reply. Characters are written by their low byte on both sides, read as
bytes by the server and through a charset by the client.

* `receiveIn_line` is what the server takes of a line: as many of its bytes as fit, each as a
  character.
* `readIn_line` is what the client takes of one: every character but the backspaces.
* `exchange_ascii` puts the four routines together, for a message of ASCII characters.

The client's `InputStreamReader` is a parameter. Of the charset only what every ASCII-compatible one
does is used (`AsciiCompatible`).
-/

namespace Server6

/-- What one `read()` of a stream gives. -/
inductive ReadResult (α : Type)
  | ch (a : α)
  | eof
  | ioException
  deriving DecidableEq, Repr

/-- What `write(int)` puts on a byte stream: the low byte of a character. -/
def write (c : UInt16) : UInt8 := c.toUInt8

/-- A byte as `(char) ch`. -/
def toChar (b : UInt8) : UInt16 := b.toUInt16

theorem toChar_write {c : UInt16} (h : c < 128) : toChar (write c) = c := by
  have hlt : c.toNat < 128 := h
  apply UInt16.toNat.inj
  simp only [toChar, write, UInt8.toNat_toUInt16, UInt16.toNat_toUInt8]
  omega

/-- ASCII text survives being written and read. -/
theorem map_toChar_write {s : Utf16} (h : ∀ c ∈ s, c < 128) : (s.map write).map toChar = s := by
  rw [List.map_map]
  exact List.map_congr_left (fun c hc => toChar_write (h c hc)) |>.trans s.map_id

theorem write_lt {c : UInt16} (h : c < 128) : write c < 128 := by
  have hlt : c.toNat < 128 := h
  rw [UInt8.lt_iff_toNat_lt, write, UInt16.toNat_toUInt8]
  exact Nat.lt_of_le_of_lt (Nat.mod_le _ _) hlt

/-- An address of the network library: a host name, possibly empty, and a literal address, both of
printable ASCII characters. -/
structure InetAddress where
  hostName : Utf16
  hostAddress : Utf16
  printable : ∀ c ∈ hostName ++ hostAddress, 32 < c ∧ c < 127

namespace InetAddress

/-- `toString()`. -/
def toString (a : InetAddress) : Utf16 := a.hostName ++ .ofString "/" ++ a.hostAddress

theorem printable_toString (a : InetAddress) : ∀ c ∈ a.toString, 32 < c ∧ c < 127 := by
  intro c hc
  simp only [toString, List.mem_append] at hc
  rcases hc with (hc | hc) | hc
  · exact a.printable c (by simp [hc])
  · obtain rfl : c = 47 := by simpa [Utf16.ofString, Utf16.ofChar] using hc
    decide
  · exact a.printable c (by simp [hc])

end InetAddress

/-! ## The server -/

namespace EchoServer

/-- The most characters a request is read up to. -/
def MAXCHARS : ℕ := 8192

/-- The loop of `receiveIn` with `result` read so far, over what `in.read()` gives; `none` while it
waits in `read()`. The length is tested after the character has been appended. -/
def receive (result : Utf16) : List (ReadResult UInt8) → Option Utf16
  | [] => none
  | .eof :: _ => some result
  | .ioException :: _ => some result
  | .ch b :: rest =>
    if b = 10 ∨ b = 13 then some result
    else
      let result := result ++ [toChar b]
      if result.length < MAXCHARS then receive result rest else some result

/-- `receiveIn`. -/
def receiveIn (inStream : List (ReadResult UInt8)) : Option Utf16 := receive [] inStream

/-- What `run` puts before a request. -/
def header (server client : InetAddress) : Utf16 :=
  server.toString ++ .ofString "\t=>\t" ++ client.toString ++ .ofString "\t"

/-- `sendOut`: the bytes it writes before it closes the stream. -/
def sendOut (buffer : Utf16) : List UInt8 := buffer.map write ++ [13, 10]

/-- One round of `run`, on a connection of `client`: the bytes of the reply. -/
def handle (server client : InetAddress) (inStream : List (ReadResult UInt8)) :
    Option (List UInt8) :=
  (receiveIn inStream).map fun inBuffer => sendOut (header server client ++ inBuffer)

/-- A byte that does not end a request. -/
def isText (b : UInt8) : Bool := b ≠ 10 && b ≠ 13

/-- The loop on a line, with room left. -/
theorem receive_line (bs : List UInt8) (rest : List (ReadResult UInt8)) {result : Utf16}
    (h : result.length < MAXCHARS) :
    receive result (bs.map .ch ++ .ch 13 :: rest) =
      some (result ++ ((bs.takeWhile isText).take (MAXCHARS - result.length)).map toChar) := by
  induction bs generalizing result with
  | nil => simp [receive]
  | cons b bs ih =>
    rw [List.map_cons, List.cons_append, receive]
    by_cases hb : b = 10 ∨ b = 13
    · have htext : isText b = false := by rcases hb with rfl | rfl <;> rfl
      simp [hb, htext]
    · have htext : isText b = true := by simpa [isText] using hb
      have hroom : MAXCHARS - result.length = MAXCHARS - (result ++ [toChar b]).length + 1 := by
        simp only [List.length_append, List.length_singleton]
        omega
      rw [if_neg hb, List.takeWhile_cons_of_pos htext, hroom, List.take_succ_cons, List.map_cons]
      by_cases hlen : (result ++ [toChar b]).length < MAXCHARS
      · rw [if_pos hlen, ih hlen, List.append_assoc, List.singleton_append]
      · rw [if_neg hlen, Nat.sub_eq_zero_of_le (Nat.not_lt.1 hlen), List.take_zero, List.map_nil]

/-- **What the server takes of a line.** -/
theorem receiveIn_line (bs : List UInt8) (rest : List (ReadResult UInt8)) :
    receiveIn (bs.map .ch ++ .ch 13 :: rest) =
      some (((bs.takeWhile isText).take MAXCHARS).map toChar) :=
  receive_line bs rest (by decide : ([] : Utf16).length < MAXCHARS)

/-- The header is ASCII, without line ends and backspaces. -/
theorem header_text (server client : InetAddress) :
    ∀ c ∈ header server client, c < 128 ∧ c ≠ 13 ∧ c ≠ 10 ∧ c ≠ 8 := by
  have hprintable : ∀ c : UInt16, 32 < c ∧ c < 127 → c < 128 ∧ c ≠ 13 ∧ c ≠ 10 ∧ c ≠ 8 := by
    rintro c ⟨hlt, hgt⟩
    simp only [UInt16.lt_iff_toNat_lt, ne_eq, ← UInt16.toNat_inj] at hlt hgt ⊢
    simp only [UInt16.reduceToNat] at hlt hgt ⊢
    omega
  have hliteral : ∀ c ∈ Utf16.ofString "\t=>\t", c < 128 ∧ c ≠ 13 ∧ c ≠ 10 ∧ c ≠ 8 :=
    List.all_iff_forall_prop.1 (by decide)
  have htab : ∀ c ∈ Utf16.ofString "\t", c < 128 ∧ c ≠ 13 ∧ c ≠ 10 ∧ c ≠ 8 :=
    List.all_iff_forall_prop.1 (by decide)
  intro c hc
  simp only [header, List.mem_append] at hc
  rcases hc with ((hc | hc) | hc) | hc
  · exact hprintable c (server.printable_toString c hc)
  · exact hliteral c hc
  · exact hprintable c (client.printable_toString c hc)
  · exact htab c hc

end EchoServer

/-! ## The client -/

namespace EchoClient

def T_CR : UInt16 := 13

def T_LF : UInt16 := 10

def T_BS : UInt16 := 8

/-- `writeOut`: the bytes it writes. -/
def writeOut (outPut : Utf16) : List UInt8 := outPut.map write ++ [write T_CR, write T_LF]

/-- The loop of `readIn` with `inPut` read so far, over what `inStream.read()` gives; `none` while
it waits in `read()`. -/
def read (inPut : Utf16) : List (ReadResult UInt16) → Option Utf16
  | [] => none
  | .eof :: _ => some inPut
  | .ioException :: _ => some inPut
  | .ch c :: rest =>
    if c = T_CR ∨ c = T_LF then some inPut
    else if c = T_BS then read inPut rest
    else read (inPut ++ [c]) rest

/-- `readIn`. -/
def readIn (inStream : List (ReadResult UInt16)) : Option Utf16 := read [] inStream

/-- The charset of the `InputStreamReader` maps every byte below 128 to the same character. -/
def AsciiCompatible (decode : List UInt8 → Utf16) : Prop :=
  ∀ bs, (∀ b ∈ bs, b < 128) → decode bs = bs.map toChar

/-- A character that does not end a reply. -/
def isText (c : UInt16) : Bool := c ≠ T_CR && c ≠ T_LF

theorem read_line (cs : Utf16) (rest : List (ReadResult UInt16)) (inPut : Utf16) :
    read inPut (cs.map .ch ++ .ch T_CR :: rest) =
      some (inPut ++ (cs.takeWhile isText).filter (· ≠ T_BS)) := by
  induction cs generalizing inPut with
  | nil => simp [read]
  | cons c cs ih =>
    rw [List.map_cons, List.cons_append, read]
    by_cases hc : c = T_CR ∨ c = T_LF
    · have htext : isText c = false := by rcases hc with rfl | rfl <;> rfl
      simp [hc, htext]
    · have htext : isText c = true := by simpa [isText] using hc
      rw [if_neg hc, List.takeWhile_cons_of_pos htext, ih, ih]
      by_cases hbs : c = T_BS <;> simp [hbs]

/-- **What the client takes of a line.** -/
theorem readIn_line (cs : Utf16) (rest : List (ReadResult UInt16)) :
    readIn (cs.map .ch ++ .ch T_CR :: rest) = some ((cs.takeWhile isText).filter (· ≠ T_BS)) :=
  read_line cs rest []

end EchoClient

/-! ## The exchange -/

namespace EchoClient

open EchoServer (header handle MAXCHARS)

variable (decode : List UInt8 → Utf16) (server client : InetAddress)

/-- What `readIn` returns after `writeOut m`: the server reads the client's bytes, and the client
the bytes of the reply through its charset, up to the end of the stream that `sendOut` closes. -/
def exchange (m : Utf16) : Option Utf16 :=
  (handle server client ((writeOut m).map .ch)).bind fun reply =>
    readIn ((decode reply).map .ch ++ [.eof])

/-- The server receives an ASCII message as it is. -/
theorem handle_writeOut {m : Utf16} (hascii : ∀ c ∈ m, c < 128)
    (hline : ∀ c ∈ m, c ≠ T_CR ∧ c ≠ T_LF) (hlen : m.length ≤ MAXCHARS) :
    handle server client ((writeOut m).map .ch) =
      some (EchoServer.sendOut (header server client ++ m)) := by
  have htext : ∀ b ∈ m.map write, EchoServer.isText b = true := by
    simp only [List.mem_map, forall_exists_index, and_imp]
    rintro b c hc rfl
    have hchar := toChar_write (hascii c hc)
    obtain ⟨hcr, hlf⟩ := hline c hc
    simp only [EchoServer.isText, ne_eq, Bool.and_eq_true, decide_eq_true_eq]
    constructor
    · intro h
      exact hlf (hchar.symm.trans (congrArg toChar h))
    · intro h
      exact hcr (hchar.symm.trans (congrArg toChar h))
  have hreceive : EchoServer.receiveIn ((writeOut m).map .ch) = some m := by
    rw [writeOut, List.map_append]
    refine (EchoServer.receiveIn_line (m.map write) [.ch 10]).trans ?_
    rw [List.takeWhile_eq_self_iff.2 htext, List.take_of_length_le (by simpa using hlen),
      map_toChar_write hascii]
  rw [handle, hreceive, Option.map_some]

/-- **The exchange of an ASCII message**: the header and the message, without its backspaces. -/
theorem exchange_ascii (hdecode : AsciiCompatible decode) (m : Utf16) (hascii : ∀ c ∈ m, c < 128)
    (hline : ∀ c ∈ m, c ≠ T_CR ∧ c ≠ T_LF) (hlen : m.length ≤ MAXCHARS) :
    exchange decode server client m =
      some (header server client ++ m.filter (· ≠ T_BS)) := by
  have hheader := EchoServer.header_text server client
  have hreply : ∀ c ∈ header server client ++ m, c < 128 := by
    intro c hc
    rcases List.mem_append.1 hc with hc | hc
    · exact (hheader c hc).1
    · exact hascii c hc
  have htext : ∀ c ∈ header server client ++ m, isText c = true := by
    intro c hc
    rcases List.mem_append.1 hc with hc | hc
    · simpa [isText] using ⟨(hheader c hc).2.1, (hheader c hc).2.2.1⟩
    · simpa [isText] using hline c hc
  have hbytes : ∀ b ∈ EchoServer.sendOut (header server client ++ m), b < 128 := by
    intro b hb
    rcases List.mem_append.1 hb with hb | hb
    · obtain ⟨c, hc, rfl⟩ := List.mem_map.1 hb
      exact write_lt (hreply c hc)
    · obtain rfl | rfl : b = 13 ∨ b = 10 := by simpa using hb
      all_goals decide
  have hdecoded : decode (EchoServer.sendOut (header server client ++ m)) =
      (header server client ++ m) ++ [13, 10] := by
    rw [hdecode _ hbytes, EchoServer.sendOut, List.map_append, map_toChar_write hreply]
    rfl
  have hfilter : (header server client).filter (· ≠ T_BS) = header server client :=
    List.filter_eq_self.2 fun c hc => decide_eq_true (hheader c hc).2.2.2
  rw [exchange, handle_writeOut server client hascii hline hlen, Option.bind_some, hdecoded,
    List.map_append, List.append_assoc]
  refine (readIn_line (header server client ++ m) [.ch 10, .eof]).trans ?_
  rw [List.takeWhile_eq_self_iff.2 htext, List.filter_append, hfilter]

/-- The charset US-ASCII, with the replacement character for other bytes. -/
def usAscii (bs : List UInt8) : Utf16 := bs.map fun b => if b < 128 then toChar b else 0xFFFD

theorem asciiCompatible_usAscii : AsciiCompatible usAscii :=
  fun _ h => List.map_congr_left fun b hb => if_pos (h b hb)

/-- The address `/::1`. -/
def loopback : InetAddress := ⟨[], .ofString "::1", List.all_iff_forall_prop.1 (by decide)⟩

/-- A message with a backspace in it. -/
theorem exchange_ascii_backspace :
    exchange usAscii loopback loopback (.ofString "ab\x08c") =
      some (header loopback loopback ++ (Utf16.ofString "ab\x08c").filter (· ≠ T_BS)) :=
  exchange_ascii usAscii loopback loopback asciiCompatible_usAscii (.ofString "ab\x08c")
    (List.all_iff_forall_prop.1 (by decide)) (List.all_iff_forall_prop.1 (by decide)) (by decide)

/-- Three messages without line ends that do not come back as they were: a backspace, a character
the charset does not have, and one whose low byte is a letter. -/
theorem not_exchange_backspace :
    AsciiCompatible usAscii ∧
      exchange usAscii loopback loopback [97, 8, 98] ≠
        some (header loopback loopback ++ [97, 8, 98]) ∧
      exchange usAscii loopback loopback [0xE9] ≠ some (header loopback loopback ++ [0xE9]) ∧
      exchange usAscii loopback loopback [0x141] ≠ some (header loopback loopback ++ [0x141]) := by
  refine ⟨asciiCompatible_usAscii, ?_, ?_, ?_⟩ <;> decide

end EchoClient

end Server6
