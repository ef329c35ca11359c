import Server6.Java.Echo

/-!
# One connection of the Java echo server, step by step

The two programs on one connection: `EchoClient.main` writes its message and reads a line, and one
round of `EchoServer.run` receives a line and sends the reply. Each step moves one byte, and the steps
of the two sides come in any order. The client may be refused or be stopped at any time; a side that
finds the connection closed may fail.

* `Sound` is what every step keeps (`Sound.call`, `Sound.serve`): where the bytes of the message are, and
  what the server has made of them.
* `Sound.received_reply`: what the client has received is the beginning of the reply to the beginning of
  its own message.
-/

namespace Server6

namespace JavaEcho

open EchoServer (header sendOut MAXCHARS isText)
open EchoClient (writeOut readIn AsciiCompatible)

/-- A call of `EchoClient.main`: which server socket it connects to, the address the server sees, and
the message. -/
structure Caller where
  server : ℕ
  address : InetAddress
  message : Utf16

/-- Where `EchoClient.main` is. -/
inductive ClientPc
  | idle
  | writing (rest : List UInt8)
  | reading
  | finished
  | failed
  | aborted
  | refused
  deriving DecidableEq, Repr

namespace ClientPc

/-- The client has connected and left. -/
def hasLeft : ClientPc → Bool
  | .finished => true
  | .failed => true
  | .aborted => true
  | _ => false

end ClientPc

/-- Where the server is with a connection. -/
inductive Side
  | none
  | queued
  | receiving (result : Utf16)
  | sending (rest : List UInt8)
  | closed
  deriving DecidableEq, Repr

/-- A connection: both sides, the bytes on their way, those the server has read and those the client
has. -/
structure Conn where
  caller : Caller
  pc : ClientPc
  side : Side
  toServer : List UInt8
  toClient : List UInt8
  consumed : List UInt8
  received : List UInt8

/-- What `EchoClient` does. -/
inductive CallerAction
  | refuse
  | write
  | writeFails
  | read
  | readEnd
  | readFails
  | abort
  deriving DecidableEq, Repr

/-- What `EchoServer` does with a connection. -/
inductive ServerAction
  | receive
  | receiveEnd
  | send
  | sendFails
  deriving DecidableEq, Repr

/-- The loop of `receiveIn` behind `read`, and `sendOut` behind the loop. -/
def afterRead (server client : InetAddress) (result : Utf16) (b : UInt8) : Side :=
  if b = 10 ∨ b = 13 then .sending (sendOut (header server client ++ result))
  else
    let result := result ++ [toChar b]
    if result.length < MAXCHARS then .receiving result
    else .sending (sendOut (header server client ++ result))

namespace Conn

/-- A caller that has not connected yet. -/
def start (c : Caller) : Conn := ⟨c, .idle, .none, [], [], [], []⟩

/-- The connection is made, and waits in the backlog. -/
def connected (c : Conn) : Conn :=
  { c with pc := .writing (writeOut c.caller.message), side := .queued }

/-- `accept` has returned the connection. -/
def accepted (c : Conn) : Conn := { c with side := .receiving [] }

/-- A step of the client, which reads through its charset. -/
def call (decode : List UInt8 → Utf16) (c : Conn) : CallerAction → Option Conn
  | .refuse => if c.pc = .idle then some { c with pc := .refused } else none
  | .write =>
    match c.pc with
    | .writing (b :: rest) =>
      some { c with
        toServer := c.toServer ++ [b]
        pc := if rest = [] then .reading else .writing rest }
    | _ => none
  | .writeFails =>
    match c.pc with
    | .writing _ => if c.side = .closed then some { c with pc := .reading } else none
    | _ => none
  | .read =>
    match c.toClient with
    | b :: rest =>
      if c.pc = .reading then
        let received := c.received ++ [b]
        some { c with
          toClient := rest
          received := received
          pc := if (readIn ((decode received).map .ch)).isSome then .finished else .reading }
      else none
    | [] => none
  | .readEnd =>
    if c.pc = .reading ∧ c.side = .closed ∧ c.toClient = [] then some { c with pc := .finished }
    else none
  | .readFails =>
    -- the server has closed with bytes unread
    if c.pc = .reading ∧ c.side = .closed ∧ c.toServer ≠ [] then some { c with pc := .failed }
    else none
  | .abort =>
    match c.pc with
    | .writing _ => some { c with pc := .aborted }
    | .reading => some { c with pc := .aborted }
    | _ => none

/-- A step of the server thread that has accepted the connection. -/
def serve (server : InetAddress) (c : Conn) : ServerAction → Option Conn
  | .receive =>
    match c.side, c.toServer with
    | .receiving result, b :: rest =>
      some { c with
        toServer := rest
        consumed := c.consumed ++ [b]
        side := afterRead server c.caller.address result b }
    | _, _ => none
  | .receiveEnd =>
    match c.side with
    | .receiving result =>
      if c.toServer = [] ∧ c.pc.hasLeft then
        some { c with side := .sending (sendOut (header server c.caller.address ++ result)) }
      else none
    | _ => none
  | .send =>
    match c.side with
    | .sending (b :: rest) =>
      some { c with
        toClient := c.toClient ++ [b]
        side := if rest = [] then .closed else .sending rest }
    | _ => none
  | .sendFails =>
    match c.side with
    | .sending _ => if c.pc.hasLeft then some { c with side := .closed } else none
    | _ => none

/-- What `readIn` returns of the bytes it has read. -/
def newLine (decode : List UInt8 → Utf16) (c : Conn) : Option Utf16 :=
  readIn ((decode c.received).map .ch ++ [.eof])

end Conn

/-! ## The reply -/

/-- The line the server takes of some bytes. -/
def lineOf (bs : List UInt8) : Utf16 := ((bs.takeWhile isText).take MAXCHARS).map toChar

/-- The bytes of the reply to them. -/
def reply (server client : InetAddress) (bs : List UInt8) : List UInt8 :=
  sendOut (header server client ++ lineOf bs)

/-- The line ends in these bytes, or has its full length. -/
def EndsLine (bs : List UInt8) : Prop := (∃ b ∈ bs, isText b = false) ∨ MAXCHARS ≤ bs.length

/-- What follows then does not matter. -/
theorem EndsLine.lineOf_append {bs : List UInt8} (h : EndsLine bs) (rest : List UInt8) :
    lineOf (bs ++ rest) = lineOf bs := by
  unfold lineOf
  by_cases htext : ∀ b ∈ bs, isText b = true
  · have hlen : MAXCHARS ≤ bs.length := by
      rcases h with ⟨b, hb, hfalse⟩ | hlen
      · rw [htext b hb] at hfalse
        cases hfalse
      · exact hlen
    rw [List.takeWhile_append_of_pos htext, List.takeWhile_eq_self_iff.2 htext,
      List.take_append_of_le_length hlen]
  · have hne : bs.takeWhile isText ≠ bs := by
      simpa [List.takeWhile_eq_self_iff] using htext
    have hlen : (bs.takeWhile isText).length ≠ bs.length := by
      intro hlen
      exact hne ((List.takeWhile_prefix _).eq_of_length hlen)
    rw [List.takeWhile_append, if_neg hlen]

theorem lineOf_text {bs : List UInt8} (htext : ∀ b ∈ bs, isText b = true)
    (hlen : bs.length ≤ MAXCHARS) : lineOf bs = bs.map toChar := by
  unfold lineOf
  rw [List.takeWhile_eq_self_iff.2 htext, List.take_of_length_le hlen]

theorem lineOf_snoc_end {bs : List UInt8} (htext : ∀ b ∈ bs, isText b = true)
    (hlen : bs.length ≤ MAXCHARS) {b : UInt8} (hb : isText b = false) :
    lineOf (bs ++ [b]) = bs.map toChar := by
  unfold lineOf
  rw [List.takeWhile_append_of_pos htext, List.takeWhile_cons_of_neg (by simp [hb]),
    List.append_nil, List.take_of_length_le hlen]

/-- What `receive` has taken at the end of a line. -/
theorem receive_endsLine {bs : List UInt8} (rest : List (ReadResult UInt8)) {result : Utf16}
    (hroom : result.length < MAXCHARS)
    (h : (∃ b ∈ bs, isText b = false) ∨ MAXCHARS ≤ result.length + bs.length) :
    EchoServer.receive result (bs.map .ch ++ rest) =
      some (result ++ ((bs.takeWhile isText).take (MAXCHARS - result.length)).map toChar) := by
  induction bs generalizing result with
  | nil =>
    rcases h with ⟨b, hb, -⟩ | h
    · cases hb
    · exact absurd h (Nat.not_le.2 hroom)
  | cons b bs ih =>
    rw [List.map_cons, List.cons_append, EchoServer.receive]
    by_cases hb : b = 10 ∨ b = 13
    · have htext : isText b = false := by rcases hb with rfl | rfl <;> rfl
      simp [hb, htext]
    · have htext : isText b = true := by simpa [isText] using hb
      have hmore : MAXCHARS - result.length = MAXCHARS - (result ++ [toChar b]).length + 1 := by
        simp only [List.length_append, List.length_singleton]
        omega
      rw [if_neg hb, List.takeWhile_cons_of_pos htext, hmore, List.take_succ_cons, List.map_cons]
      by_cases hlen : (result ++ [toChar b]).length < MAXCHARS
      · rw [if_pos hlen, ih hlen, List.append_assoc, List.singleton_append]
        rcases h with ⟨b', hb', hfalse⟩ | h
        · rcases List.mem_cons.1 hb' with rfl | hb'
          · rw [htext] at hfalse
            cases hfalse
          · exact .inl ⟨b', hb', hfalse⟩
        · refine .inr ?_
          simp only [List.length_append, List.length_cons, List.length_nil] at h ⊢
          omega
      · rw [if_neg hlen, Nat.sub_eq_zero_of_le (Nat.not_lt.1 hlen), List.take_zero, List.map_nil]

/-- What it has taken at the end of the stream. -/
theorem receive_eof {bs : List UInt8} {result : Utf16} (htext : ∀ b ∈ bs, isText b = true)
    (hlen : result.length + bs.length < MAXCHARS) :
    EchoServer.receive result (bs.map .ch ++ [.eof]) = some (result ++ bs.map toChar) := by
  induction bs generalizing result with
  | nil => simp [EchoServer.receive]
  | cons b bs ih =>
    have hb : ¬ (b = 10 ∨ b = 13) := by simpa [isText] using htext b (by simp)
    simp only [List.length_cons] at hlen
    have hroom : (result ++ [toChar b]).length < MAXCHARS := by
      simp only [List.length_append, List.length_singleton]
      omega
    rw [List.map_cons, List.cons_append, EchoServer.receive, if_neg hb]
    simp only [if_pos hroom]
    rw [ih (fun b' hb' => htext b' (by simp [hb'])) (by
      simp only [List.length_append, List.length_singleton]
      omega)]
    simp

/-- **The reply is that of `handle`** to the bytes and the end of the stream. -/
theorem handle_eq_reply (server client : InetAddress) (bs : List UInt8) :
    EchoServer.handle server client (bs.map .ch ++ [.eof]) = some (reply server client bs) := by
  have hreceive : EchoServer.receiveIn (bs.map .ch ++ [.eof]) = some (lineOf bs) := by
    by_cases h : EndsLine bs
    · exact receive_endsLine [.eof] (by decide) (by simpa [EndsLine] using h)
    · simp only [EndsLine, not_or, not_exists, not_and, Bool.not_eq_false, Nat.not_le] at h
      obtain ⟨htext, hlen⟩ := h
      rw [lineOf_text htext (Nat.le_of_lt hlen)]
      exact receive_eof htext (by simpa using hlen)
  rw [EchoServer.handle, hreceive]
  rfl

theorem length_lineOf (bs : List UInt8) : (lineOf bs).length ≤ MAXCHARS := by
  rw [lineOf, List.length_map, List.length_take]
  exact Nat.min_le_left _ _

/-! ## What holds of a connection -/

variable {decode : List UInt8 → Utf16} {server : InetAddress} {c d : Conn}

/-- What the server has read and sent, by where it is. -/
def SideSound (server : InetAddress) (c : Conn) : Side → Prop
  | .none => c.consumed = [] ∧ c.received ++ c.toClient = []
  | .queued => c.consumed = [] ∧ c.received ++ c.toClient = []
  | .receiving result =>
    result = c.consumed.map toChar ∧ (∀ b ∈ c.consumed, isText b = true) ∧
      c.consumed.length < MAXCHARS ∧ c.received ++ c.toClient = []
  | .sending rest =>
    c.received ++ c.toClient ++ rest = reply server c.caller.address c.consumed ∧ rest ≠ [] ∧
      (EndsLine c.consumed ∨ c.pc = .aborted)
  | .closed =>
    c.received ++ c.toClient <+: reply server c.caller.address c.consumed ∧
      (c.pc.hasLeft = false → c.received ++ c.toClient = reply server c.caller.address c.consumed) ∧
      (EndsLine c.consumed ∨ c.pc = .aborted)

/-- What holds of a connection: the bytes of the message that have been written, what the server has
made of them, and why the client has left. -/
structure Sound (decode : List UInt8 → Utf16) (server : InetAddress) (c : Conn) : Prop where
  sent : ∃ rest, c.consumed ++ c.toServer ++ rest = writeOut c.caller.message ∧
    (∀ r, c.pc = .writing r → r = rest ∧ r ≠ []) ∧
    (c.pc = .reading → c.side ≠ .closed → rest = []) ∧ (c.side = .none → c.toServer = [])
  side : SideSound server c c.side
  fresh : c.side = .none ↔ c.pc = .idle ∨ c.pc = .refused
  left : c.pc = .finished ∨ c.pc = .failed → c.side = .closed ∨ ∃ rest, c.side = .sending rest
  finished : c.pc = .finished → (readIn ((decode c.received).map .ch)).isSome ∨
    c.received = reply server c.caller.address c.consumed

theorem sound_start (decode : List UInt8 → Utf16) (server : InetAddress) (caller : Caller) :
    Sound decode server (.start caller) where
  sent := ⟨writeOut caller.message, rfl, by simp [Conn.start], by simp [Conn.start], fun _ => rfl⟩
  side := ⟨rfl, rfl⟩
  fresh := by simp [Conn.start]
  left := by simp [Conn.start]
  finished := by simp [Conn.start]

theorem Sound.connected (h : Sound decode server c) (hpc : c.pc = .idle) :
    Sound decode server c.connected := by
  have hnone := h.fresh.2 (.inl hpc)
  have hside := h.side
  rw [hnone] at hside
  obtain ⟨rest, hsent, -, -, hempty⟩ := h.sent
  rw [hside.1, hempty hnone, List.nil_append, List.nil_append] at hsent
  refine ⟨⟨rest, ?_, ?_, by simp [Conn.connected], by simp [Conn.connected]⟩, hside,
    by simp [Conn.connected], by simp [Conn.connected], by simp [Conn.connected]⟩
  · simp only [Conn.connected, hside.1, hempty hnone, List.nil_append]
    exact hsent
  · intro r hr
    obtain rfl : writeOut c.caller.message = r := by simpa [Conn.connected] using hr
    exact ⟨hsent.symm, by simp [writeOut]⟩

theorem Sound.accepted (h : Sound decode server c) (hqueued : c.side = .queued) :
    Sound decode server c.accepted := by
  have hside := h.side
  rw [hqueued] at hside
  obtain ⟨hconsumed, hnothing⟩ := hside
  obtain ⟨rest, hsent, hwriting, hreading, -⟩ := h.sent
  refine ⟨⟨rest, hsent, hwriting, fun hpc _ => hreading hpc (by simp [hqueued]),
    by simp [Conn.accepted]⟩, ?_, ?_, ?_, h.finished⟩
  · refine ⟨?_, ?_, ?_, hnothing⟩
    · rw [Conn.accepted, hconsumed, List.map_nil]
    · simp [Conn.accepted, hconsumed]
    · rw [Conn.accepted, hconsumed]
      decide
  · have hfresh := h.fresh
    rw [hqueued] at hfresh
    simpa [Conn.accepted] using hfresh
  · intro hpc
    have hleft := h.left hpc
    simp [hqueued] at hleft

/-- A client that has not left takes a step that the server does not see. -/
theorem SideSound.of_staying {side : Side} (h : SideSound server c side) {pc : ClientPc}
    {toServer : List UInt8} (hstay : c.pc.hasLeft = false) :
    SideSound server { c with pc := pc, toServer := toServer } side := by
  have haborted : c.pc ≠ .aborted := by
    intro hpc
    rw [hpc] at hstay
    cases hstay
  cases side with
  | none => exact h
  | queued => exact h
  | receiving result => exact h
  | sending rest => exact ⟨h.1, h.2.1, .inl (h.2.2.resolve_right haborted)⟩
  | closed => exact ⟨h.1, fun _ => h.2.1 hstay, .inl (h.2.2.resolve_right haborted)⟩

/-- The client leaves. -/
theorem SideSound.of_leaving {side : Side} (h : SideSound server c side) {pc : ClientPc}
    (hstay : c.pc.hasLeft = false) (hleft : pc.hasLeft = true) :
    SideSound server { c with pc := pc } side := by
  have haborted : c.pc ≠ .aborted := by
    intro hpc
    rw [hpc] at hstay
    cases hstay
  cases side with
  | none => exact h
  | queued => exact h
  | receiving result => exact h
  | sending rest => exact ⟨h.1, h.2.1, .inl (h.2.2.resolve_right haborted)⟩
  | closed => exact ⟨h.1, fun hpc => by simp [hleft] at hpc, .inl (h.2.2.resolve_right haborted)⟩

theorem Sound.call (h : Sound decode server c) {a : CallerAction} (hd : c.call decode a = some d) :
    Sound decode server d := by
  obtain ⟨rest, hsent, hwriting, hreading, hempty⟩ := h.sent
  cases a with
  | refuse =>
    simp only [Conn.call, Option.ite_none_right_eq_some, Option.some.injEq] at hd
    obtain ⟨hpc, rfl⟩ := hd
    have hnone := h.fresh.2 (.inl hpc)
    exact ⟨⟨rest, hsent, by simp, by simp, hempty⟩, h.side.of_staying (by simp [hpc, ClientPc.hasLeft]),
      by simpa using hnone, by simp, by simp⟩
  | write =>
    simp only [Conn.call] at hd
    split at hd
    · rename_i b bs hpc
      obtain rfl := Option.some.inj hd
      obtain ⟨rfl, -⟩ := hwriting _ hpc
      have hstay : c.pc.hasLeft = false := by rw [hpc]; rfl
      have hfresh := h.fresh
      simp only [hpc, reduceCtorEq, or_self, iff_false] at hfresh
      refine ⟨⟨bs, ?_, ?_, ?_, fun hnone => absurd hnone hfresh⟩,
        h.side.of_staying hstay, ?_, ?_, ?_⟩
      · rw [← hsent]
        simp
      · intro r hr
        simp only at hr
        split_ifs at hr with hbs
        cases hr
        exact ⟨rfl, hbs⟩
      · intro hpc' _
        simp only at hpc'
        split_ifs at hpc' with hbs
        exact hbs
      · simp only [hfresh, false_iff]
        split_ifs <;> simp
      · simp only
        split_ifs <;> simp
      · simp only
        split_ifs <;> simp
    · cases hd
  | writeFails =>
    simp only [Conn.call] at hd
    split at hd
    · rename_i r hpc
      simp only [Option.ite_none_right_eq_some, Option.some.injEq] at hd
      obtain ⟨hclosed, rfl⟩ := hd
      have hstay : c.pc.hasLeft = false := by rw [hpc]; rfl
      exact ⟨⟨rest, hsent, by simp, fun _ hopen => absurd hclosed hopen, by simp [hclosed]⟩,
        h.side.of_staying hstay, by simp [hclosed], by simp, by simp⟩
    · cases hd
  | read =>
    simp only [Conn.call] at hd
    split at hd
    · rename_i b bs htoClient
      simp only [Option.ite_none_right_eq_some, Option.some.injEq] at hd
      obtain ⟨hpc, rfl⟩ := hd
      have hstay : c.pc.hasLeft = false := by rw [hpc]; rfl
      have hfresh := h.fresh
      simp only [hpc, reduceCtorEq, or_self, iff_false] at hfresh
      have hmoved : c.received ++ [b] ++ bs = c.received ++ c.toClient := by
        rw [htoClient, List.append_assoc, List.singleton_append]
      have hnotNil : c.received ++ c.toClient ≠ [] := by simp [htoClient]
      have haborted : c.pc ≠ .aborted := by simp [hpc]
      have hside := h.side
      have hwhere : c.side = .closed ∨ ∃ rest, c.side = .sending rest := by
        cases hs : c.side with
        | none => exact absurd hs hfresh
        | queued =>
          rw [hs] at hside
          exact absurd hside.2 hnotNil
        | receiving result =>
          rw [hs] at hside
          exact absurd hside.2.2.2 hnotNil
        | sending rest => exact .inr ⟨rest, rfl⟩
        | closed => exact .inl rfl
      refine ⟨⟨rest, hsent, ?_, ?_, hempty⟩, ?_, ?_, fun _ => hwhere, ?_⟩
      · intro r hr
        simp only at hr
        split_ifs at hr
      · exact fun _ hopen => hreading hpc hopen
      · rcases hwhere with hs | ⟨r, hs⟩
        · rw [hs] at hside
          obtain ⟨-, heq, hends⟩ := hside
          simp only [hs, SideSound, hmoved]
          exact ⟨heq hstay ▸ List.prefix_refl _, fun _ => heq hstay,
            .inl (hends.resolve_right haborted)⟩
        · rw [hs] at hside
          obtain ⟨heq, hne, hends⟩ := hside
          simp only [hs, SideSound, hmoved]
          exact ⟨heq, hne, .inl (hends.resolve_right haborted)⟩
      · simp only [hfresh, false_iff]
        split_ifs <;> simp
      · intro hfinished
        simp only at hfinished
        split_ifs at hfinished with hline
        exact .inl hline
    · cases hd
  | readEnd =>
    simp only [Conn.call, Option.ite_none_right_eq_some, Option.some.injEq] at hd
    obtain ⟨⟨hpc, hclosed, hnil⟩, rfl⟩ := hd
    have hstay : c.pc.hasLeft = false := by rw [hpc]; rfl
    have hside := h.side
    rw [hclosed] at hside
    have heq := hside.2.1 hstay
    rw [hnil, List.append_nil] at heq
    exact ⟨⟨rest, hsent, by simp, by simp, hempty⟩, h.side.of_leaving hstay rfl,
      by simp [hclosed], fun _ => .inl hclosed, fun _ => .inr heq⟩
  | readFails =>
    simp only [Conn.call, Option.ite_none_right_eq_some, Option.some.injEq] at hd
    obtain ⟨⟨hpc, hclosed, -⟩, rfl⟩ := hd
    have hstay : c.pc.hasLeft = false := by rw [hpc]; rfl
    exact ⟨⟨rest, hsent, by simp, by simp, hempty⟩, h.side.of_leaving hstay rfl,
      by simp [hclosed], fun _ => .inl hclosed, by simp⟩
  | abort =>
    simp only [Conn.call] at hd
    have habort : c.pc ≠ .idle ∧ c.pc ≠ .refused ∧ c.pc.hasLeft = false ∧
        { c with pc := .aborted } = d := by
      split at hd
      · rename_i hpc
        exact ⟨by simp [hpc], by simp [hpc], by rw [hpc]; rfl, Option.some.inj hd⟩
      · rename_i hpc
        exact ⟨by simp [hpc], by simp [hpc], by rw [hpc]; rfl, Option.some.inj hd⟩
      · cases hd
    obtain ⟨hidle, hrefused, hstay, rfl⟩ := habort
    have hfresh : c.side ≠ .none := fun hnone => (h.fresh.1 hnone).elim hidle hrefused
    exact ⟨⟨rest, hsent, by simp, by simp, hempty⟩, h.side.of_leaving hstay rfl,
      by simp [hfresh], by simp, by simp⟩

/-- The end of the line the server reads. -/
theorem afterRead_spec {result : Utf16} {bs : List UInt8} (hresult : result = bs.map toChar)
    (htext : ∀ b ∈ bs, isText b = true) (hlen : bs.length < MAXCHARS)
    (server client : InetAddress) (b : UInt8) :
    (∃ result', afterRead server client result b = .receiving result' ∧
        result' = (bs ++ [b]).map toChar ∧ (∀ b' ∈ bs ++ [b], isText b' = true) ∧
        (bs ++ [b]).length < MAXCHARS) ∨
      (afterRead server client result b = .sending (reply server client (bs ++ [b])) ∧
        EndsLine (bs ++ [b])) := by
  subst hresult
  unfold afterRead
  by_cases hb : b = 10 ∨ b = 13
  · have hend : isText b = false := by rcases hb with rfl | rfl <;> rfl
    refine .inr ⟨?_, .inl ⟨b, by simp, hend⟩⟩
    rw [if_pos hb, reply, lineOf_snoc_end htext (Nat.le_of_lt hlen) hend]
  · have hb' : isText b = true := by simpa [isText] using hb
    have hall : ∀ b' ∈ bs ++ [b], isText b' = true := by
      intro b' hb''
      rcases List.mem_append.1 hb'' with hb'' | hb''
      · exact htext b' hb''
      · obtain rfl := List.mem_singleton.1 hb''
        exact hb'
    have hmap : bs.map toChar ++ [toChar b] = (bs ++ [b]).map toChar := by simp
    rw [if_neg hb]
    simp only [hmap, List.length_map]
    by_cases hroom : (bs ++ [b]).length < MAXCHARS
    · exact .inl ⟨_, if_pos hroom, rfl, hall, hroom⟩
    · refine .inr ⟨?_, .inr (Nat.not_lt.1 hroom)⟩
      have hle : (bs ++ [b]).length ≤ MAXCHARS := by
        rw [List.length_append, List.length_singleton]
        omega
      rw [if_neg hroom, reply, lineOf_text hall hle]

theorem reply_ne_nil (server client : InetAddress) (bs : List UInt8) :
    reply server client bs ≠ [] := by
  simp [reply, sendOut]

theorem Sound.serve (h : Sound decode server c) {a : ServerAction} (hd : c.serve server a = some d) :
    Sound decode server d := by
  obtain ⟨rest, hsent, hwriting, hreading, hempty⟩ := h.sent
  have hside := h.side
  cases a with
  | receive =>
    simp only [Conn.serve] at hd
    split at hd
    · rename_i result b bs hs htoServer
      obtain rfl := Option.some.inj hd
      rw [hs] at hside
      obtain ⟨hresult, htext, hlen, hnothing⟩ := hside
      have hopen : c.pc = .reading → rest = [] := fun hpc => hreading hpc (by simp [hs])
      have hfresh := h.fresh
      simp only [hs, reduceCtorEq, false_iff] at hfresh
      have hleft : ¬ (c.pc = .finished ∨ c.pc = .failed) := by
        intro hpc
        simpa [hs] using h.left hpc
      have hmoved : c.consumed ++ [b] ++ bs ++ rest = writeOut c.caller.message := by
        rw [← hsent, htoServer]
        simp
      rcases afterRead_spec hresult htext hlen server c.caller.address b with
        ⟨result', hafter, hresult', htext', hlen'⟩ | ⟨hafter, hends⟩
      · exact ⟨⟨rest, hmoved, hwriting, fun hpc _ => hopen hpc, by simp [hafter]⟩,
          by rw [hafter]; exact ⟨hresult', htext', hlen', hnothing⟩, by simp [hafter, hfresh],
          fun hpc => absurd hpc hleft, fun hpc => absurd (.inl hpc) hleft⟩
      · refine ⟨⟨rest, hmoved, hwriting, fun hpc _ => hopen hpc, by simp [hafter]⟩, ?_,
          by simp [hafter, hfresh], fun hpc => absurd hpc hleft,
          fun hpc => absurd (.inl hpc) hleft⟩
        rw [hafter]
        refine ⟨?_, reply_ne_nil _ _ _, .inl hends⟩
        rw [hnothing, List.nil_append]
    · cases hd
  | receiveEnd =>
    simp only [Conn.serve] at hd
    split at hd
    · rename_i result hs
      simp only [Option.ite_none_right_eq_some, Option.some.injEq] at hd
      obtain ⟨⟨-, hhasLeft⟩, rfl⟩ := hd
      rw [hs] at hside
      obtain ⟨hresult, htext, hlen, hnothing⟩ := hside
      have hleft : ¬ (c.pc = .finished ∨ c.pc = .failed) := by
        intro hpc
        simpa [hs] using h.left hpc
      have haborted : c.pc = .aborted := by
        cases hpc : c.pc <;> simp_all [ClientPc.hasLeft]
      have hreply : sendOut (header server c.caller.address ++ result) =
          reply server c.caller.address c.consumed := by
        rw [reply, lineOf_text htext (Nat.le_of_lt hlen), hresult]
      refine ⟨⟨rest, hsent, hwriting, by simp [haborted], by simp⟩, ?_, by simp [haborted],
        by simp [haborted], by simp [haborted]⟩
      rw [hreply]
      refine ⟨?_, reply_ne_nil _ _ _, .inr haborted⟩
      rw [hnothing, List.nil_append]
    · cases hd
  | send =>
    simp only [Conn.serve] at hd
    split at hd
    · rename_i b bs hs
      obtain rfl := Option.some.inj hd
      rw [hs] at hside
      obtain ⟨heq, -, hends⟩ := hside
      have hfresh := h.fresh
      simp only [hs, reduceCtorEq, false_iff] at hfresh
      have hmoved : c.received ++ (c.toClient ++ [b]) ++ bs =
          reply server c.caller.address c.consumed := by
        rw [← heq]
        simp
      have hempty' : c.pc = .reading → rest = [] := fun hpc => hreading hpc (by simp [hs])
      by_cases hbs : bs = []
      · subst hbs
        rw [List.append_nil] at hmoved
        exact ⟨⟨rest, hsent, hwriting, fun hpc _ => hempty' hpc, by simp⟩,
          ⟨hmoved ▸ List.prefix_refl _, fun _ => hmoved, hends⟩, by simp [hfresh], by simp,
          h.finished⟩
      · simp only [if_neg hbs]
        exact ⟨⟨rest, hsent, hwriting, fun hpc _ => hempty' hpc, by simp⟩, ⟨hmoved, hbs, hends⟩,
          by simp [hfresh], by simp, h.finished⟩
    · cases hd
  | sendFails =>
    simp only [Conn.serve] at hd
    split at hd
    · rename_i r hs
      simp only [Option.ite_none_right_eq_some, Option.some.injEq] at hd
      obtain ⟨hhasLeft, rfl⟩ := hd
      rw [hs] at hside
      obtain ⟨heq, -, hends⟩ := hside
      have hfresh := h.fresh
      simp only [hs, reduceCtorEq, false_iff] at hfresh
      refine ⟨⟨rest, hsent, hwriting, by simp, by simp⟩, ⟨?_, ?_, hends⟩, by simp [hfresh],
        by simp, h.finished⟩
      · rw [← heq]
        exact List.prefix_append _ _
      · intro hstay
        simp [hhasLeft] at hstay
    · cases hd

/-- What the server has read is the beginning of what the client writes. -/
theorem Sound.consumed_writeOut (h : Sound decode server c) :
    c.consumed <+: writeOut c.caller.message := by
  obtain ⟨rest, hsent, -⟩ := h.sent
  rw [← hsent, List.append_assoc]
  exact List.prefix_append _ _

/-- What the client gets is the beginning of the reply to it. -/
theorem Sound.received_reply (h : Sound decode server c) :
    c.received ++ c.toClient <+: reply server c.caller.address c.consumed := by
  have hside := h.side
  cases hs : c.side <;> rw [hs] at hside
  · rw [hside.2]
    exact List.nil_prefix
  · rw [hside.2]
    exact List.nil_prefix
  · rw [hside.2.2.2]
    exact List.nil_prefix
  · rw [← hside.1]
    exact List.prefix_append _ _
  · exact hside.1

end JavaEcho

end Server6
