import Server6.Java.Connection

/-!
# The end of a connection of the Java echo server

* `Sound.newLine_of_finished` is what `readIn` has returned once it has returned: with an ASCII message,
  the header and the first line of the client's own message, in whatever order the bytes went.
* `Conn.remaining` bounds the steps that are left of a connection: every step of either side lowers it.
-/

namespace Server6

namespace JavaEcho

open EchoServer (header sendOut MAXCHARS isText)
open EchoClient (writeOut readIn AsciiCompatible)

variable {decode : List UInt8 → Utf16} {server : InetAddress} {c d : Conn}

/-! ## What the client has read -/

theorem read_text {cs : Utf16} (h : ∀ c ∈ cs, EchoClient.isText c = true) (inPut : Utf16) :
    EchoClient.read inPut (cs.map .ch) = none := by
  induction cs generalizing inPut with
  | nil => rfl
  | cons c cs ih =>
    have hc : ¬ (c = EchoClient.T_CR ∨ c = EchoClient.T_LF) := by
      simpa [EchoClient.isText] using h c (by simp)
    have ih := ih fun d hd => h d (by simp [hd])
    rw [List.map_cons, EchoClient.read, if_neg hc, ih, ih, ite_self]

/-- `readIn` returns before the end of the stream only when it has read the line end. -/
theorem exists_of_readIn {cs p : Utf16} (hcs : ∀ c ∈ cs, EchoClient.isText c = true)
    (hp : p <+: cs ++ [13, 10]) (hread : (readIn (p.map .ch)).isSome) :
    ∃ rest, p = cs ++ 13 :: rest := by
  rcases Nat.lt_or_ge cs.length p.length with hlt | hle
  · obtain ⟨q, rfl⟩ := List.prefix_of_prefix_length_le (List.prefix_append cs [13, 10]) hp
      (Nat.le_of_lt hlt)
    have hq := (List.prefix_append_right_inj cs).1 hp
    cases q with
    | nil => simp at hlt
    | cons c q =>
      obtain ⟨rfl, -⟩ := List.cons_prefix_cons.1 hq
      exact ⟨q, rfl⟩
  · have hsub := List.prefix_of_prefix_length_le hp (List.prefix_append cs [13, 10]) hle
    have hnone : readIn (p.map .ch) = none := read_text (fun c hc => hcs c (hsub.subset hc)) []
    rw [hnone] at hread
    cases hread

theorem toChar_text {b : UInt8} (h : isText b = true) : EchoClient.isText (toChar b) = true := by
  simp only [isText, EchoClient.isText, EchoClient.T_CR, EchoClient.T_LF, ne_eq, Bool.and_eq_true,
    decide_eq_true_eq, ← UInt8.toNat_inj, ← UInt16.toNat_inj, toChar, UInt8.toNat_toUInt16] at h ⊢
  simp only [UInt8.reduceToNat, UInt16.reduceToNat] at h ⊢
  omega

/-- The characters of a line. -/
theorem mem_lineOf {bs : List UInt8} {c : UInt16} (h : c ∈ lineOf bs) :
    ∃ b ∈ bs, isText b = true ∧ c = toChar b := by
  obtain ⟨b, hb, rfl⟩ := List.mem_map.1 h
  have hb := List.mem_of_mem_take hb
  exact ⟨b, (List.takeWhile_prefix _).subset hb, List.mem_takeWhile_imp hb, rfl⟩

theorem toChar_lt {b : UInt8} (h : b < 128) : toChar b < 128 := by
  simp only [UInt16.lt_iff_toNat_lt, UInt8.lt_iff_toNat_lt, toChar, UInt8.toNat_toUInt16] at h ⊢
  simp only [UInt8.reduceToNat, UInt16.reduceToNat] at h ⊢
  exact h

/-- The reply to ASCII bytes, as the client reads it: the header, the line and a line end. -/
theorem map_reply (server client : InetAddress) {bs : List UInt8} (hascii : ∀ b ∈ bs, b < 128) :
    (∀ b ∈ reply server client bs, b < 128) ∧
      (reply server client bs).map toChar = header server client ++ lineOf bs ++ [13, 10] ∧
      ∀ c ∈ header server client ++ lineOf bs, EchoClient.isText c = true := by
  have hheader := EchoServer.header_text server client
  have hlt : ∀ c ∈ header server client ++ lineOf bs, c < 128 := by
    intro c hc
    rcases List.mem_append.1 hc with hc | hc
    · exact (hheader c hc).1
    · obtain ⟨b, hb, -, rfl⟩ := mem_lineOf hc
      exact toChar_lt (hascii b hb)
  refine ⟨?_, ?_, ?_⟩
  · intro b hb
    rcases List.mem_append.1 hb with hb | hb
    · obtain ⟨c, hc, rfl⟩ := List.mem_map.1 hb
      exact write_lt (hlt c hc)
    · obtain rfl | rfl : b = 13 ∨ b = 10 := by simpa using hb
      all_goals decide
  · rw [reply, sendOut, List.map_append, map_toChar_write hlt]
    rfl
  · intro c hc
    rcases List.mem_append.1 hc with hc | hc
    · simpa [EchoClient.isText] using ⟨(hheader c hc).2.1, (hheader c hc).2.2.1⟩
    · obtain ⟨b, -, hb, rfl⟩ := mem_lineOf hc
      exact toChar_text hb

/-- **What `readIn` has returned** to a client with an ASCII message: the header with both addresses,
and the first line of its message without the backspaces, up to the longest request. -/
theorem Sound.newLine_of_finished (h : Sound decode server c) (hdecode : AsciiCompatible decode)
    (hpc : c.pc = .finished) (hascii : ∀ b ∈ c.caller.message.map write, b < 128) :
    c.newLine decode = some (header server c.caller.address ++
      (lineOf (writeOut c.caller.message)).filter (· ≠ EchoClient.T_BS)) := by
  have hwritten : ∀ b ∈ writeOut c.caller.message, b < 128 := by
    intro b hb
    rcases List.mem_append.1 hb with hb | hb
    · exact hascii b hb
    · obtain rfl | rfl : b = 13 ∨ b = 10 := by
        simpa [write, EchoClient.T_CR, EchoClient.T_LF] using hb
      all_goals decide
  -- the server has read a whole line
  have hends : EndsLine c.consumed := by
    have hside := h.side
    rcases h.left (.inl hpc) with hs | ⟨r, hs⟩
    · rw [hs] at hside
      exact hside.2.2.resolve_right (by simp [hpc])
    · rw [hs] at hside
      exact hside.2.2.resolve_right (by simp [hpc])
  have hline : lineOf c.consumed = lineOf (writeOut c.caller.message) := by
    obtain ⟨rest, hrest⟩ := h.consumed_writeOut
    rw [← hrest, hends.lineOf_append]
  obtain ⟨hlt, hmap, htext⟩ := map_reply server c.caller.address
    fun b hb => hwritten b (h.consumed_writeOut.subset hb)
  have hreceived : c.received <+: reply server c.caller.address c.consumed :=
    (List.prefix_append _ _).trans h.received_reply
  have hdecoded : decode c.received = c.received.map toChar :=
    hdecode _ fun b hb => hlt b (hreceived.subset hb)
  have hfilter : (header server c.caller.address).filter (· ≠ EchoClient.T_BS) =
      header server c.caller.address :=
    List.filter_eq_self.2 fun b hb =>
      decide_eq_true (EchoServer.header_text server c.caller.address b hb).2.2.2
  obtain ⟨rest, hrest⟩ : ∃ rest, c.received.map toChar =
      header server c.caller.address ++ lineOf c.consumed ++ 13 :: rest := by
    rcases h.finished hpc with hread | heq
    · rw [hdecoded] at hread
      exact exists_of_readIn htext (hmap ▸ hreceived.map toChar) hread
    · exact ⟨[10], by rw [heq, hmap]⟩
  rw [Conn.newLine, hdecoded, hrest, List.map_append, List.append_assoc, List.map_cons,
    List.cons_append]
  refine (EchoClient.readIn_line _ _).trans ?_
  rw [List.takeWhile_eq_self_iff.2 htext, List.filter_append, hfilter, hline]

/-! ## The steps that are left -/

/-- The longest reply to a client. -/
def replyBound (server client : InetAddress) : ℕ := (header server client).length + MAXCHARS + 2

theorem length_reply (server client : InetAddress) (bs : List UInt8) :
    (reply server client bs).length ≤ replyBound server client := by
  have hline := length_lineOf bs
  simp only [reply, sendOut, List.length_append, List.length_map, replyBound, List.length_cons,
    List.length_nil]
  omega

/-- Every byte is written, read by the server, or sent and read by the client. -/
def ClientPc.remaining (message : Utf16) : ClientPc → ℕ
  | .idle => 2 * (writeOut message).length + 3
  | .writing rest => 2 * rest.length + 2
  | .reading => 1
  | _ => 0

def Side.remaining (server client : InetAddress) : Side → ℕ
  | .none => 2 * replyBound server client + 3
  | .queued => 2 * replyBound server client + 3
  | .receiving _ => 2 * replyBound server client + 2
  | .sending rest => 2 * rest.length + 1
  | .closed => 0

def Conn.remaining (server : InetAddress) (c : Conn) : ℕ :=
  c.pc.remaining c.caller.message + c.toServer.length + c.side.remaining server c.caller.address +
    c.toClient.length

theorem Conn.remaining_call {a : CallerAction} (hd : c.call decode a = some d) :
    d.remaining server < c.remaining server := by
  cases a with
  | refuse =>
    simp only [call, Option.ite_none_right_eq_some, Option.some.injEq] at hd
    obtain ⟨hpc, rfl⟩ := hd
    simp only [remaining, hpc, ClientPc.remaining]
    omega
  | write =>
    simp only [call] at hd
    split at hd
    · rename_i b bs hpc
      obtain rfl := Option.some.inj hd
      simp only [remaining, hpc]
      split_ifs with hbs
      · simp only [ClientPc.remaining, hbs, List.length_append, List.length_cons, List.length_nil]
        omega
      · simp only [ClientPc.remaining, List.length_append, List.length_cons, List.length_nil]
        omega
    · cases hd
  | writeFails =>
    simp only [call] at hd
    split at hd
    · rename_i r hpc
      simp only [Option.ite_none_right_eq_some, Option.some.injEq] at hd
      obtain ⟨-, rfl⟩ := hd
      simp only [remaining, hpc, ClientPc.remaining]
      omega
    · cases hd
  | read =>
    simp only [call] at hd
    split at hd
    · rename_i b bs htoClient
      simp only [Option.ite_none_right_eq_some, Option.some.injEq] at hd
      obtain ⟨hpc, rfl⟩ := hd
      simp only [remaining, hpc, htoClient, List.length_cons]
      split_ifs <;> simp only [ClientPc.remaining] <;> omega
    · cases hd
  | readEnd =>
    simp only [call, Option.ite_none_right_eq_some, Option.some.injEq] at hd
    obtain ⟨⟨hpc, -⟩, rfl⟩ := hd
    simp only [remaining, hpc, ClientPc.remaining]
    omega
  | readFails =>
    simp only [call, Option.ite_none_right_eq_some, Option.some.injEq] at hd
    obtain ⟨⟨hpc, -⟩, rfl⟩ := hd
    simp only [remaining, hpc, ClientPc.remaining]
    omega
  | abort =>
    simp only [call] at hd
    split at hd
    · rename_i hpc
      obtain rfl := Option.some.inj hd
      simp only [remaining, hpc, ClientPc.remaining]
      omega
    · rename_i hpc
      obtain rfl := Option.some.inj hd
      simp only [remaining, hpc, ClientPc.remaining]
      omega
    · cases hd

/-- A reply is shorter than what was left before it. -/
theorem Side.remaining_sending (server client : InetAddress) (bs : List UInt8) (result : Utf16) :
    (Side.sending (reply server client bs)).remaining server client <
      (Side.receiving result).remaining server client := by
  have hlen := length_reply server client bs
  simp only [remaining]
  omega

theorem Sound.remaining_serve (h : Sound decode server c) {a : ServerAction}
    (hd : c.serve server a = some d) : d.remaining server < c.remaining server := by
  have hside := h.side
  cases a with
  | receive =>
    simp only [Conn.serve] at hd
    split at hd
    · rename_i result b bs hs htoServer
      obtain rfl := Option.some.inj hd
      rw [hs] at hside
      obtain ⟨hresult, htext, hlen, -⟩ := hside
      simp only [Conn.remaining, hs, htoServer, List.length_cons]
      rcases afterRead_spec hresult htext hlen server c.caller.address b with
        ⟨result', hafter, -⟩ | ⟨hafter, -⟩
      · rw [hafter]
        simp only [Side.remaining]
        omega
      · rw [hafter]
        have hlt := Side.remaining_sending server c.caller.address (c.consumed ++ [b]) result
        omega
    · cases hd
  | receiveEnd =>
    simp only [Conn.serve] at hd
    split at hd
    · rename_i result hs
      simp only [Option.ite_none_right_eq_some, Option.some.injEq] at hd
      obtain ⟨-, rfl⟩ := hd
      rw [hs] at hside
      obtain ⟨hresult, htext, hlen, -⟩ := hside
      have hreply : sendOut (header server c.caller.address ++ result) =
          reply server c.caller.address c.consumed := by
        rw [reply, lineOf_text htext (Nat.le_of_lt hlen), hresult]
      have hlt := Side.remaining_sending server c.caller.address c.consumed result
      simp only [Conn.remaining, hs, hreply]
      omega
    · cases hd
  | send =>
    simp only [Conn.serve] at hd
    split at hd
    · rename_i b bs hs
      obtain rfl := Option.some.inj hd
      simp only [Conn.remaining, hs, List.length_append, List.length_singleton]
      split_ifs with hbs
      · simp only [Side.remaining, List.length_cons]
        omega
      · simp only [Side.remaining, List.length_cons]
        omega
    · cases hd
  | sendFails =>
    simp only [Conn.serve] at hd
    split at hd
    · rename_i r hs
      simp only [Option.ite_none_right_eq_some, Option.some.injEq] at hd
      obtain ⟨-, rfl⟩ := hd
      simp only [Conn.remaining, hs, Side.remaining]
      omega
    · cases hd

theorem Conn.remaining_connected (hpc : c.pc = .idle) (hside : c.side = .none) :
    c.connected.remaining server < c.remaining server := by
  simp only [remaining, connected, hpc, hside, ClientPc.remaining, Side.remaining]
  omega

theorem Conn.remaining_accepted (hside : c.side = .queued) :
    c.accepted.remaining server < c.remaining server := by
  simp only [remaining, accepted, hside, Side.remaining]
  omega

end JavaEcho

end Server6
