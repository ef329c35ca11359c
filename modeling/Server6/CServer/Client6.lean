import Server6.CServer.HandleClient

/-!
# The echo client

`main` of `client6.c` copies its words into the uninitialised `outmsg` without ever writing a
terminator, and `ping` formats that string into `inbuf`, sends it, and receives the reply into the
uninitialised `outbuf` with a single `recv`.

* `copyWords_eq` is what the loop leaves: the copied words, before what the buffer held there.
* `prepares_iff` is when that is a string and fits `inbuf` with the line end `ping` adds.
* `ping_returns_iff` is when `outbuf` holds the reply: when its old content completes the first
  chunk.
-/

namespace Server6

namespace CServer

namespace Client6

/-- A `char[MSGBUFLEN]`, whatever it holds. -/
abbrev Buffer := { bs : List UInt8 // bs.length = MSGBUFLEN }

/-- A string argument. -/
abbrev CStr := { bs : List UInt8 // 0 ∉ bs }

/-! ## The code -/

/-- The loop of `main` over `argv[3]` and the words behind it: the buffer and `outlen`, or `none` if
a write leaves the buffer. -/
def copyWords (outmsg : List UInt8) (outlen : ℕ) : List CStr → Option (List UInt8 × ℕ)
  | [] => some (outmsg, outlen)
  | word :: words =>
    if outlen + word.val.length < MSGBUFLEN then do
      let outmsg ← strncpy outmsg outlen word.val word.val.length
      let outlen := outlen + word.val.length
      let outmsg ← strncpy outmsg outlen [32] 1
      copyWords outmsg (outlen + 1) words
    else some (outmsg, outlen)

/-- `sprintf(inbuf, "%s\r\n\0", msg)`: the format ends at the zero written in it. -/
def formatPing (inbuf msg : List UInt8) : Option (List UInt8) := store inbuf 0 (msg ++ [13, 10, 0])

/-- What `ping` has sent and what it leaves in `outbuf`. -/
structure Pinged where
  sent : List UInt8
  outbuf : List UInt8
  deriving DecidableEq, Repr

/-- `ping`, with what `recv` answers; `none` if an access leaves a buffer. -/
def ping (msg inbuf outbuf : List UInt8) (r : Recv) : Option Pinged := do
  let inbuf ← formatPing inbuf msg
  let len ← strlen inbuf
  let outbuf := overwrite r.data outbuf
  let outlen ← strlen outbuf
  let outbuf ← strncpy outbuf outlen [] (MSGBUFLEN - outlen)
  return ⟨inbuf.take len, outbuf⟩

/-! ## Copying the words -/

/-- The words the loop copies: those before the first one that does not fit. -/
def copied (outlen : ℕ) : List CStr → List CStr
  | [] => []
  | word :: words =>
    if outlen + word.val.length < MSGBUFLEN then
      word :: copied (outlen + word.val.length + 1) words
    else []

/-- The words, each followed by a space. -/
def message (words : List CStr) : List UInt8 := words.flatMap fun word => word.val ++ [32]

theorem message_cons (word : CStr) (words : List CStr) :
    message (word :: words) = word.val ++ [32] ++ message words := List.flatMap_cons

theorem zero_notMem_message (words : List CStr) : 0 ∉ message words := by
  intro h
  obtain ⟨word, -, h⟩ := List.mem_flatMap.1 h
  rcases List.mem_append.1 h with h | h
  · exact word.property h
  · exact absurd h (by decide)

/-- The writes of one word and its space, behind what has been copied. -/
theorem strncpy_word {done word outmsg : List UInt8}
    (h : done.length + word.length < outmsg.length) :
    strncpy (overwrite done outmsg) done.length word word.length =
        some (overwrite (done ++ word) outmsg) ∧
      strncpy (overwrite (done ++ word) outmsg) (done.length + word.length) [32] 1 =
        some (overwrite (done ++ word ++ [32]) outmsg) := by
  have hword : word.take word.length ++ List.replicate (word.length - word.length) 0 = word := by
    rw [Nat.sub_self, List.take_length, List.replicate_zero, List.append_nil]
  constructor
  · unfold strncpy
    rw [hword]
    exact store_overwrite (by omega)
  · have hlen : done.length + word.length = (done ++ word).length := List.length_append.symm
    unfold strncpy
    rw [hlen]
    exact store_overwrite (by simp; omega)

/-- **What the loop leaves**, after the text `done`: it never writes outside the buffer. -/
theorem copyWords_eq {outmsg : List UInt8} (hbuf : outmsg.length = MSGBUFLEN) (words : List CStr)
    (done : List UInt8) :
    copyWords (overwrite done outmsg) done.length words =
      some (overwrite (done ++ message (copied done.length words)) outmsg,
        (done ++ message (copied done.length words)).length) := by
  induction words generalizing done with
  | nil =>
    show some _ = some (overwrite (done ++ []) outmsg, (done ++ []).length)
    rw [List.append_nil]
  | cons word words ih =>
    rw [copyWords, copied]
    by_cases hfit : done.length + word.val.length < MSGBUFLEN
    · obtain ⟨hword, hspace⟩ :=
        strncpy_word (show done.length + word.val.length < outmsg.length by omega)
      have hlen : done.length + word.val.length + 1 = (done ++ word.val ++ [32]).length := by
        rw [List.length_append, List.length_append]
        rfl
      have hrest : done ++ (word.val ++ [32] ++ message
          (copied (done.length + word.val.length + 1) words)) =
          done ++ word.val ++ [32] ++ message
            (copied (done.length + word.val.length + 1) words) := by
        simp
      rw [if_pos hfit, if_pos hfit, hword]
      show (strncpy _ (done.length + word.val.length) [32] 1).bind _ = _
      rw [hspace]
      show copyWords _ (done.length + word.val.length + 1) words = _
      rw [message_cons, hrest, hlen]
      exact ih (done ++ word.val ++ [32])
    · rw [if_neg hfit, if_neg hfit]
      show some _ = some (overwrite (done ++ []) outmsg, (done ++ []).length)
      rw [List.append_nil]

/-- The text of an argument vector. -/
def text (argv : List CStr) : List UInt8 := message (copied 0 (argv.drop 3))

theorem copyWords_argv (argv : List CStr) (outmsg : Buffer) :
    copyWords outmsg.val 0 (argv.drop 3) =
      some (overwrite (text argv) outmsg.val, (text argv).length) :=
  copyWords_eq outmsg.property (argv.drop 3) []

/-- What is copied ends inside the buffer. -/
theorem length_message_copied {outlen : ℕ} (h : outlen ≤ MSGBUFLEN) (words : List CStr) :
    outlen + (message (copied outlen words)).length ≤ MSGBUFLEN := by
  induction words generalizing outlen with
  | nil => exact h
  | cons word words ih =>
    rw [copied]
    split_ifs with hfit
    · have hrest := ih (show outlen + word.val.length + 1 ≤ MSGBUFLEN by omega)
      rw [message_cons, List.length_append, List.length_append, List.length_singleton]
      omega
    · exact h

theorem length_text (argv : List CStr) : (text argv).length ≤ MSGBUFLEN := by
  have h := length_message_copied (Nat.zero_le MSGBUFLEN) (argv.drop 3)
  rwa [Nat.zero_add] at h

/-- `main` has prepared a message: the loop stayed in `outmsg`, which now holds exactly the copied
words as a string, and what `ping` formats from it fits `inbuf`. -/
def Prepares (argv : List CStr) (outmsg inbuf : Buffer) : Prop :=
  ∃ buf outlen, copyWords outmsg.val 0 (argv.drop 3) = some (buf, outlen) ∧
    cstring buf = some (text argv) ∧ ∃ inbuf', formatPing inbuf.val (text argv) = some inbuf'

theorem formatPing_eq_some_iff {inbuf msg : List UInt8} :
    (∃ inbuf', formatPing inbuf msg = some inbuf') ↔ msg.length + 3 ≤ inbuf.length := by
  have hlen : (msg ++ [13, 10, 0]).length = msg.length + 3 := by simp
  unfold formatPing store
  rw [hlen, Nat.zero_add]
  split_ifs with h
  · exact iff_of_true ⟨_, rfl⟩ h
  · exact iff_of_false (fun ⟨_, h⟩ => by cases h) h

/-- The copied words are a string exactly if the byte behind them is zero. -/
theorem cstring_text_iff {argv : List CStr} {outmsg : Buffer} :
    cstring (overwrite (text argv) outmsg.val) = some (text argv) ↔
      outmsg.val[(text argv).length]? = some 0 := by
  have h : cstring (overwrite (text argv) outmsg.val) = some (text argv ++ []) ↔
      [] ++ [0] <+: outmsg.val.drop (text argv).length := by
    apply cstring_overwrite_iff
    rw [List.append_nil]
    exact zero_notMem_message _
  rw [List.append_nil] at h
  rw [h, List.nil_append, ← List.head?_drop]
  rcases outmsg.val.drop (text argv).length with _ | ⟨b, bs⟩ <;> simp [eq_comm]

/-- **When `main` prepares its message**: the copying never leaves the buffer, and it leaves a string
that `ping` can format exactly when the byte behind the copied words was zero before and they have
at most `MSGBUFLEN - 3` bytes. -/
theorem prepares_iff (argv : List CStr) (outmsg inbuf : Buffer) :
    (∃ buf outlen, copyWords outmsg.val 0 (argv.drop 3) = some (buf, outlen) ∧
      buf.length = MSGBUFLEN ∧ outlen ≤ MSGBUFLEN) ∧
    (Prepares argv outmsg inbuf ↔
      outmsg.val[(text argv).length]? = some 0 ∧ (text argv).length + 3 ≤ MSGBUFLEN) := by
  have hlen := length_text argv
  have hcopy := copyWords_argv argv outmsg
  refine ⟨⟨_, _, hcopy, ?_, hlen⟩, ?_⟩
  · rw [length_overwrite (by rw [outmsg.property]; exact hlen)]
    exact outmsg.property
  unfold Prepares
  rw [formatPing_eq_some_iff, inbuf.property]
  constructor
  · rintro ⟨buf, outlen, hbuf, hstring, hfit⟩
    obtain ⟨rfl, rfl⟩ := Prod.mk.inj (Option.some.inj (hcopy.symm.trans hbuf))
    exact ⟨cstring_text_iff.1 hstring, hfit⟩
  · rintro ⟨hzero, hfit⟩
    exact ⟨_, _, hcopy, cstring_text_iff.2 hzero, hfit⟩

/-- With its name only and no word to copy, `main` sends what the stack held. -/
theorem not_prepares_no_words :
    ¬ Prepares [⟨[99, 108, 105, 101, 110, 116, 54], by decide⟩]
      ⟨List.replicate MSGBUFLEN 1, List.length_replicate⟩
      ⟨List.replicate MSGBUFLEN 0, List.length_replicate⟩ := by
  rintro ⟨buf, outlen, hbuf, hstring, -⟩
  obtain ⟨rfl, -⟩ := Prod.mk.inj (Option.some.inj hbuf)
  obtain ⟨-, rest, hrest⟩ := cstring_eq_some_iff.1 hstring
  change List.replicate MSGBUFLEN 1 = [] ++ 0 :: rest at hrest
  -- no byte of the buffer is a terminator
  have hmem : (0 : UInt8) ∈ List.replicate MSGBUFLEN 1 := by
    rw [hrest]
    simp
  exact absurd (List.eq_of_mem_replicate hmem) (by decide)

/-! ## Sending and receiving -/

/-- **What `ping` does** with a string that fits: it sends the string and the line end, and leaves
the string `outbuf` holds after one `recv`, if it holds one, before zeros. -/
theorem ping_eq {msg : List UInt8} (hmsg : 0 ∉ msg) (hfit : msg.length + 3 ≤ MSGBUFLEN)
    (inbuf outbuf : Buffer) {r : Recv} (hr : r.data.length ≤ MSGBUFLEN) :
    ping msg inbuf.val outbuf.val r =
      (cstring (overwrite r.data outbuf.val)).map fun s =>
        ⟨msg ++ [13, 10], s ++ List.replicate (MSGBUFLEN - s.length) 0⟩ := by
  have hline : 0 ∉ msg ++ [13, 10] := by
    rw [List.mem_append, not_or]
    exact ⟨hmsg, by decide⟩
  have hformat : formatPing inbuf.val msg =
      some (msg ++ [13, 10] ++ 0 :: inbuf.val.drop (msg.length + 3)) := by
    unfold formatPing
    rw [store_zero (by rw [inbuf.property, List.length_append]; exact hfit)]
    unfold overwrite
    rw [List.length_append]
    simp
  have hout : (overwrite r.data outbuf.val).length = MSGBUFLEN := by
    rw [length_overwrite (by rw [outbuf.property]; exact hr), outbuf.property]
  unfold ping
  rw [hformat]
  show (strlen _).bind _ = _
  rw [strlen_append_zero hline]
  show (strlen _).bind _ = _
  cases hn : strlen (overwrite r.data outbuf.val) with
  | none =>
    unfold cstring
    rw [hn]
    rfl
  | some n =>
    have hlt := lt_length_of_strlen hn
    have hs : cstring (overwrite r.data outbuf.val) =
        some ((overwrite r.data outbuf.val).take n) := by
      unfold cstring
      rw [hn, Option.map_some]
    have hlen : ((overwrite r.data outbuf.val).take n).length = n := by
      rw [List.length_take]
      omega
    have hterm := strncpy_cstring hs (n := MSGBUFLEN - n) (by omega)
    rw [hlen] at hterm
    rw [hs, Option.map_some, hlen]
    show (strncpy _ n [] (MSGBUFLEN - n)).bind _ = _
    rw [hterm]
    show some (Pinged.mk ((msg ++ [13, 10] ++ _).take (msg ++ [13, 10]).length) _) = _
    rw [List.take_left' rfl]

/-- `ping` returns with exactly the string `reply` in `outbuf`. -/
def Returns (msg : List UInt8) (inbuf outbuf : Buffer) (r : Recv) (reply : List UInt8) : Prop :=
  ∃ p, ping msg inbuf.val outbuf.val r = some p ∧ cstring p.outbuf = some reply

/-- The zeros `ping` writes leave the string that was received. -/
theorem returns_iff {msg : List UInt8} (hmsg : 0 ∉ msg) (hfit : msg.length + 3 ≤ MSGBUFLEN)
    (inbuf outbuf : Buffer) {r : Recv} (hr : r.data.length ≤ MSGBUFLEN) (reply : List UInt8) :
    Returns msg inbuf outbuf r reply ↔ cstring (overwrite r.data outbuf.val) = some reply := by
  have hout : (overwrite r.data outbuf.val).length = MSGBUFLEN := by
    rw [length_overwrite (by rw [outbuf.property]; exact hr), outbuf.property]
  have hkeep : ∀ s, cstring (overwrite r.data outbuf.val) = some s →
      cstring (s ++ List.replicate (MSGBUFLEN - s.length) 0) = some s := by
    intro s hs
    obtain ⟨hzero, rest, hrest⟩ := cstring_eq_some_iff.1 hs
    obtain ⟨m, hm⟩ : ∃ m, MSGBUFLEN - s.length = m + 1 := by
      rw [hrest, List.length_append, List.length_cons] at hout
      exact ⟨rest.length, by omega⟩
    rw [hm, List.replicate_succ]
    exact cstring_append_zero hzero _
  unfold Returns
  rw [ping_eq hmsg hfit inbuf outbuf hr]
  constructor
  · rintro ⟨p, hp, hreply⟩
    obtain ⟨s, hs, rfl⟩ := Option.map_eq_some_iff.1 hp
    rw [hs, ← hkeep s hs]
    exact hreply
  · intro hs
    exact ⟨_, by rw [hs, Option.map_some], hkeep reply hs⟩

/-- **When `ping` returns the reply**: the server sends the message and a line end back, in chunks of
which `ping` receives the first. It returns them exactly when the uninitialised `outbuf` goes on
with the other chunks and a terminator. -/
theorem ping_returns_iff (msg : List UInt8) (hmsg : 0 ∉ msg) (hfit : msg.length + 3 ≤ MSGBUFLEN)
    (inbuf outbuf : Buffer) (k : List UInt8) (ks : List (List UInt8))
    (hreply : (k :: ks).flatten = msg ++ [13, 10]) :
    Returns msg inbuf outbuf (.bytes k) (msg ++ [13, 10]) ↔
      ks.flatten ++ [0] <+: outbuf.val.drop k.length := by
  rw [List.flatten_cons] at hreply
  have hzero : 0 ∉ k ++ ks.flatten := by
    rw [hreply, List.mem_append, not_or]
    exact ⟨hmsg, by decide⟩
  have hk : k.length ≤ MSGBUFLEN := by
    have hlen := congrArg List.length hreply
    rw [List.length_append, List.length_append] at hlen
    have htwo : [13, (10 : UInt8)].length = 2 := rfl
    omega
  rw [returns_iff (r := .bytes k) hmsg hfit inbuf outbuf hk, ← hreply]
  exact cstring_overwrite_iff hzero

/-- One chunk, received before a zero byte. -/
theorem ping_returns_hi :
    Returns [104, 105] ⟨List.replicate MSGBUFLEN 1, List.length_replicate⟩
      ⟨List.replicate MSGBUFLEN 0, List.length_replicate⟩ (.bytes [104, 105, 13, 10])
      ([104, 105] ++ [13, 10]) :=
  (ping_returns_iff [104, 105] (by decide) (by decide) _ _ [104, 105, 13, 10] [] rfl).2 (by
    rw [List.drop_replicate]
    exact ⟨List.replicate 8187 0, List.replicate_succ.symm⟩)

/-- The same chunk, received before another byte. -/
theorem not_ping_returns_stale :
    ¬ Returns [104, 105] ⟨List.replicate MSGBUFLEN 1, List.length_replicate⟩
      ⟨List.replicate MSGBUFLEN 1, List.length_replicate⟩ (.bytes [104, 105, 13, 10])
      ([104, 105] ++ [13, 10]) := by
  rw [returns_iff (by decide) (by decide) _ _ (by decide)]
  intro h
  have hbehind := (cstring_overwrite_iff
    (show 0 ∉ ([104, 105, 13, 10] : List UInt8) ++ [] by decide)).1 h
  -- the byte behind the chunk is the old one
  have hmem := List.mem_of_mem_drop (hbehind.subset (a := 0) (by simp))
  exact absurd (List.eq_of_mem_replicate hmem) (by decide)

end Client6

end CServer

end Server6
