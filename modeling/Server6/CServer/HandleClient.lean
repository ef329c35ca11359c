import Mathlib.Algebra.GroupWithZero.Nat
import Server6.Foundations.CString

/-!
# The echo loop of the C servers

`handle_client` of `server6.c` and of `server66.c`, which are the same text: receive into a zeroed
buffer, send back as many bytes as `strlen` counts there, and leave the loop once more than 64 bytes
have been counted, a test made between the chunks only.

* `handleClient` runs the loop over the results `recv` gives, round by round.
* `echoes_iff` is when every chunk is sent back as it came: when no chunk the loop consumes has a
  zero byte or fills the buffer.
* `handleStream_cuts` is what is sent of a stream that the network cuts in one way, and when two
  ways of cutting it give the same.
* `stopsAtEnd_iff` is when the loop ends with the connection: it takes an error for an empty string.
-/

namespace Server6

namespace CServer

/-- The size of the message buffer. -/
def MSGBUFLEN : ℕ := 8192

/-- What `recv` answers: that many bytes (none at the end of the stream), or -1. -/
inductive Recv
  | bytes (bs : List UInt8)
  | error
  deriving DecidableEq, Repr

/-- The value `recv` returns. -/
def Recv.rsize : Recv → Int
  | .bytes bs => bs.length
  | .error => -1

/-- The bytes it has written. -/
def Recv.data : Recv → List UInt8
  | .bytes bs => bs
  | .error => []

/-- The buffer, zeroed and then received into. -/
def Recv.buf (r : Recv) : List UInt8 :=
  r.data ++ List.replicate (MSGBUFLEN - r.data.length) 0

/-- How a call of `handle_client` ends: it returns, it waits in `recv`, or `strlen` leaves the
buffer. -/
inductive Outcome
  | returned (bytestotal : ℕ)
  | blocked
  | fault
  deriving DecidableEq, Repr

/-- A round of the loop: what `recv` has answered and what has been sent. -/
structure Round where
  recv : Recv
  sent : Option (List UInt8)
  deriving DecidableEq, Repr

/-- A call of `handle_client`: its rounds and its end. -/
structure Handled where
  rounds : List Round
  outcome : Outcome
  deriving DecidableEq, Repr

/-- The loop, entered with `bytestotal` bytes counted, over the results of `recv`. -/
def serve (c_sd : Int) (bytestotal : ℕ) : List Recv → Handled
  | [] => ⟨[], if c_sd > 0 ∧ bytestotal ≤ 64 then .blocked else .returned bytestotal⟩
  | r :: rs =>
    if c_sd > 0 ∧ bytestotal ≤ 64 then
      if r.rsize = 0 then ⟨[⟨r, none⟩], .returned bytestotal⟩
      else
        match strlen r.buf with
        | none => ⟨[⟨r, none⟩], .fault⟩
        | some n =>
          let rest := serve c_sd (bytestotal + n) rs
          ⟨⟨r, some (r.buf.take n)⟩ :: rest.rounds, rest.outcome⟩
    else ⟨[], .returned bytestotal⟩

/-- `handle_client`, on the descriptor in the global `c_sd`. -/
def handleClient (c_sd : Int) (rs : List Recv) : Handled := serve c_sd 0 rs

/-! ## Echoing every chunk -/

/-- A loop entered with `bytestotal` bytes counted sends back every chunk it consumes, returns with
their lengths counted too if it returns, and never scans beyond the buffer. -/
structure Echoes (bytestotal : ℕ) (h : Handled) : Prop where
  sent : ∀ r ∈ h.rounds, r.recv.data ≠ [] → r.sent = some r.recv.data
  total : ∀ n, h.outcome = .returned n →
    n = bytestotal + (h.rounds.map fun r => r.recv.data.length).sum
  no_fault : h.outcome ≠ .fault

/-- The chunks a loop consumes that counts every byte it receives. -/
def consumed (c_sd : Int) (bytestotal : ℕ) : List Recv → List (List UInt8)
  | [] => []
  | r :: rs =>
    if c_sd > 0 ∧ bytestotal ≤ 64 ∧ r.rsize ≠ 0 then
      r.data :: consumed c_sd (bytestotal + r.data.length) rs
    else []

/-- A chunk that is a string with its terminator in the buffer. -/
def IsString (bs : List UInt8) : Prop := 0 ∉ bs ∧ bs.length < MSGBUFLEN

instance (bs : List UInt8) : Decidable (IsString bs) := inferInstanceAs (Decidable (_ ∧ _))

/-- Such a chunk is counted and sent whole. -/
theorem IsString.strlen_buf {r : Recv} (h : IsString r.data) :
    strlen r.buf = some r.data.length ∧ r.buf.take r.data.length = r.data := by
  obtain ⟨hzero, hlen⟩ := h
  obtain ⟨k, hk⟩ : ∃ k, MSGBUFLEN - r.data.length = k + 1 :=
    ⟨MSGBUFLEN - r.data.length - 1, by omega⟩
  refine ⟨?_, List.take_left' rfl⟩
  rw [Recv.buf, hk, List.replicate_succ]
  exact strlen_append_zero hzero _

/-- And no other chunk of at most the buffer's size is. -/
theorem isString_of_strlen_buf {r : Recv} (hle : r.data.length ≤ MSGBUFLEN)
    (h : strlen r.buf = some r.data.length) : IsString r.data := by
  have hzero : 0 ∉ r.data := by
    intro hmem
    obtain ⟨n, hn, hlen⟩ := strlen_append_of_mem hmem (List.replicate (MSGBUFLEN - r.data.length) 0)
    rw [Recv.buf, hlen, Option.some.injEq] at h
    omega
  refine ⟨hzero, Nat.lt_of_le_of_ne hle fun hfull => ?_⟩
  -- a full buffer has no terminator
  have hbuf : r.buf = r.data := by
    rw [Recv.buf, hfull, Nat.sub_self, List.replicate_zero, List.append_nil]
  rw [hbuf, strlen_eq_none_iff.2 hzero] at h
  cases h

/-- What is sent is what was received only if all of it was counted. -/
theorem eq_length_of_take_buf {r : Recv} {n : ℕ} (hn : strlen r.buf = some n)
    (h : r.buf.take n = r.data) : n = r.data.length := by
  have hlt := lt_length_of_strlen hn
  rw [← h, List.length_take]
  omega

/-- After an error the buffer holds the empty string. -/
theorem eq_length_of_data_nil {r : Recv} {n : ℕ} (hn : strlen r.buf = some n) (h : r.data = []) :
    n = r.data.length := by
  have hstring : IsString r.data := by
    rw [h]
    decide
  exact Option.some.inj (hn.symm.trans hstring.strlen_buf.1)

/-- A round that has sent something, before the rest of the loop. -/
theorem echoes_cons_iff {bytestotal n : ℕ} {r : Recv} (hn : strlen r.buf = some n)
    (hle : r.data.length ≤ MSGBUFLEN) {rest : Handled} :
    Echoes bytestotal ⟨⟨r, some (r.buf.take n)⟩ :: rest.rounds, rest.outcome⟩ ↔
      IsString r.data ∧ Echoes (bytestotal + r.data.length) rest := by
  constructor
  · intro h
    have hlen : n = r.data.length := by
      by_cases hdata : r.data = []
      · exact eq_length_of_data_nil hn hdata
      · exact eq_length_of_take_buf hn (Option.some.inj (h.sent _ List.mem_cons_self hdata))
    refine ⟨isString_of_strlen_buf hle (hlen ▸ hn), fun r' hr' => h.sent r' (by simp [hr']), ?_,
      h.no_fault⟩
    intro m hm
    rw [h.total m hm]
    simp only [List.map_cons, List.sum_cons]
    omega
  · rintro ⟨hstring, h⟩
    obtain rfl : r.data.length = n := Option.some.inj (hstring.strlen_buf.1.symm.trans hn)
    refine ⟨fun r' hr' hdata => ?_, fun m hm => ?_, h.no_fault⟩
    · rcases List.mem_cons.1 hr' with rfl | hr'
      · exact congrArg some hstring.strlen_buf.2
      · exact h.sent r' hr' hdata
    · rw [h.total m hm]
      simp only [List.map_cons, List.sum_cons]
      omega

/-- The loop, from any count. -/
theorem echoes_serve_iff (c_sd : Int) {rs : List Recv}
    (hrs : ∀ r ∈ rs, r.data.length ≤ MSGBUFLEN) (bytestotal : ℕ) :
    Echoes bytestotal (serve c_sd bytestotal rs) ↔
      ∀ bs ∈ consumed c_sd bytestotal rs, IsString bs := by
  induction rs generalizing bytestotal with
  | nil =>
    refine iff_of_true ⟨by simp [serve], fun n hn => ?_, ?_⟩ (by simp [consumed])
    · simp only [serve] at hn
      split_ifs at hn
      cases hn
      simp [serve]
    · simp only [serve]
      split_ifs <;> simp
  | cons r rs ih =>
    have ih := ih (fun r' hr' => hrs r' (by simp [hr']))
    rw [serve, consumed]
    by_cases hloop : c_sd > 0 ∧ bytestotal ≤ 64
    · rw [if_pos hloop]
      by_cases hend : r.rsize = 0
      · have hdata : r.data = [] := by
          cases r with
          | bytes bs => simpa [Recv.rsize, Recv.data] using hend
          | error => rfl
        rw [if_pos hend, if_neg fun h => h.2.2 hend]
        refine iff_of_true ⟨?_, ?_, by simp⟩ (by simp)
        · intro r' hr' hne
          obtain rfl : r' = ⟨r, none⟩ := by simpa using hr'
          exact absurd hdata hne
        · intro n hn
          cases hn
          simp [hdata]
      · rw [if_neg hend, if_pos ⟨hloop.1, hloop.2, hend⟩, List.forall_mem_cons]
        cases hn : strlen r.buf with
        | none =>
          refine iff_of_false (fun h => h.no_fault rfl) fun h => ?_
          rw [h.1.strlen_buf.1] at hn
          cases hn
        | some n =>
          simp only
          rw [echoes_cons_iff hn (hrs r (by simp))]
          refine and_congr_right fun hstring => ?_
          obtain rfl : r.data.length = n := Option.some.inj (hstring.strlen_buf.1.symm.trans hn)
          exact ih _
    · rw [if_neg hloop, if_neg fun h => hloop ⟨h.1, h.2.1⟩]
      exact iff_of_true ⟨by simp, by simp, by simp⟩ (by simp)

/-- **When `handle_client` echoes**: exactly when no chunk that it would consume counting every byte
has a zero byte or fills the buffer. -/
theorem echoes_iff (c_sd : Int) (rs : List Recv) (hrs : ∀ r ∈ rs, r.data.length ≤ MSGBUFLEN) :
    Echoes 0 (handleClient c_sd rs) ↔ ∀ bs ∈ consumed c_sd 0 rs, IsString bs :=
  echoes_serve_iff c_sd hrs 0

/-- A short message and the end of the stream. -/
theorem echoes_hello :
    Echoes 0 (handleClient 4 [.bytes [104, 101, 108, 108, 111], .bytes []]) :=
  (echoes_iff 4 [.bytes [104, 101, 108, 108, 111], .bytes []] (by decide)).2 (by decide)

/-- A zero byte cuts the chunk short. -/
theorem not_echoes_zero : ¬ Echoes 0 (handleClient 4 [.bytes [104, 0, 105], .bytes []]) := by
  intro h
  have hsent := h.sent ⟨.bytes [104, 0, 105], some [104]⟩ (by decide) (by decide)
  cases hsent

/-! ## One stream, cut in different ways -/

/-- Chunks the network may deliver of a stream without zero bytes, one `recv` each. -/
def IsCut (ks : List (List UInt8)) : Prop := ∀ k ∈ ks, k ≠ [] ∧ IsString k

instance (ks : List (List UInt8)) : Decidable (IsCut ks) :=
  inferInstanceAs (Decidable (∀ k ∈ ks, _))

/-- `handle_client` on a stream that arrives in these chunks and then ends. -/
def handleStream (c_sd : Int) (ks : List (List UInt8)) : Handled :=
  handleClient c_sd (ks.map .bytes ++ [.bytes []])

/-- Everything a call has sent. -/
def Handled.allSent (h : Handled) : List UInt8 := h.rounds.flatMap fun r => r.sent.getD []

/-- The positions of a stream at which one chunk ends and the next begins, from `start` on. -/
def boundaries (start : ℕ) (ks : List (List UInt8)) : List ℕ :=
  (ks.map List.length).scanl (· + ·) start

/-- The first chunk boundary past 64, or else the end of the stream. -/
def cutoff (start : ℕ) (ks : List (List UInt8)) : ℕ :=
  ((boundaries start ks).find? (64 < ·)).getD (start + ks.flatten.length)

theorem cutoff_nil (start : ℕ) : cutoff start [] = start := by
  simp only [cutoff, boundaries, List.map_nil, List.scanl_nil, List.find?_singleton,
    List.flatten_nil, List.length_nil, Nat.add_zero]
  split_ifs <;> rfl

theorem cutoff_of_lt {start : ℕ} (h : 64 < start) (k : List UInt8) (ks : List (List UInt8)) :
    cutoff start (k :: ks) = start := by
  simp [cutoff, boundaries, List.scanl_cons, h]

theorem cutoff_cons {start : ℕ} (h : start ≤ 64) (k : List UInt8) (ks : List (List UInt8)) :
    cutoff start (k :: ks) = cutoff (start + k.length) ks := by
  have h : ¬ 64 < start := by omega
  simp [cutoff, boundaries, List.scanl_cons, h, Nat.add_assoc]

/-- At the end of the stream the loop returns what it has counted. -/
theorem serve_end (c_sd : Int) (start : ℕ) :
    (serve c_sd start [.bytes []]).allSent = [] ∧
      (serve c_sd start [.bytes []]).outcome = .returned start := by
  have hrsize : (Recv.bytes []).rsize = 0 := rfl
  rw [serve, if_pos hrsize]
  split_ifs <;> exact ⟨rfl, rfl⟩

/-- The loop serves a stream up to the cutoff. -/
theorem serve_cut {c_sd : Int} (hsd : 0 < c_sd) {ks : List (List UInt8)} (hks : IsCut ks)
    (start : ℕ) :
    start ≤ cutoff start ks ∧
      (serve c_sd start (ks.map .bytes ++ [.bytes []])).allSent =
        ks.flatten.take (cutoff start ks - start) ∧
      (serve c_sd start (ks.map .bytes ++ [.bytes []])).outcome =
        .returned (cutoff start ks) := by
  induction ks generalizing start with
  | nil =>
    obtain ⟨hsent, hret⟩ := serve_end c_sd start
    rw [cutoff_nil, Nat.sub_self, List.take_zero]
    exact ⟨Nat.le_refl _, hsent, hret⟩
  | cons k ks ih =>
    obtain ⟨hne, hstring⟩ := hks k (by simp)
    have hks : IsCut ks := fun k' hk' => hks k' (by simp [hk'])
    by_cases hstart : start ≤ 64
    · obtain ⟨hle, hsent, hret⟩ := ih hks (start + k.length)
      obtain ⟨hcount, htake⟩ := IsString.strlen_buf (r := .bytes k) hstring
      simp only [Recv.data] at hcount htake
      have hrsize : (Recv.bytes k).rsize ≠ 0 := by
        simpa [Recv.rsize] using hne
      rw [cutoff_cons hstart, List.map_cons, List.cons_append, serve, if_pos ⟨hsd, hstart⟩,
        if_neg hrsize]
      simp only [hcount, htake]
      refine ⟨by omega, ?_, hret⟩
      have hsplit : cutoff (start + k.length) ks - start =
          k.length + (cutoff (start + k.length) ks - (start + k.length)) := by
        omega
      rw [Handled.allSent] at hsent ⊢
      rw [List.flatMap_cons, hsent, List.flatten_cons, hsplit, List.take_length_add_append]
      rfl
    · rw [cutoff_of_lt (by omega)]
      refine ⟨Nat.le_refl _, ?_, ?_⟩
      · rw [List.map_cons, List.cons_append, serve, if_neg fun h => hstart h.2, Nat.sub_self]
        rfl
      · rw [List.map_cons, List.cons_append, serve, if_neg fun h => hstart h.2]

/-- The cutoff is in the stream, and is past 64 or at its end. -/
theorem cutoff_spec (start : ℕ) (ks : List (List UInt8)) :
    cutoff start ks ≤ start + ks.flatten.length ∧
      (cutoff start ks = start + ks.flatten.length ∨ 64 < cutoff start ks) := by
  induction ks generalizing start with
  | nil => simp [cutoff_nil]
  | cons k ks ih =>
    have hlen : (k :: ks).flatten.length = k.length + ks.flatten.length := by simp
    by_cases hstart : start ≤ 64
    · have := ih (start + k.length)
      rw [cutoff_cons hstart]
      omega
    · rw [cutoff_of_lt (by omega)]
      omega

/-- **What is served of a stream**: up to the first chunk boundary past 64 bytes, or all of it. Two
ways of cutting one stream are served alike exactly when they have that boundary at the same place,
and always where the stream has no more than 65 bytes. -/
theorem handleStream_cuts (c_sd : Int) (hsd : 0 < c_sd) (stream : List UInt8)
    (ks ks' : List (List UInt8)) (hks : IsCut ks) (hks' : IsCut ks') (hflat : ks.flatten = stream)
    (hflat' : ks'.flatten = stream) :
    ((handleStream c_sd ks).allSent = stream.take (cutoff 0 ks) ∧
      (handleStream c_sd ks).outcome = .returned (cutoff 0 ks) ∧ cutoff 0 ks ≤ stream.length) ∧
    ((handleStream c_sd ks).allSent = (handleStream c_sd ks').allSent ∧
        (handleStream c_sd ks).outcome = (handleStream c_sd ks').outcome ↔
      cutoff 0 ks = cutoff 0 ks') ∧
    (stream.length ≤ 65 → cutoff 0 ks = stream.length) := by
  obtain ⟨-, hsent, hret⟩ := serve_cut hsd hks 0
  obtain ⟨-, hsent', hret'⟩ := serve_cut hsd hks' 0
  obtain ⟨hle, hend⟩ := cutoff_spec 0 ks
  rw [hflat, Nat.zero_add] at hle hend
  rw [hflat, Nat.sub_zero] at hsent
  rw [hflat', Nat.sub_zero] at hsent'
  refine ⟨⟨hsent, hret, hle⟩, ?_, fun h => by omega⟩
  rw [handleStream, handleStream, handleClient, handleClient, hsent, hret, hsent', hret']
  constructor
  · rintro ⟨-, h⟩
    exact Outcome.returned.inj h
  · intro h
    exact ⟨by rw [h], by rw [h]⟩

/-- A stream of 130 bytes, in one chunk and in two. -/
theorem handleStream_cuts_ones :
    ((handleStream 4 [List.replicate 65 1, List.replicate 65 1]).allSent =
        (List.replicate 130 1).take (cutoff 0 [List.replicate 65 1, List.replicate 65 1]) ∧
      (handleStream 4 [List.replicate 65 1, List.replicate 65 1]).outcome =
        .returned (cutoff 0 [List.replicate 65 1, List.replicate 65 1]) ∧
      cutoff 0 [List.replicate 65 1, List.replicate 65 1] ≤
        (List.replicate 130 (1 : UInt8)).length) ∧
    ((handleStream 4 [List.replicate 65 1, List.replicate 65 1]).allSent =
        (handleStream 4 [List.replicate 130 1]).allSent ∧
      (handleStream 4 [List.replicate 65 1, List.replicate 65 1]).outcome =
        (handleStream 4 [List.replicate 130 1]).outcome ↔
      cutoff 0 [List.replicate 65 1, List.replicate 65 1] = cutoff 0 [List.replicate 130 1]) ∧
    ((List.replicate 130 (1 : UInt8)).length ≤ 65 →
      cutoff 0 [List.replicate 65 1, List.replicate 65 1] =
        (List.replicate 130 (1 : UInt8)).length) :=
  handleStream_cuts 4 (by decide) (List.replicate 130 1) _ _ (by decide) (by decide) (by decide)
    (by decide)

/-- In two chunks, the second half of the stream is left unread. -/
theorem handleStream_cut_differs :
    (IsCut [List.replicate 65 1, List.replicate 65 1] ∧ IsCut [List.replicate 130 1] ∧
      [List.replicate 65 (1 : UInt8), List.replicate 65 1].flatten =
        [List.replicate 130 1].flatten) ∧
    (handleStream 4 [List.replicate 65 1, List.replicate 65 1]).outcome ≠
      (handleStream 4 [List.replicate 130 1]).outcome := by
  have hcut : IsCut [List.replicate 65 1, List.replicate 65 1] := by decide
  have hcut' : IsCut [List.replicate 130 1] := by decide
  refine ⟨⟨hcut, hcut', by decide⟩, ?_⟩
  rw [handleStream, handleClient, (serve_cut (by decide) hcut 0).2.2, handleStream, handleClient,
    (serve_cut (by decide) hcut' 0).2.2]
  decide

/-! ## Ending the loop -/

/-- What the rounds have counted: each its own string. -/
def counted (rounds : List Round) : ℕ := (rounds.map fun r => (r.sent.getD []).length).sum

/-- A loop entered with `bytestotal` bytes counted ends with the first result that is not positive:
nothing is received or sent any more, and it returns what it has counted. -/
def StopsAtEnd (bytestotal : ℕ) (h : Handled) : Prop :=
  ∀ pre r post, h.rounds = pre ++ r :: post → r.recv.rsize ≤ 0 →
    post = [] ∧ r.sent = none ∧ h.outcome = .returned (bytestotal + counted pre)

/-- No error comes while the loop is running: before each of them the descriptor was invalid, the
stream ended, a scan left the buffer, or more than 64 bytes were counted. -/
def ErrorsUnread (c_sd : Int) (bytestotal : ℕ) (rs : List Recv) : Prop :=
  ∀ pre post, rs = pre ++ .error :: post →
    c_sd ≤ 0 ∨ .bytes [] ∈ pre ∨ (∃ r ∈ pre, strlen r.buf = none) ∨
      64 < bytestotal + (pre.map fun r => (strlen r.buf).getD 0).sum

theorem length_take_buf {r : Recv} {n : ℕ} (hn : strlen r.buf = some n) :
    (r.buf.take n).length = n := by
  have hlt := lt_length_of_strlen hn
  rw [List.length_take]
  omega

/-- A round that has sent something, before the rest of the loop. -/
theorem stopsAtEnd_cons_iff {bytestotal n : ℕ} {r : Recv} (hn : strlen r.buf = some n)
    {rest : Handled} :
    StopsAtEnd bytestotal ⟨⟨r, some (r.buf.take n)⟩ :: rest.rounds, rest.outcome⟩ ↔
      0 < r.rsize ∧ StopsAtEnd (bytestotal + n) rest := by
  have hcount : ∀ pre, counted (⟨r, some (r.buf.take n)⟩ :: pre) = n + counted pre := by
    intro pre
    show ((r.buf.take n).length :: _).sum = _
    rw [List.sum_cons, length_take_buf hn]
    rfl
  constructor
  · intro h
    constructor
    · by_contra hpos
      obtain ⟨-, hsent, -⟩ := h [] _ rest.rounds rfl (Int.not_lt.1 hpos)
      cases hsent
    · intro pre r' post hrounds hsize
      obtain ⟨hpost, hsent, hret⟩ := h (⟨r, some (r.buf.take n)⟩ :: pre) r' post
        (congrArg _ hrounds) hsize
      refine ⟨hpost, hsent, hret.trans ?_⟩
      rw [hcount, Nat.add_assoc]
  · rintro ⟨hpos, h⟩ pre r' post hrounds hsize
    rcases pre with _ | ⟨r₀, pre⟩
    · -- the first round has received something
      obtain ⟨rfl, -⟩ := List.cons.inj hrounds
      exact absurd hpos (Int.not_lt.2 hsize)
    · obtain ⟨rfl, hrest⟩ := List.cons.inj hrounds
      obtain ⟨hpost, hsent, hret⟩ := h pre r' post hrest hsize
      refine ⟨hpost, hsent, hret.trans ?_⟩
      rw [hcount, Nat.add_assoc]

/-- A result that the running loop counts, before the others. -/
theorem errorsUnread_cons_iff {c_sd : Int} {bytestotal n : ℕ} {r : Recv} {rs : List Recv}
    (hloop : c_sd > 0 ∧ bytestotal ≤ 64) (hend : r.rsize ≠ 0) (hn : strlen r.buf = some n) :
    ErrorsUnread c_sd bytestotal (r :: rs) ↔
      0 < r.rsize ∧ ErrorsUnread c_sd (bytestotal + n) rs := by
  have hsum : ∀ pre : List Recv, bytestotal + ((r :: pre).map fun r => (strlen r.buf).getD 0).sum =
      bytestotal + n + (pre.map fun r => (strlen r.buf).getD 0).sum := by
    intro pre
    rw [List.map_cons, List.sum_cons, hn, Option.getD_some, Nat.add_assoc]
  have hne : r ≠ .bytes [] := by
    rintro rfl
    exact hend rfl
  constructor
  · intro hunread
    constructor
    · cases r with
      | bytes bs =>
        exact Int.lt_iff_le_and_ne.2 ⟨Int.natCast_nonneg _, Ne.symm hend⟩
      | error =>
        rcases hunread [] rs rfl with h | h | ⟨_, h, -⟩ | h
        · omega
        · cases h
        · cases h
        · have h : 64 < bytestotal := h
          omega
    · intro pre post hrs
      rcases hunread (r :: pre) post (congrArg _ hrs) with h | h | ⟨r', hr', h⟩ | h
      · exact .inl h
      · exact .inr (.inl ((List.mem_cons.1 h).resolve_left (Ne.symm hne)))
      · rcases List.mem_cons.1 hr' with rfl | hr'
        · rw [hn] at h
          cases h
        · exact .inr (.inr (.inl ⟨r', hr', h⟩))
      · rw [hsum] at h
        exact .inr (.inr (.inr h))
  · rintro ⟨hpos, h⟩ pre post hrs
    rcases pre with _ | ⟨r₀, pre⟩
    · obtain ⟨rfl, -⟩ := List.cons.inj hrs
      exact absurd hpos (by decide)
    · obtain ⟨rfl, htail⟩ := List.cons.inj hrs
      rw [hsum]
      rcases h pre post htail with h | h | ⟨r', hr', h⟩ | h
      · exact .inl h
      · exact .inr (.inl (by simp [h]))
      · exact .inr (.inr (.inl ⟨r', by simp [hr'], h⟩))
      · exact .inr (.inr (.inr h))

theorem strlen_buf_error : strlen Recv.error.buf = some 0 :=
  strlen_append_zero List.not_mem_nil _

/-- Where the loop stops before the next result, no error in it or behind it is read. -/
theorem errorsUnread_of_stop {c_sd : Int} {bytestotal : ℕ} {r : Recv} {rs : List Recv}
    (h : ¬ (c_sd > 0 ∧ bytestotal ≤ 64) ∨ r.rsize = 0 ∨ strlen r.buf = none) :
    ErrorsUnread c_sd bytestotal (r :: rs) := by
  intro pre post hrs
  rcases h with h | h | h
  · by_cases hsd : c_sd > 0
    · exact .inr (.inr (.inr (by omega)))
    · exact .inl (by omega)
  · rcases pre with _ | ⟨r₀, pre⟩
    · obtain ⟨rfl, -⟩ := List.cons.inj hrs
      exact absurd h (by decide)
    · obtain ⟨rfl, -⟩ := List.cons.inj hrs
      have hnil : r = .bytes [] := by
        cases r with
        | bytes bs => simpa [Recv.rsize] using h
        | error => exact absurd h (by decide)
      exact .inr (.inl (by simp [hnil]))
  · rcases pre with _ | ⟨r₀, pre⟩
    · obtain ⟨rfl, -⟩ := List.cons.inj hrs
      rw [strlen_buf_error] at h
      cases h
    · obtain ⟨rfl, -⟩ := List.cons.inj hrs
      exact .inr (.inr (.inl ⟨r, by simp, h⟩))

theorem eq_of_singleton_eq {r r' : Round} {pre post : List Round}
    (h : [r] = pre ++ r' :: post) : pre = [] ∧ r' = r ∧ post = [] := by
  rcases pre with _ | ⟨_, pre⟩
  · simpa [eq_comm] using h
  · simp at h

/-- The loop ends as it should, from any count, exactly if it reads no error. -/
theorem stopsAtEnd_serve_iff (c_sd : Int) (rs : List Recv) (bytestotal : ℕ) :
    StopsAtEnd bytestotal (serve c_sd bytestotal rs) ↔ ErrorsUnread c_sd bytestotal rs := by
  induction rs generalizing bytestotal with
  | nil =>
    refine iff_of_true (fun pre r post h => ?_) fun pre post h => ?_
    · exact absurd h (by simp [serve])
    · exact absurd h (by simp)
  | cons r rs ih =>
    rw [serve]
    by_cases hloop : c_sd > 0 ∧ bytestotal ≤ 64
    · rw [if_pos hloop]
      by_cases hend : r.rsize = 0
      · rw [if_pos hend]
        refine iff_of_true ?_ (errorsUnread_of_stop (.inr (.inl hend)))
        intro pre r' post hrounds hsize
        obtain ⟨rfl, rfl, rfl⟩ := eq_of_singleton_eq hrounds
        exact ⟨rfl, rfl, rfl⟩
      · rw [if_neg hend]
        cases hn : strlen r.buf with
        | none =>
          refine iff_of_true ?_ (errorsUnread_of_stop (.inr (.inr hn)))
          intro pre r' post hrounds hsize
          obtain ⟨rfl, rfl, rfl⟩ := eq_of_singleton_eq hrounds
          -- after an error the scan stays in the buffer
          cases r with
          | bytes bs => exact absurd (Int.le_antisymm hsize (Int.natCast_nonneg _)) hend
          | error =>
            rw [strlen_buf_error] at hn
            cases hn
        | some n =>
          show StopsAtEnd bytestotal
            ⟨⟨r, some (r.buf.take n)⟩ :: (serve c_sd (bytestotal + n) rs).rounds, _⟩ ↔ _
          rw [stopsAtEnd_cons_iff hn, errorsUnread_cons_iff hloop hend hn, ih]
    · rw [if_neg hloop]
      refine iff_of_true (fun pre r' post h => ?_) (errorsUnread_of_stop (.inl hloop))
      exact absurd h (by simp)

/-- **When `handle_client` ends with the connection**: exactly when no error is read while the loop is
running. -/
theorem stopsAtEnd_iff (c_sd : Int) (rs : List Recv) :
    StopsAtEnd 0 (handleClient c_sd rs) ↔ ErrorsUnread c_sd 0 rs :=
  stopsAtEnd_serve_iff c_sd rs 0

/-- After an error the loop sends nothing once more and goes on receiving. -/
theorem not_stopsAtEnd_error : ¬ StopsAtEnd 0 (handleClient 4 [.error, .bytes []]) := by
  intro h
  obtain ⟨-, hsent, -⟩ := h [] ⟨.error, some []⟩ [⟨.bytes [], none⟩] (by decide) (by decide)
  cases hsent

end CServer

end Server6
