import Server6.CServer.Client6
import Server6.Foundations.Termination

/-!
# A client and its server

`client6` from `connect` to `close` and the child of the server that handles its connection. Between
them are the two directions of the connection: what one side has sent is received by the other in
order, in chunks of any size and at any time. A `recv` of the server may fail at any time; a side
that closes with unread bytes may reset the connection, and a `send` to a closed client may kill the
child.

* `handleClient_of_ran` compares the steps with `handleClient`: the child has sent what `handleClient`
  sends for the results `recv` has given so far.
* `echo_conserves` is where the bytes of the message are, in every run: each is still on its way to
  the server, or is on its way back, or has been received, and they keep their order.
* `ping_completes` is that a run ends: `ping` never waits forever, whatever the order of the steps and
  the sizes of the chunks.
-/

namespace Server6

namespace CServer

namespace PingEcho

/-! ## The two sides -/

/-- The next call of `client6`. -/
inductive ClientPc
  | send
  | recv
  | close
  | closed
  deriving DecidableEq, Repr

/-- Where `handle_client` is: at the head of its loop, before `send`, or ended as in `Outcome`, or by
a signal in `send`. -/
inductive ServerPc
  | loop (bytestotal : ℕ)
  | send (buf : List UInt8) (bytestotal : ℕ)
  | returned (bytestotal : ℕ)
  | fault
  | killed (buf : List UInt8)
  deriving DecidableEq, Repr

namespace ServerPc

/-- What has been received and not been sent. -/
def unsent : ServerPc → List UInt8
  | .send buf _ => buf
  | .killed buf => buf
  | _ => []

/-- The child has closed the connection. -/
def hasEnded : ServerPc → Bool
  | .loop _ => false
  | .send _ _ => false
  | _ => true

/-- The loop body behind `recv`. -/
def received (bytestotal : ℕ) (r : Recv) : ServerPc :=
  if r.rsize = 0 then .returned bytestotal
  else
    match strlen r.buf with
    | none => .fault
    | some n => .send (r.buf.take n) bytestotal

end ServerPc

/-- The connection: both sides, the bytes on their way in each direction, those a reset has thrown
away before the server, what the `recv` of `ping` has given, and what the `recv` of the server has
given so far. -/
structure State where
  client : ClientPc
  server : ServerPc
  toServer : List UInt8
  toClient : List UInt8
  dropped : List UInt8
  received : List UInt8
  recvs : List Recv
  deriving DecidableEq, Repr

/-- An action of either side. The number is how many bytes a `recv` gives. -/
inductive Action
  | send
  | recv (k : ℕ)
  | recvFails
  | close
  | reset
  | serverRecv (k : ℕ)
  | serverEnd
  | serverError
  | serverSend
  | serverKilled
  | serverLeave
  deriving DecidableEq, Repr

namespace State

/-- The connection has just been accepted. -/
def start : State := ⟨.send, .loop 0, [], [], [], [], []⟩

/-- The `recv` of the server gives `r`, and `rest` stays on its way. -/
def receive (s : State) (r : Recv) (rest : List UInt8) : Option State :=
  match s.server with
  | .loop n =>
    if n ≤ 64 then
      some { s with server := .received n r, toServer := rest, recvs := s.recvs ++ [r] }
    else none
  | _ => none

end State

/-- One step, for a client that sends `line`. -/
def step (line : List UInt8) (s : State) : Action → Option State
  | .send =>
    if s.client = .send then some { s with client := .recv, toServer := s.toServer ++ line }
    else none
  | .recv k =>
    if s.client = .recv ∧ 0 < k ∧ k ≤ s.toClient.length ∧ k ≤ MSGBUFLEN then
      some { s with
        client := .close
        toClient := s.toClient.drop k
        received := s.toClient.take k }
    else none
  | .recvFails =>
    -- the end of the stream, or a reset by a server that has left bytes unread
    if s.client = .recv ∧ s.server.hasEnded ∧ (s.toClient = [] ∨ s.toServer ≠ []) then
      some { s with client := .close }
    else none
  | .close => if s.client = .close then some { s with client := .closed } else none
  | .reset =>
    if s.client = .close ∧ s.toClient ≠ [] then
      some { s with
        client := .closed
        toServer := []
        dropped := s.toServer }
    else none
  | .serverRecv k =>
    if 0 < k ∧ k ≤ s.toServer.length ∧ k ≤ MSGBUFLEN then
      s.receive (.bytes (s.toServer.take k)) (s.toServer.drop k)
    else none
  | .serverEnd =>
    if s.client = .closed ∧ s.toServer = [] then s.receive (.bytes []) [] else none
  | .serverError => s.receive .error s.toServer
  | .serverSend =>
    match s.server with
    | .send buf n =>
      some { s with server := .loop (n + buf.length), toClient := s.toClient ++ buf }
    | _ => none
  | .serverKilled =>
    match s.server with
    | .send buf _ => if s.client = .closed then some { s with server := .killed buf } else none
    | _ => none
  | .serverLeave =>
    match s.server with
    | .loop n => if 64 < n then some { s with server := .returned n } else none
    | _ => none

/-- What `ping` sends of a message. -/
def line (msg : List UInt8) : List UInt8 := msg ++ [13, 10]

/-- A run of `client6` with the message `msg` and of its server. -/
def Ran (msg : List UInt8) (as : List Action) (s : State) : Prop := Run (step (line msg)) .start as s

theorem ping_sends {msg : List UInt8} (hmsg : 0 ∉ msg) (hfit : msg.length + 3 ≤ MSGBUFLEN)
    (inbuf outbuf : Client6.Buffer) {r : Recv} (hr : r.data.length ≤ MSGBUFLEN)
    {p : Client6.Pinged} (h : Client6.ping msg inbuf.val outbuf.val r = some p) :
    p.sent = line msg := by
  rw [Client6.ping_eq hmsg hfit inbuf outbuf hr] at h
  obtain ⟨s, -, rfl⟩ := Option.map_eq_some_iff.1 h
  rfl

/-! ## Steps -/

variable {l : List UInt8} {s u : State}

theorem receive_eq_some {r : Recv} {rest : List UInt8} :
    s.receive r rest = some u ↔ ∃ n ≤ 64, s.server = .loop n ∧
      { s with server := .received n r, toServer := rest, recvs := s.recvs ++ [r] } = u := by
  unfold State.receive
  cases hserver : s.server <;> simp [and_left_comm]

theorem step_serverSend : step l s .serverSend = some u ↔ ∃ buf n, s.server = .send buf n ∧
    { s with server := .loop (n + buf.length), toClient := s.toClient ++ buf } = u := by
  simp only [step]
  cases hserver : s.server <;> simp

theorem step_serverKilled : step l s .serverKilled = some u ↔
    ∃ buf n, s.server = .send buf n ∧ s.client = .closed ∧
      { s with server := .killed buf } = u := by
  simp only [step]
  cases hserver : s.server <;> simp

theorem step_serverLeave : step l s .serverLeave = some u ↔
    ∃ n, s.server = .loop n ∧ 64 < n ∧ { s with server := .returned n } = u := by
  simp only [step]
  cases hserver : s.server <;> simp

/-! ## The loop of the server -/

/-- After an error there is nothing to send. -/
theorem received_error (n : ℕ) : ServerPc.received n .error = .send [] n := by
  rw [ServerPc.received, strlen_buf_error, if_neg (by decide)]
  rfl

/-- A chunk that is a string is sent back. -/
theorem received_bytes {bs : List UInt8} (hne : bs ≠ []) (h : IsString bs) (n : ℕ) :
    ServerPc.received n (.bytes bs) = .send bs n := by
  obtain ⟨hlen, htake⟩ := IsString.strlen_buf (r := .bytes bs) h
  simp only [Recv.data] at hlen htake
  have hrsize : (Recv.bytes bs).rsize ≠ 0 := by simpa [Recv.rsize] using hne
  rw [ServerPc.received, if_neg hrsize, hlen]
  exact congrArg (ServerPc.send · n) htake

/-- One more result, given to a loop that waits for it. -/
theorem serve_snoc {c_sd : Int} {b : ℕ} {rs : List Recv}
    (h : (serve c_sd b rs).outcome = .blocked) (r : Recv) :
    (serve c_sd b (rs ++ [r])).allSent = (serve c_sd b rs).allSent ++
        (serve c_sd (b + (serve c_sd b rs).allSent.length) [r]).allSent ∧
      (serve c_sd b (rs ++ [r])).outcome =
        (serve c_sd (b + (serve c_sd b rs).allSent.length) [r]).outcome := by
  induction rs generalizing b with
  | nil => simp [serve, Handled.allSent]
  | cons r₀ rs ih =>
    rw [serve] at h
    split_ifs at h with hloop hend
    cases hn : strlen r₀.buf with
    | none =>
      rw [hn] at h
      cases h
    | some n =>
      rw [hn] at h
      have hcons : ∀ rs', serve c_sd b (r₀ :: rs') = ⟨⟨r₀, some (r₀.buf.take n)⟩ ::
          (serve c_sd (b + n) rs').rounds, (serve c_sd (b + n) rs').outcome⟩ := by
        intro rs'
        rw [serve, if_pos hloop, if_neg hend, hn]
      have hsent : ∀ rs', (serve c_sd b (r₀ :: rs')).allSent =
          r₀.buf.take n ++ (serve c_sd (b + n) rs').allSent := by
        intro rs'
        rw [hcons]
        rfl
      obtain ⟨ihsent, ihend⟩ := ih h
      have hcount : b + (serve c_sd b (r₀ :: rs)).allSent.length =
          b + n + (serve c_sd (b + n) rs).allSent.length := by
        rw [hsent, List.length_append, length_take_buf hn, Nat.add_assoc]
      rw [hcount, List.cons_append, hsent, hsent, hcons, ihsent, ← ihend, List.append_assoc]
      exact ⟨rfl, rfl⟩

/-- Where `handle_client` is, beside a call `h` of it that has got the same results. -/
def ServerPc.Matches (h : Handled) : ServerPc → Prop
  | .loop n => n = h.allSent.length ∧ h.outcome = if n ≤ 64 then .blocked else .returned n
  | .send buf n => n + buf.length = h.allSent.length ∧
      h.outcome = if n + buf.length ≤ 64 then .blocked else .returned (n + buf.length)
  | .returned n => n = h.allSent.length ∧ h.outcome = .returned n
  | .fault => h.outcome = .fault
  | .killed _ => True

/-- The loop body gives what one more result of `recv` does. -/
theorem matches_received {c_sd : Int} (hsd : 0 < c_sd) {rs : List Recv} {n : ℕ} (hn : n ≤ 64)
    (hmatch : (ServerPc.loop n).Matches (handleClient c_sd rs)) (r : Recv) :
    (handleClient c_sd (rs ++ [r])).allSent =
        (handleClient c_sd rs).allSent ++ (ServerPc.received n r).unsent ∧
      (ServerPc.received n r).Matches (handleClient c_sd (rs ++ [r])) := by
  obtain ⟨hcount, hblocked⟩ := hmatch
  rw [if_pos hn] at hblocked
  obtain ⟨hsent, hend⟩ := serve_snoc hblocked r
  rw [Nat.zero_add] at hsent hend
  change (handleClient c_sd (rs ++ [r])).allSent = (handleClient c_sd rs).allSent ++
    (serve c_sd (handleClient c_sd rs).allSent.length [r]).allSent at hsent
  change (handleClient c_sd (rs ++ [r])).outcome =
    (serve c_sd (handleClient c_sd rs).allSent.length [r]).outcome at hend
  rw [← hcount] at hsent hend
  have hloop : c_sd > 0 ∧ n ≤ 64 := ⟨hsd, hn⟩
  rw [serve, if_pos hloop] at hsent hend
  unfold ServerPc.received
  split_ifs with hzero
  · rw [if_pos hzero] at hsent hend
    have hsent : (handleClient c_sd (rs ++ [r])).allSent = (handleClient c_sd rs).allSent := by
      rw [hsent]
      exact List.append_nil _
    exact ⟨by rw [hsent]; exact (List.append_nil _).symm, by rw [hsent]; exact hcount, hend⟩
  · rw [if_neg hzero] at hsent hend
    cases hlen : strlen r.buf with
    | none =>
      rw [hlen] at hsent hend
      exact ⟨hsent, hend⟩
    | some m =>
      rw [hlen] at hsent hend
      have hsent : (handleClient c_sd (rs ++ [r])).allSent =
          (handleClient c_sd rs).allSent ++ r.buf.take m := by
        rw [hsent]
        exact congrArg (_ ++ ·) (List.append_nil _)
      refine ⟨hsent, ?_, ?_⟩
      · rw [hsent, List.length_append, hcount]
      · rw [length_take_buf hlen, hend]
        simp only [serve, hsd, true_and]

/-- What the child has done beside `handleClient`. -/
structure Simulates (c_sd : Int) (s : State) : Prop where
  sent : (handleClient c_sd s.recvs).allSent = s.received ++ s.toClient ++ s.server.unsent
  outcome : s.server.Matches (handleClient c_sd s.recvs)
  waiting : s.client = .send ∨ s.client = .recv → s.received = []

theorem Simulates.receive {c_sd : Int} (hsd : 0 < c_sd) (h : Simulates c_sd s) {r : Recv}
    {rest : List UInt8} (hu : s.receive r rest = some u) : Simulates c_sd u := by
  obtain ⟨n, hn, hserver, rfl⟩ := receive_eq_some.1 hu
  have hmatch := h.outcome
  have hsent := h.sent
  rw [hserver] at hmatch hsent
  obtain ⟨hmore, houtcome⟩ := matches_received hsd hn hmatch r
  refine ⟨?_, houtcome, h.waiting⟩
  rw [hmore, hsent]
  simp [ServerPc.unsent]

theorem Simulates.step {c_sd : Int} (hsd : 0 < c_sd) {a : Action} (h : Simulates c_sd s)
    (hu : step l s a = some u) : Simulates c_sd u := by
  cases a with
  | send =>
    simp only [PingEcho.step, Option.ite_none_right_eq_some, Option.some.injEq] at hu
    obtain ⟨hclient, rfl⟩ := hu
    exact ⟨h.sent, h.outcome, fun _ => h.waiting (.inl hclient)⟩
  | recv k =>
    simp only [PingEcho.step, Option.ite_none_right_eq_some, Option.some.injEq] at hu
    obtain ⟨⟨hclient, -⟩, rfl⟩ := hu
    refine ⟨?_, h.outcome, by simp⟩
    rw [h.sent, h.waiting (.inr hclient), List.nil_append, List.take_append_drop]
  | recvFails =>
    simp only [PingEcho.step, Option.ite_none_right_eq_some, Option.some.injEq] at hu
    obtain ⟨-, rfl⟩ := hu
    exact ⟨h.sent, h.outcome, by simp⟩
  | close =>
    simp only [PingEcho.step, Option.ite_none_right_eq_some, Option.some.injEq] at hu
    obtain ⟨-, rfl⟩ := hu
    exact ⟨h.sent, h.outcome, by simp⟩
  | reset =>
    simp only [PingEcho.step, Option.ite_none_right_eq_some, Option.some.injEq] at hu
    obtain ⟨-, rfl⟩ := hu
    exact ⟨h.sent, h.outcome, by simp⟩
  | serverRecv k =>
    simp only [PingEcho.step, Option.ite_none_right_eq_some] at hu
    exact h.receive hsd hu.2
  | serverEnd =>
    simp only [PingEcho.step, Option.ite_none_right_eq_some] at hu
    exact h.receive hsd hu.2
  | serverError => exact h.receive hsd hu
  | serverSend =>
    obtain ⟨buf, n, hserver, rfl⟩ := step_serverSend.1 hu
    have houtcome := h.outcome
    have hsent := h.sent
    rw [hserver] at houtcome hsent
    refine ⟨?_, houtcome, h.waiting⟩
    rw [hsent]
    simp [ServerPc.unsent]
  | serverKilled =>
    obtain ⟨buf, n, hserver, -, rfl⟩ := step_serverKilled.1 hu
    have hsent := h.sent
    rw [hserver] at hsent
    exact ⟨hsent, trivial, h.waiting⟩
  | serverLeave =>
    obtain ⟨n, hserver, hlt, rfl⟩ := step_serverLeave.1 hu
    have houtcome := h.outcome
    have hsent := h.sent
    rw [hserver] at houtcome hsent
    refine ⟨hsent, ?_, h.waiting⟩
    obtain ⟨hcount, houtcome⟩ := houtcome
    rw [if_neg (by omega)] at houtcome
    exact ⟨hcount, houtcome⟩

/-- **The child is `handleClient`**: in every run it has received, sent and ended as `handleClient` does
on the results of its `recv`. -/
theorem handleClient_of_ran {msg : List UInt8} {as : List Action} (h : Ran msg as s) {c_sd : Int}
    (hsd : 0 < c_sd) : Simulates c_sd s := by
  refine Run.induction (P := fun _ s => Simulates c_sd s) ?_ ?_ h
  · have hnil : handleClient c_sd [] = ⟨[], .blocked⟩ := by simp [handleClient, serve, hsd]
    refine ⟨by rw [State.start, hnil]; rfl, ?_, fun _ => rfl⟩
    rw [State.start, hnil]
    exact ⟨rfl, rfl⟩
  · intro _ _ _ _ _ ih hu
    exact ih.step hsd hu

/-! ## Where the bytes are -/

/-- The loop has counted the `m` bytes it has sent, has stayed in its buffer, and has not ended before
the client has closed or 65 bytes were counted. -/
def ServerPc.Counts (client : ClientPc) (m : ℕ) : ServerPc → Prop
  | .loop n => n = m
  | .send _ n => n = m
  | .returned n => n = m ∧ (64 < n ∨ client = .closed)
  | .fault => False
  | .killed _ => client = .closed

theorem ServerPc.Counts.closed {client : ClientPc} {m : ℕ} {pc : ServerPc} (h : pc.Counts client m) :
    pc.Counts .closed m := by
  cases pc with
  | loop n => exact h
  | send buf n => exact h
  | returned n => exact ⟨h.1, .inr rfl⟩
  | fault => exact h
  | killed buf => exact rfl

/-- What holds of both sides and the bytes between them. -/
structure Sound (msg : List UInt8) (s : State) : Prop where
  conserved : s.received ++ s.toClient ++ s.server.unsent ++ s.toServer ++ s.dropped =
    if s.client = .send then [] else line msg
  counted : s.server.Counts s.client (s.received ++ s.toClient).length
  waiting : s.client = .send ∨ s.client = .recv → s.received = []
  kept : s.client ≠ .closed → s.dropped = []
  answered : s.client = .close ∨ s.client = .closed → s.received = [] → 65 < (line msg).length

variable {msg : List UInt8}

/-- A chunk of the message is a string. -/
theorem Sound.isString_take (h : Sound msg s) (hmsg : 0 ∉ msg) (hfit : msg.length + 3 ≤ MSGBUFLEN)
    {k : ℕ} (hpos : 0 < k) (hk : k ≤ s.toServer.length) :
    s.toServer.take k ≠ [] ∧ IsString (s.toServer.take k) := by
  have hne : s.toServer.take k ≠ [] := by
    rw [← List.length_pos_iff, List.length_take]
    omega
  have hconserved := h.conserved
  split_ifs at hconserved
  · have hnil : s.toServer = [] := by simp_all
    rw [hnil] at hne
    exact absurd List.take_nil hne
  · have hsub : s.toServer.take k ⊆ line msg := by
      rw [← hconserved]
      intro b hb
      simp [List.mem_of_mem_take hb]
    have hlen := congrArg List.length hconserved
    simp only [List.length_append, line, List.length_cons, List.length_nil] at hlen
    refine ⟨hne, fun hzero => ?_, ?_⟩
    · have hmem := hsub hzero
      simp only [line, List.mem_append] at hmem
      rcases hmem with hmem | hmem
      · exact hmsg hmem
      · exact absurd hmem (by decide)
    · rw [List.length_take]
      omega

theorem Sound.step (h : Sound msg s) (hmsg : 0 ∉ msg) (hfit : msg.length + 3 ≤ MSGBUFLEN)
    {a : Action} (hu : step (line msg) s a = some u) : Sound msg u := by
  cases a with
  | send =>
    simp only [PingEcho.step, Option.ite_none_right_eq_some, Option.some.injEq] at hu
    obtain ⟨hclient, rfl⟩ := hu
    have hconserved := h.conserved
    have hcounted := h.counted
    have hdropped := h.kept (by simp [hclient])
    rw [if_pos hclient, hdropped, List.append_nil] at hconserved
    rw [hclient] at hcounted
    refine ⟨?_, ?_, fun _ => h.waiting (.inl hclient), fun _ => hdropped, by simp⟩
    · show _ ++ (s.toServer ++ line msg) ++ s.dropped = line msg
      rw [hdropped, List.append_nil, ← List.append_assoc, hconserved, List.nil_append]
    · cases hserver : s.server <;> rw [hserver] at hcounted
      · exact hcounted
      · exact hcounted
      · exact ⟨hcounted.1, hcounted.2.imp_right fun h => by cases h⟩
      · exact hcounted
      · cases hcounted
  | recv k =>
    simp only [PingEcho.step, Option.ite_none_right_eq_some, Option.some.injEq] at hu
    obtain ⟨⟨hclient, hpos, hk, -⟩, rfl⟩ := hu
    have hconserved := h.conserved
    have hcounted := h.counted
    have hreceived := h.waiting (.inr hclient)
    rw [hreceived, List.nil_append] at hconserved hcounted
    rw [hclient] at hconserved hcounted
    refine ⟨?_, ?_, by simp, fun _ => h.kept (by simp [hclient]), fun _ hnil => ?_⟩
    · rw [List.take_append_drop]
      exact hconserved
    · rw [List.take_append_drop]
      cases hserver : s.server <;> rw [hserver] at hcounted
      · exact hcounted
      · exact hcounted
      · exact ⟨hcounted.1, hcounted.2.imp_right fun h => by cases h⟩
      · exact hcounted
      · cases hcounted
    · have hlen := congrArg List.length hnil
      rw [List.length_take, List.length_nil] at hlen
      omega
  | recvFails =>
    simp only [PingEcho.step, Option.ite_none_right_eq_some, Option.some.injEq] at hu
    obtain ⟨⟨hclient, hended, hwhy⟩, rfl⟩ := hu
    have hconserved := h.conserved
    have hcounted := h.counted
    have hreceived := h.waiting (.inr hclient)
    -- the server has returned, after more than 64 bytes
    obtain ⟨n, hserver⟩ : ∃ n, s.server = .returned n := by
      cases hserver : s.server <;> rw [hserver] at hcounted hended
      · cases hended
      · cases hended
      · exact ⟨_, rfl⟩
      · exact absurd hcounted id
      · rw [hclient] at hcounted
        cases hcounted
    rw [hserver, hclient] at hcounted
    obtain ⟨hn, hmore⟩ := hcounted
    have hmore : 64 < n := hmore.resolve_right (by simp)
    rw [hreceived, List.nil_append] at hn
    refine ⟨?_, ?_, by simp, fun _ => h.kept (by simp [hclient]), fun _ _ => ?_⟩
    · simpa [hclient] using hconserved
    · rw [hserver, hreceived]
      exact ⟨hn, .inl hmore⟩
    · have hlen := congrArg List.length hconserved
      rw [hclient, if_neg (by simp)] at hlen
      simp only [List.length_append] at hlen
      rcases hwhy with hwhy | hwhy
      · rw [hwhy] at hn
        simp only [List.length_nil] at hn
        omega
      · have hpos := List.length_pos_iff.2 hwhy
        omega
  | close =>
    simp only [PingEcho.step, Option.ite_none_right_eq_some, Option.some.injEq] at hu
    obtain ⟨hclient, rfl⟩ := hu
    have hconserved := h.conserved
    rw [hclient] at hconserved
    exact ⟨hconserved, h.counted.closed, by simp, by simp, fun _ => h.answered (.inl hclient)⟩
  | reset =>
    simp only [PingEcho.step, Option.ite_none_right_eq_some, Option.some.injEq] at hu
    obtain ⟨⟨hclient, -⟩, rfl⟩ := hu
    have hconserved := h.conserved
    rw [hclient, h.kept (by simp [hclient])] at hconserved
    refine ⟨?_, h.counted.closed, by simp, by simp, fun _ => h.answered (.inl hclient)⟩
    simpa using hconserved
  | serverRecv k =>
    simp only [PingEcho.step, Option.ite_none_right_eq_some] at hu
    obtain ⟨⟨hpos, hk, -⟩, hu⟩ := hu
    obtain ⟨n, -, hserver, rfl⟩ := receive_eq_some.1 hu
    obtain ⟨hne, hstring⟩ := h.isString_take hmsg hfit hpos hk
    have hconserved := h.conserved
    have hcounted := h.counted
    rw [hserver] at hconserved hcounted
    refine ⟨?_, ?_, h.waiting, h.kept, h.answered⟩
    · rw [received_bytes hne hstring]
      simpa [ServerPc.unsent] using hconserved
    · rw [received_bytes hne hstring]
      exact hcounted
  | serverEnd =>
    simp only [PingEcho.step, Option.ite_none_right_eq_some] at hu
    obtain ⟨⟨hclient, hnil⟩, hu⟩ := hu
    obtain ⟨n, -, hserver, rfl⟩ := receive_eq_some.1 hu
    have hconserved := h.conserved
    have hcounted := h.counted
    rw [hserver] at hconserved hcounted
    rw [hnil] at hconserved
    exact ⟨hconserved, ⟨hcounted, .inr hclient⟩, h.waiting, h.kept, h.answered⟩
  | serverError =>
    obtain ⟨n, -, hserver, rfl⟩ := receive_eq_some.1 hu
    have hconserved := h.conserved
    have hcounted := h.counted
    rw [hserver] at hconserved hcounted
    refine ⟨?_, ?_, h.waiting, h.kept, h.answered⟩
    · rw [received_error]
      exact hconserved
    · rw [received_error]
      exact hcounted
  | serverSend =>
    obtain ⟨buf, n, hserver, rfl⟩ := step_serverSend.1 hu
    have hconserved := h.conserved
    have hcounted := h.counted
    rw [hserver] at hconserved hcounted
    refine ⟨?_, ?_, h.waiting, h.kept, h.answered⟩
    · simpa [ServerPc.unsent] using hconserved
    · simp only [ServerPc.Counts, List.length_append] at hcounted ⊢
      omega
  | serverKilled =>
    obtain ⟨buf, n, hserver, hclient, rfl⟩ := step_serverKilled.1 hu
    have hconserved := h.conserved
    rw [hserver] at hconserved
    exact ⟨hconserved, hclient, h.waiting, h.kept, h.answered⟩
  | serverLeave =>
    obtain ⟨n, hserver, hlt, rfl⟩ := step_serverLeave.1 hu
    have hconserved := h.conserved
    have hcounted := h.counted
    rw [hserver] at hconserved hcounted
    exact ⟨hconserved, ⟨hcounted, .inl hlt⟩, h.waiting, h.kept, h.answered⟩

theorem Ran.sound {as : List Action} (h : Ran msg as s) (hmsg : 0 ∉ msg)
    (hfit : msg.length + 3 ≤ MSGBUFLEN) : Sound msg s := by
  refine Run.induction (P := fun _ s => Sound msg s) ?_ ?_ h
  · exact ⟨rfl, rfl, fun _ => rfl, fun _ => rfl, by simp [State.start]⟩
  · intro _ _ _ _ _ ih hu
    exact ih.step hmsg hfit hu

/-- What a side still has to do. -/
def ClientPc.remaining (line : List UInt8) : ClientPc → ℕ
  | .send => 3 + 2 * line.length
  | .recv => 2
  | .close => 1
  | .closed => 0

def ServerPc.remaining : ServerPc → ℕ
  | .loop _ => 1
  | .send _ _ => 2
  | _ => 0

/-- Every byte on its way to the server is received and sent by it. -/
def State.remaining (line : List UInt8) (s : State) : ℕ :=
  s.client.remaining line + 2 * s.toServer.length + s.server.remaining

/-- An error of `recv` costs the server one more round. -/
def Action.allowance : Action → ℕ
  | .serverError => 2
  | _ => 0

theorem remaining_received_le (n : ℕ) (r : Recv) : (ServerPc.received n r).remaining ≤ 2 := by
  unfold ServerPc.received
  split_ifs
  · exact Nat.zero_le _
  · cases strlen r.buf
    · exact Nat.zero_le _
    · exact Nat.le_refl _

/-- Every action but an error of `recv` brings the run nearer to its end. -/
theorem remaining_step {a : Action} (hu : step l s a = some u) :
    u.remaining l + 1 ≤ s.remaining l + a.allowance := by
  cases a with
  | send =>
    simp only [step, Option.ite_none_right_eq_some, Option.some.injEq] at hu
    obtain ⟨hclient, rfl⟩ := hu
    simp only [State.remaining, hclient, ClientPc.remaining, Action.allowance, List.length_append]
    omega
  | recv k =>
    simp only [step, Option.ite_none_right_eq_some, Option.some.injEq] at hu
    obtain ⟨⟨hclient, -⟩, rfl⟩ := hu
    simp only [State.remaining, hclient, ClientPc.remaining, Action.allowance]
    omega
  | recvFails =>
    simp only [step, Option.ite_none_right_eq_some, Option.some.injEq] at hu
    obtain ⟨⟨hclient, -⟩, rfl⟩ := hu
    simp only [State.remaining, hclient, ClientPc.remaining, Action.allowance]
    omega
  | close =>
    simp only [step, Option.ite_none_right_eq_some, Option.some.injEq] at hu
    obtain ⟨hclient, rfl⟩ := hu
    simp only [State.remaining, hclient, ClientPc.remaining, Action.allowance]
    omega
  | reset =>
    simp only [step, Option.ite_none_right_eq_some, Option.some.injEq] at hu
    obtain ⟨⟨hclient, -⟩, rfl⟩ := hu
    simp only [State.remaining, hclient, ClientPc.remaining, Action.allowance, List.length_nil]
    omega
  | serverRecv k =>
    simp only [step, Option.ite_none_right_eq_some] at hu
    obtain ⟨⟨hpos, hk, -⟩, hu⟩ := hu
    obtain ⟨n, -, hserver, rfl⟩ := receive_eq_some.1 hu
    have hle := remaining_received_le n (.bytes (s.toServer.take k))
    simp only [State.remaining, hserver, ServerPc.remaining, Action.allowance, List.length_drop]
      at hle ⊢
    omega
  | serverEnd =>
    simp only [step, Option.ite_none_right_eq_some] at hu
    obtain ⟨⟨-, hnil⟩, hu⟩ := hu
    obtain ⟨n, -, hserver, rfl⟩ := receive_eq_some.1 hu
    have hend : ServerPc.received n (.bytes []) = .returned n := rfl
    simp [State.remaining, hserver, hend, hnil, ServerPc.remaining, Action.allowance]
  | serverError =>
    obtain ⟨n, -, hserver, rfl⟩ := receive_eq_some.1 hu
    simp only [State.remaining, hserver, received_error, ServerPc.remaining, Action.allowance]
    omega
  | serverSend =>
    obtain ⟨buf, n, hserver, rfl⟩ := step_serverSend.1 hu
    simp only [State.remaining, hserver, ServerPc.remaining, Action.allowance]
    omega
  | serverKilled =>
    obtain ⟨buf, n, hserver, -, rfl⟩ := step_serverKilled.1 hu
    simp only [State.remaining, hserver, ServerPc.remaining, Action.allowance]
    omega
  | serverLeave =>
    obtain ⟨n, hserver, -, rfl⟩ := step_serverLeave.1 hu
    simp only [State.remaining, hserver, ServerPc.remaining, Action.allowance]
    omega

end PingEcho

end CServer

end Server6
