import Server6.Java.ConnectionEnd
import Server6.Java.EchoSystem
import Server6.Foundations.Termination

/-!
# The end of a run of the Java echo server

`echo_completes`: every run of the server and its clients ends, and leaves no client waiting. A step
that is not a failure is possible as long as a client is up and has not finished: the first connection of
a backlog is accepted once the thread is free (`Inv.idle_of_stopped`), and one that is served can be read
from, sent to or written to (`Sound.exists_progress`).
-/

namespace Server6

namespace JavaEcho

open EchoServer (header)
open EchoClient (writeOut AsciiCompatible)

variable {decode : List UInt8 → Utf16} {addresses : List InetAddress} {callers : List Caller}
  {s u : State} {as : List Action} {conns : List Conn} {t : ℕ} {th : Thread} {i j : ℕ} {c d e : Conn}

/-! ## The steps that are left -/

/-- The steps that are left of the run. -/
def State.remaining (addresses : List InetAddress) (s : State) : ℕ :=
  (s.conns.map fun c => c.remaining (addressOf addresses c.caller)).sum

/-- A step without a failure. -/
def Action.isProgress : Action → Bool
  | .connect _ => true
  | .call _ .write => true
  | .call _ .read => true
  | .call _ .readEnd => true
  | .call _ _ => false
  | .accept _ => true
  | .serve _ .sendFails => false
  | .serve _ _ => true

theorem State.remaining_set {threads : List Thread} (hi : s.conns[i]? = some c)
    (hcaller : d.caller = c.caller)
    (hlt : d.remaining (addressOf addresses c.caller) < c.remaining (addressOf addresses c.caller)) :
    State.remaining addresses ⟨threads, s.conns.set i d⟩ < s.remaining addresses := by
  refine sum_map_set_lt (fun c : Conn => c.remaining (addressOf addresses c.caller)) hi ?_
  rwa [hcaller]

/-- Every step brings the run nearer to its end. -/
theorem Inv.remaining_step (h : Inv decode addresses callers as s) {a : Action}
    (hu : step decode addresses s a = some u) :
    u.remaining addresses < s.remaining addresses := by
  cases a with
  | connect i =>
    obtain ⟨c, th, hi, hth, hpc, -, rfl⟩ := step_connect.1 hu
    have hc := h.sound c (List.mem_of_getElem? hi)
    exact State.remaining_set (d := c.connected) hi rfl
      (Conn.remaining_connected hpc (hc.fresh.2 (.inl hpc)))
  | call i a =>
    obtain ⟨c, d, hi, hd, rfl⟩ := step_call.1 hu
    exact State.remaining_set hi (Conn.call_keeps hd).1 (Conn.remaining_call hd)
  | accept t =>
    obtain ⟨finished, i, queue, c, hth, hi, rfl⟩ := step_accept.1 hu
    obtain ⟨e, he, -, hqueued⟩ := (h.lists t _ hth).1.queue i List.mem_cons_self
    obtain rfl := Option.some.inj (hi.symm.trans he)
    exact State.remaining_set (d := c.accepted) hi rfl (Conn.remaining_accepted hqueued)
  | serve t a =>
    obtain ⟨finished, i, queue, c, d, hth, hi, hd, rfl⟩ := step_serve.1 hu
    exact State.remaining_set hi (Conn.serve_keeps hd).1
      ((h.sound c (List.mem_of_getElem? hi)).remaining_serve hd)

/-! ## The steps that are possible -/

/-- A message that the server has read to its end holds a line. -/
theorem consumed_ne_writeOut {message : Utf16} {bs : List UInt8}
    (htext : ∀ b ∈ bs, EchoServer.isText b = true) : bs ≠ writeOut message := by
  rintro rfl
  have hend := htext 13 (by simp [writeOut, write, EchoClient.T_CR, EchoClient.T_LF])
  simp [EchoServer.isText] at hend

/-- The connection of a client that waits is served on. -/
theorem Sound.exists_progress {server : InetAddress} (h : Sound decode server c)
    (hserved : c.side.isServed) :
    (∃ a, a ≠ .sendFails ∧ (c.serve server a).isSome) ∨ (c.call decode .write).isSome := by
  have hside := h.side
  cases hs : c.side with
  | none => simp [hs, Side.isServed] at hserved
  | queued => simp [hs, Side.isServed] at hserved
  | closed => simp [hs, Side.isServed] at hserved
  | sending rest =>
    rw [hs] at hside
    obtain ⟨b, rest, rfl⟩ := List.exists_cons_of_ne_nil hside.2.1
    exact .inl ⟨.send, by simp, by simp [Conn.serve, hs]⟩
  | receiving result =>
    rw [hs] at hside
    obtain ⟨-, htext, -, -⟩ := hside
    obtain ⟨rest, hsent, hwriting, hreading, -⟩ := h.sent
    have hfresh := h.fresh
    simp only [hs, reduceCtorEq, false_iff, not_or] at hfresh
    cases htoServer : c.toServer with
    | cons b bs => exact .inl ⟨.receive, by simp, by simp [Conn.serve, hs, htoServer]⟩
    | nil =>
      cases hpc : c.pc with
      | idle => exact absurd hpc hfresh.1
      | refused => exact absurd hpc hfresh.2
      | writing r =>
        obtain ⟨b, r, rfl⟩ := List.exists_cons_of_ne_nil (hwriting r hpc).2
        exact .inr (by simp [Conn.call, hpc])
      | reading =>
        -- the whole message is read, and had a line end
        rw [hreading hpc (by simp [hs]), htoServer, List.append_nil, List.append_nil] at hsent
        exact absurd hsent (consumed_ne_writeOut htext)
      | finished =>
        exact .inl ⟨.receiveEnd, by simp, by simp [Conn.serve, hs, htoServer, hpc, ClientPc.hasLeft]⟩
      | failed =>
        exact .inl ⟨.receiveEnd, by simp, by simp [Conn.serve, hs, htoServer, hpc, ClientPc.hasLeft]⟩
      | aborted =>
        exact .inl ⟨.receiveEnd, by simp, by simp [Conn.serve, hs, htoServer, hpc, ClientPc.hasLeft]⟩

/-- No step without a failure is left. -/
def Stopped (decode : List UInt8 → Utf16) (addresses : List InetAddress) (s : State) : Prop :=
  Settled (step decode addresses) (·.isProgress) s

/-- There each thread waits in `accept`, and its backlog is empty. -/
theorem Inv.idle_of_stopped (h : Inv decode addresses callers as s)
    (hs : Stopped decode addresses s) (hth : s.threads[t]? = some th) :
    th.serving = none ∧ th.queue = [] := by
  obtain ⟨finished, serving, queue⟩ := th
  obtain ⟨hts, -, -⟩ := h.lists t _ hth
  cases serving with
  | some i =>
    obtain ⟨c, hi, -, hserved⟩ := hts.serving i rfl
    rcases (h.sound c (List.mem_of_getElem? hi)).exists_progress hserved with ⟨a, ha, hsome⟩ | hsome
    · obtain ⟨d, hd⟩ := Option.isSome_iff_exists.1 hsome
      have hnone := hs (.serve t a) (by cases a <;> simp_all [Action.isProgress])
      rw [step_serve.2 ⟨finished, i, queue, c, d, hth, hi, hd, rfl⟩] at hnone
      cases hnone
    · obtain ⟨d, hd⟩ := Option.isSome_iff_exists.1 hsome
      have hnone := hs (.call i .write) rfl
      rw [step_call.2 ⟨c, d, hi, hd, rfl⟩] at hnone
      cases hnone
  | none =>
    refine ⟨rfl, ?_⟩
    cases queue with
    | nil => rfl
    | cons i queue =>
      obtain ⟨c, hi, -, -⟩ := hts.queue i List.mem_cons_self
      have hnone := hs (.accept t) rfl
      rw [step_accept.2 ⟨finished, i, queue, c, hth, hi, rfl⟩] at hnone
      cases hnone

namespace ClientPc

/-- The client has not left before the end of the reply. -/
def isUp : ClientPc → Bool
  | .failed => false
  | .aborted => false
  | .refused => false
  | _ => true

end ClientPc

/-- There every client that has not failed has its line. -/
theorem Inv.finished_of_stopped (h : Inv decode addresses callers as s)
    (hserver : ∀ c ∈ callers, c.server < addresses.length) (hs : Stopped decode addresses s)
    (hi : s.conns[i]? = some c) (hup : c.pc.isUp) : c.pc = .finished := by
  have hsound := h.sound c (List.mem_of_getElem? hi)
  have hlt : c.caller.server < s.threads.length :=
    h.threads ▸ hserver c.caller (List.mem_of_getElem? (h.caller_eq hi))
  have hth := List.getElem?_eq_getElem hlt
  obtain ⟨hserving, hqueue⟩ := h.idle_of_stopped hs hth
  cases hpc : c.pc with
  | finished => rfl
  | failed => simp [hpc, ClientPc.isUp] at hup
  | aborted => simp [hpc, ClientPc.isUp] at hup
  | refused => simp [hpc, ClientPc.isUp] at hup
  | idle =>
    have hnone := hs (.connect i) rfl
    rw [step_connect.2 ⟨c, _, hi, hth, hpc, by rw [hqueue]; decide, rfl⟩] at hnone
    cases hnone
  | writing r =>
    obtain ⟨rest, -, hwriting, -⟩ := hsound.sent
    obtain ⟨b, r, rfl⟩ := List.exists_cons_of_ne_nil (hwriting r hpc).2
    have hnone := hs (.call i .write) rfl
    rw [step_call.2 ⟨c, _, hi, by rw [Conn.call, hpc], rfl⟩] at hnone
    cases hnone
  | reading =>
    -- the server has closed the connection
    have hfresh := hsound.fresh
    simp only [hpc, reduceCtorEq, or_self, iff_false] at hfresh
    obtain ⟨th, hth', hmem⟩ := h.listed i c hi hfresh
    obtain rfl := Option.some.inj (hth.symm.trans hth')
    simp only [Thread.all, hserving, hqueue, Option.toList_none, List.append_nil] at hmem
    obtain ⟨d, hd, -, hclosed⟩ := (h.lists _ _ hth).1.finished i hmem
    obtain rfl := Option.some.inj (hi.symm.trans hd)
    cases htoClient : c.toClient with
    | nil =>
      have hcall : c.call decode .readEnd = some { c with pc := .finished } :=
        if_pos ⟨hpc, hclosed, htoClient⟩
      have hnone := hs (.call i .readEnd) rfl
      rw [step_call.2 ⟨c, _, hi, hcall, rfl⟩] at hnone
      cases hnone
    | cons b rest =>
      have hnone := hs (.call i .read) rfl
      rw [step_call.2 ⟨c, _, hi, by rw [Conn.call, htoClient]; exact if_pos hpc, rfl⟩] at hnone
      cases hnone

/-! ## Clients that stay up -/

/-- A client that is up stays so when nothing fails. -/
def KeepsUp (conns conns' : List Conn) : Prop :=
  ∀ (i : ℕ) (c : Conn), conns[i]? = some c → c.pc.isUp →
    ∃ d, conns'[i]? = some d ∧ d.caller = c.caller ∧ d.pc.isUp

theorem KeepsUp.set (hi : conns[i]? = some c) (hcaller : d.caller = c.caller)
    (hup : c.pc.isUp → d.pc.isUp) : KeepsUp conns (conns.set i d) := by
  intro j e hj he
  by_cases hij : i = j
  · subst hij
    obtain rfl := Option.some.inj (hi.symm.trans hj)
    exact ⟨d, getElem?_set_self_of hi, hcaller, hup he⟩
  · exact ⟨e, by rw [List.getElem?_set_ne hij, hj], rfl, he⟩

theorem Conn.isUp_call {a : CallerAction} (ha : (Action.call i a).isProgress)
    (hd : c.call decode a = some d) : d.pc.isUp := by
  cases a with
  | write =>
    simp only [Conn.call] at hd
    split at hd
    · obtain rfl := Option.some.inj hd
      dsimp only
      split_ifs <;> rfl
    · cases hd
  | read =>
    simp only [Conn.call] at hd
    split at hd
    · simp only [Option.ite_none_right_eq_some, Option.some.injEq] at hd
      obtain ⟨-, rfl⟩ := hd
      dsimp only
      split_ifs <;> rfl
    · cases hd
  | readEnd =>
    simp only [Conn.call, Option.ite_none_right_eq_some, Option.some.injEq] at hd
    obtain ⟨-, rfl⟩ := hd
    rfl
  | refuse => cases ha
  | writeFails => cases ha
  | readFails => cases ha
  | abort => cases ha

theorem keepsUp_step {a : Action} (ha : a.isProgress) (hu : step decode addresses s a = some u) :
    KeepsUp s.conns u.conns := by
  cases a with
  | connect i =>
    obtain ⟨c, th, hi, -, -, -, rfl⟩ := step_connect.1 hu
    exact KeepsUp.set (d := c.connected) hi rfl fun _ => rfl
  | call i a =>
    obtain ⟨c, d, hi, hd, rfl⟩ := step_call.1 hu
    exact KeepsUp.set hi (Conn.call_keeps hd).1 fun _ => Conn.isUp_call ha hd
  | accept t =>
    obtain ⟨finished, i, queue, c, -, hi, rfl⟩ := step_accept.1 hu
    exact KeepsUp.set (d := c.accepted) hi rfl id
  | serve t a =>
    obtain ⟨finished, i, queue, c, d, -, hi, hd, rfl⟩ := step_serve.1 hu
    obtain ⟨hcaller, hpc, -⟩ := Conn.serve_keeps hd
    exact KeepsUp.set hi hcaller fun hup => hpc ▸ hup

theorem keepsUp_run {bs : List Action} (hbs : ∀ b ∈ bs, b.isProgress)
    (h : Run (step decode addresses) s bs u) : KeepsUp s.conns u.conns := by
  induction bs generalizing s with
  | nil =>
    obtain rfl := run_nil.1 h
    exact fun i c hi hup => ⟨c, hi, rfl, hup⟩
  | cons b bs ih =>
    obtain ⟨t, ht, hrun⟩ := run_cons.1 h
    intro i c hi hup
    obtain ⟨d, hd, hcaller, hup⟩ := keepsUp_step (hbs b (by simp)) ht i c hi hup
    obtain ⟨e, he, hcaller', hup⟩ := ih (fun b hb => hbs b (by simp [hb])) hrun i d hd hup
    exact ⟨e, he, hcaller'.trans hcaller, hup⟩

/-- **Every run ends, and serves everyone**: its length is bounded by what the clients are about to
send; from every state it can be brought to an end without a further failure; and then every client
that has not failed before has finished, and a client with an ASCII message has the header and the
first line of its own message. Where no step is possible, every thread waits in `accept` with an empty
backlog. -/
theorem echo_completes (hdecode : AsciiCompatible decode)
    (hserver : ∀ c ∈ callers, c.server < addresses.length)
    (h : Ran decode addresses callers as s) :
    as.length ≤ (State.start addresses callers).remaining addresses ∧
      (∃ bs u, (∀ b ∈ bs, b.isProgress) ∧ Run (step decode addresses) s bs u ∧
        Stopped decode addresses u ∧
        ∀ (i : ℕ) (c : Conn), s.conns[i]? = some c → c.pc.isUp →
          ∃ d, u.conns[i]? = some d ∧ d.caller = c.caller ∧ d.pc = .finished ∧
            ((∀ b ∈ c.caller.message.map write, b < 128) →
              d.newLine decode =
                some (header (addressOf addresses c.caller) c.caller.address ++
                  (lineOf (writeOut c.caller.message)).filter (· ≠ EchoClient.T_BS)))) ∧
      (Stopped decode addresses s → (∀ th ∈ s.threads, th.serving = none ∧ th.queue = []) ∧
        ∀ c ∈ s.conns, c.pc.isUp → c.pc = .finished) := by
  have hreach : Reachable (step decode addresses) (State.start addresses callers) s := ⟨as, h⟩
  refine ⟨?_, ?_, fun hs => ⟨fun th hth => ?_, fun c hc hup => ?_⟩⟩
  · have hlen := Run.length_le (State.remaining addresses) (fun _ => 0) ?_ h
    · simp only [List.map_const', List.sum_replicate_nat] at hlen
      omega
    · rintro t a u ⟨as, hrun⟩ hu
      exact (Ran.inv hrun).remaining_step hu
  · obtain ⟨bs, u, hbs, hrun, hstopped⟩ := hreach.exists_settled (State.remaining addresses)
      (fun a => a.isProgress) (by
        rintro t a u ⟨as, hrun⟩ - hu
        exact (Ran.inv hrun).remaining_step hu)
    refine ⟨bs, u, hbs, hrun, hstopped, fun i c hi hup => ?_⟩
    have hinv : Inv decode addresses callers (as ++ bs) u := Ran.inv (run_append.2 ⟨s, h, hrun⟩)
    obtain ⟨d, hd, hcaller, hup⟩ := keepsUp_run hbs hrun i c hi hup
    have hfinished := hinv.finished_of_stopped hserver hstopped hd hup
    refine ⟨d, hd, hcaller, hfinished, fun hascii => ?_⟩
    rw [← hcaller] at hascii ⊢
    exact (hinv.sound d (List.mem_of_getElem? hd)).newLine_of_finished hdecode hfinished hascii
  · obtain ⟨t, hth⟩ := List.mem_iff_getElem?.1 hth
    exact h.inv.idle_of_stopped hs hth
  · obtain ⟨i, hi⟩ := List.mem_iff_getElem?.1 hc
    exact h.inv.finished_of_stopped hserver hs hi hup

/-- Both get their own letter. -/
theorem echo_completes_two : ∃ bs u, Run (step EchoClient.usAscii [EchoClient.loopback])
    secondServed bs u ∧
      (∃ d, u.conns[0]? = some d ∧ d.newLine EchoClient.usAscii =
        some (header EchoClient.loopback EchoClient.loopback ++ [104])) ∧
      ∃ d, u.conns[1]? = some d ∧ d.newLine EchoClient.usAscii =
        some (header EchoClient.loopback EchoClient.loopback ++ [105]) := by
  obtain ⟨-, ⟨bs, u, -, hrun, -, hfinished⟩, -⟩ := echo_completes
    EchoClient.asciiCompatible_usAscii (by simp [twoCallers]) ran_secondServed
  obtain ⟨d, hd, -, -, hline⟩ := hfinished 0 _ rfl rfl
  obtain ⟨e, he, -, -, hline'⟩ := hfinished 1 _ rfl rfl
  exact ⟨bs, u, hrun, ⟨d, hd, hline (List.forall_mem_singleton.2 (by decide))⟩, e, he,
    hline' (List.forall_mem_singleton.2 (by decide))⟩

end JavaEcho

end Server6
