import Server6.Java.Connection
import Server6.Foundations.Runs

/-!
# The Java echo server and its clients

`EchoServer.main` runs one thread of `run` for each server socket, one or two of them; a thread accepts
a connection, serves it to its end and accepts the next. Any number of calls of `EchoClient.main` connect
to the sockets. The steps of all threads and clients come in any order.

* `echo_isolated`: whatever the order, a client gets bytes of the reply to its own message only.
* `echo_inOrder`: each thread serves its connections one after the other, in the order in which they were
  made; one that waits gets nothing before the earlier ones have been closed.
-/

namespace Server6

namespace JavaEcho

open EchoClient (writeOut)

/-- The backlog of a server socket. -/
def MAX_CONNECTIONS : ℕ := 12

/-- A thread of `run`: the connections it has closed, the one it serves, and the backlog. -/
structure Thread where
  finished : List ℕ
  serving : Option ℕ
  queue : List ℕ
  deriving DecidableEq, Repr

namespace Thread

/-- The connections made to the socket, in their order. -/
def all (th : Thread) : List ℕ := th.finished ++ th.serving.toList ++ th.queue

end Thread

/-- The threads and the connections. -/
structure State where
  threads : List Thread
  conns : List Conn

/-- A step of client `i`, or of thread `t`. -/
inductive Action
  | connect (i : ℕ)
  | call (i : ℕ) (a : CallerAction)
  | accept (t : ℕ)
  | serve (t : ℕ) (a : ServerAction)
  deriving DecidableEq, Repr

/-- The address a client has connected to. -/
def addressOf (addresses : List InetAddress) (c : Caller) : InetAddress :=
  addresses[c.server]?.getD EchoClient.loopback

/-- Before the first connection. -/
def State.start (addresses : List InetAddress) (callers : List Caller) : State :=
  ⟨addresses.map fun _ => ⟨[], none, []⟩, callers.map .start⟩

/-- One step. -/
def step (decode : List UInt8 → Utf16) (addresses : List InetAddress) (s : State) :
    Action → Option State
  | .connect i =>
    match s.conns[i]? with
    | some c =>
      match s.threads[c.caller.server]? with
      | some th =>
        if c.pc = .idle ∧ th.queue.length < MAX_CONNECTIONS then
          some {
            threads := s.threads.set c.caller.server { th with queue := th.queue ++ [i] }
            conns := s.conns.set i c.connected }
        else none
      | none => none
    | none => none
  | .call i a =>
    match s.conns[i]? with
    | some c => (c.call decode a).map fun d => { s with conns := s.conns.set i d }
    | none => none
  | .accept t =>
    match s.threads[t]? with
    | some ⟨finished, none, i :: queue⟩ =>
      (s.conns[i]?).map fun c =>
        { threads := s.threads.set t ⟨finished, some i, queue⟩
          conns := s.conns.set i c.accepted }
    | _ => none
  | .serve t a =>
    match s.threads[t]? with
    | some ⟨finished, some i, queue⟩ =>
      match s.conns[i]? with
      | some c =>
        (c.serve (addressOf addresses c.caller) a).map fun d =>
          { threads :=
              if d.side = .closed then s.threads.set t ⟨finished ++ [i], none, queue⟩
              else s.threads
            conns := s.conns.set i d }
      | none => none
    | _ => none

/-- A run of the server and these callers. -/
def Ran (decode : List UInt8 → Utf16) (addresses : List InetAddress) (callers : List Caller)
    (as : List Action) (s : State) : Prop :=
  Run (step decode addresses) (.start addresses callers) as s

/-! ## Steps -/

variable {decode : List UInt8 → Utf16} {addresses : List InetAddress} {callers : List Caller}
  {s u : State} {as : List Action}

theorem step_connect {i : ℕ} : step decode addresses s (.connect i) = some u ↔
    ∃ c th, s.conns[i]? = some c ∧ s.threads[c.caller.server]? = some th ∧ c.pc = .idle ∧
      th.queue.length < MAX_CONNECTIONS ∧
      State.mk (s.threads.set c.caller.server { th with queue := th.queue ++ [i] })
        (s.conns.set i c.connected) = u := by
  simp only [step]
  cases hc : s.conns[i]? with
  | none => simp
  | some c =>
    cases hth : s.threads[c.caller.server]? with
    | none => simp [hth]
    | some th => simp [hth, and_assoc]

theorem step_call {i : ℕ} {a : CallerAction} : step decode addresses s (.call i a) = some u ↔
    ∃ c d, s.conns[i]? = some c ∧ c.call decode a = some d ∧
      { s with conns := s.conns.set i d } = u := by
  simp only [step]
  cases hc : s.conns[i]? with
  | none => simp
  | some c => simp

theorem step_accept {t : ℕ} : step decode addresses s (.accept t) = some u ↔
    ∃ finished i queue c, s.threads[t]? = some ⟨finished, none, i :: queue⟩ ∧
      s.conns[i]? = some c ∧
      State.mk (s.threads.set t ⟨finished, some i, queue⟩) (s.conns.set i c.accepted) = u := by
  simp only [step]
  rcases hth : s.threads[t]? with _ | ⟨finished, _ | i, _ | ⟨j, queue⟩⟩
  · simp
  · simp
  · simp
  · simp
  · simp

theorem step_serve {t : ℕ} {a : ServerAction} : step decode addresses s (.serve t a) = some u ↔
    ∃ finished i queue c d, s.threads[t]? = some ⟨finished, some i, queue⟩ ∧
      s.conns[i]? = some c ∧ c.serve (addressOf addresses c.caller) a = some d ∧
      State.mk (if d.side = .closed then s.threads.set t ⟨finished ++ [i], none, queue⟩
        else s.threads) (s.conns.set i d) = u := by
  simp only [step]
  rcases hth : s.threads[t]? with _ | ⟨finished, _ | i, queue⟩
  · simp
  · simp
  · cases hc : s.conns[i]? with
    | none => simp [hc]
    | some c => simp [hc]

/-! ## The lists of a thread -/

/-- The connection is being served. -/
def Side.isServed : Side → Bool
  | .receiving _ => true
  | .sending _ => true
  | _ => false

/-- The connections `as` makes to socket `t`, in their order. -/
def arrivals (callers : List Caller) (t : ℕ) (as : List Action) : List ℕ :=
  as.filterMap fun a =>
    match a with
    | .connect i => if (callers[i]?).map Caller.server = some t then some i else none
    | _ => none

/-- The lists of thread `t` tell where its connections are. -/
structure ThreadSound (conns : List Conn) (t : ℕ) (th : Thread) : Prop where
  finished : ∀ i ∈ th.finished, ∃ c, conns[i]? = some c ∧ c.caller.server = t ∧ c.side = .closed
  serving : ∀ i, th.serving = some i →
    ∃ c, conns[i]? = some c ∧ c.caller.server = t ∧ c.side.isServed
  queue : ∀ i ∈ th.queue, ∃ c, conns[i]? = some c ∧ c.caller.server = t ∧ c.side = .queued
  nodup : th.queue.Nodup

variable {conns : List Conn} {t : ℕ} {th : Thread} {i j : ℕ} {c d e : Conn}

theorem getElem?_set_ne (hj : conns[j]? = some e) (hi : conns[i]? = some c) (hne : e.side ≠ c.side) :
    (conns.set i d)[j]? = some e := by
  have hij : i ≠ j := by
    rintro rfl
    obtain rfl : c = e := Option.some.inj (hi.symm.trans hj)
    exact hne rfl
  rw [List.getElem?_set_ne hij, hj]

theorem getElem?_set_self_of {β : Type} {parts : List β} {x y : β} (hi : parts[i]? = some x) :
    (parts.set i y)[i]? = some y := by
  obtain ⟨hlt, -⟩ := List.getElem?_eq_some_iff.1 hi
  exact List.getElem?_set_self hlt

/-- A connection of another socket, or one that stays on its side, changes. -/
theorem ThreadSound.set (h : ThreadSound conns t th) (hi : conns[i]? = some c)
    (hcaller : d.caller = c.caller) (hside : c.caller.server = t → d.side = c.side) :
    ThreadSound (conns.set i d) t th := by
  have hkeep : ∀ (j : ℕ) (e : Conn), conns[j]? = some e → e.caller.server = t →
      ∃ e' : Conn, (conns.set i d)[j]? = some e' ∧ e'.caller.server = t ∧ e'.side = e.side := by
    intro j e hj ht
    by_cases hij : i = j
    · subst hij
      obtain rfl : c = e := Option.some.inj (hi.symm.trans hj)
      exact ⟨d, getElem?_set_self_of hi, by rw [hcaller, ht], hside ht⟩
    · exact ⟨e, by rw [List.getElem?_set_ne hij, hj], ht, rfl⟩
  refine ⟨fun j hj => ?_, fun j hj => ?_, fun j hj => ?_, h.nodup⟩
  · obtain ⟨e, he, ht, hs⟩ := h.finished j hj
    obtain ⟨e', he', ht', hs'⟩ := hkeep j e he ht
    exact ⟨e', he', ht', hs'.trans hs⟩
  · obtain ⟨e, he, ht, hs⟩ := h.serving j hj
    obtain ⟨e', he', ht', hs'⟩ := hkeep j e he ht
    exact ⟨e', he', ht', hs' ▸ hs⟩
  · obtain ⟨e, he, ht, hs⟩ := h.queue j hj
    obtain ⟨e', he', ht', hs'⟩ := hkeep j e he ht
    exact ⟨e', he', ht', hs'.trans hs⟩

/-- A connection is made. -/
theorem ThreadSound.connect (h : ThreadSound conns t th) (hi : conns[i]? = some c)
    (hnone : c.side = .none) (ht : c.caller.server = t) (hd : d.caller = c.caller)
    (hqueued : d.side = .queued) :
    ThreadSound (conns.set i d) t { th with queue := th.queue ++ [i] } := by
  refine ⟨fun j hj => ?_, fun j hj => ?_, fun j hj => ?_, ?_⟩
  · obtain ⟨e, he, ht, hs⟩ := h.finished j hj
    exact ⟨e, getElem?_set_ne he hi (by simp [hs, hnone]), ht, hs⟩
  · obtain ⟨e, he, ht, hs⟩ := h.serving j hj
    refine ⟨e, getElem?_set_ne he hi fun heq => ?_, ht, hs⟩
    rw [heq, hnone] at hs
    cases hs
  · rcases List.mem_append.1 hj with hj | hj
    · obtain ⟨e, he, ht, hs⟩ := h.queue j hj
      exact ⟨e, getElem?_set_ne he hi (by simp [hs, hnone]), ht, hs⟩
    · obtain rfl := List.mem_singleton.1 hj
      exact ⟨d, getElem?_set_self_of hi, by rw [hd, ht], hqueued⟩
  · refine List.nodup_append.2 ⟨h.nodup, by simp, fun j hj k hk => ?_⟩
    obtain rfl := List.mem_singleton.1 hk
    rintro rfl
    obtain ⟨e, he, -, hs⟩ := h.queue j hj
    obtain rfl : c = e := Option.some.inj (hi.symm.trans he)
    simp [hs] at hnone

/-- The first one of the backlog is accepted. -/
theorem ThreadSound.accept {finished queue : List ℕ}
    (h : ThreadSound conns t ⟨finished, none, i :: queue⟩) (hi : conns[i]? = some c)
    (hd : d.caller = c.caller) (hserved : d.side.isServed) :
    ThreadSound (conns.set i d) t ⟨finished, some i, queue⟩ := by
  obtain ⟨e, he, ht, hqueued⟩ := h.queue i List.mem_cons_self
  obtain rfl : e = c := Option.some.inj (he.symm.trans hi)
  obtain ⟨hnotMem, hnodup⟩ := List.nodup_cons.1 h.nodup
  refine ⟨fun j hj => ?_, fun j hj => ?_, fun j hj => ?_, hnodup⟩
  · obtain ⟨f, hf, ht, hs⟩ := h.finished j hj
    exact ⟨f, getElem?_set_ne hf hi (by simp [hs, hqueued]), ht, hs⟩
  · obtain rfl : i = j := Option.some.inj hj
    exact ⟨d, getElem?_set_self_of hi, by rw [hd, ht], hserved⟩
  · have hij : i ≠ j := by
      rintro rfl
      exact hnotMem hj
    obtain ⟨f, hf, ht, hs⟩ := h.queue j (List.mem_cons_of_mem _ hj)
    exact ⟨f, by rw [List.getElem?_set_ne hij, hf], ht, hs⟩

/-- The one that is served goes on, or is closed. -/
theorem ThreadSound.serve {finished queue : List ℕ}
    (h : ThreadSound conns t ⟨finished, some i, queue⟩) (hi : conns[i]? = some c)
    (hd : d.caller = c.caller) :
    (d.side.isServed → ThreadSound (conns.set i d) t ⟨finished, some i, queue⟩) ∧
      (d.side = .closed → ThreadSound (conns.set i d) t ⟨finished ++ [i], none, queue⟩) := by
  obtain ⟨e, he, ht, hserved⟩ := h.serving i rfl
  obtain rfl : e = c := Option.some.inj (he.symm.trans hi)
  have hfinished : ∀ j ∈ finished, ∃ f, (conns.set i d)[j]? = some f ∧ f.caller.server = t ∧
      f.side = .closed := by
    intro j hj
    obtain ⟨f, hf, ht, hs⟩ := h.finished j hj
    refine ⟨f, getElem?_set_ne hf hi fun heq => ?_, ht, hs⟩
    rw [← heq, hs] at hserved
    cases hserved
  have hqueue : ∀ j ∈ queue, ∃ f, (conns.set i d)[j]? = some f ∧ f.caller.server = t ∧
      f.side = .queued := by
    intro j hj
    obtain ⟨f, hf, ht, hs⟩ := h.queue j hj
    refine ⟨f, getElem?_set_ne hf hi fun heq => ?_, ht, hs⟩
    rw [← heq, hs] at hserved
    cases hserved
  refine ⟨fun hnew => ⟨hfinished, fun j hj => ?_, hqueue, h.nodup⟩,
    fun hnew => ⟨fun j hj => ?_, by simp, hqueue, h.nodup⟩⟩
  · obtain rfl : i = j := Option.some.inj hj
    exact ⟨d, getElem?_set_self_of hi, by rw [hd, ht], hnew⟩
  · rcases List.mem_append.1 hj with hj | hj
    · exact hfinished j hj
    · obtain rfl := List.mem_singleton.1 hj
      exact ⟨d, getElem?_set_self_of hi, by rw [hd, ht], hnew⟩

/-! ## What every run keeps -/

theorem Conn.call_keeps {a : CallerAction} (hd : c.call decode a = some d) :
    d.caller = c.caller ∧ d.side = c.side := by
  cases a <;> simp only [Conn.call] at hd <;> split at hd <;>
    simp only [Option.some.injEq, Option.ite_none_right_eq_some, reduceCtorEq] at hd
  all_goals first
    | obtain rfl := hd
      exact ⟨rfl, rfl⟩
    | obtain ⟨-, rfl⟩ := hd
      exact ⟨rfl, rfl⟩

theorem isServed_afterRead (server client : InetAddress) (result : Utf16) (b : UInt8) :
    (afterRead server client result b).isServed := by
  unfold afterRead
  dsimp only
  split_ifs <;> rfl

theorem Conn.serve_keeps {server : InetAddress} {a : ServerAction}
    (hd : c.serve server a = some d) :
    d.caller = c.caller ∧ d.pc = c.pc ∧ (d.side.isServed ∨ d.side = .closed) := by
  cases a with
  | receive =>
    simp only [Conn.serve] at hd
    split at hd
    · obtain rfl := Option.some.inj hd
      exact ⟨rfl, rfl, .inl (isServed_afterRead _ _ _ _)⟩
    · cases hd
  | receiveEnd =>
    simp only [Conn.serve] at hd
    split at hd
    · simp only [Option.ite_none_right_eq_some, Option.some.injEq] at hd
      obtain ⟨-, rfl⟩ := hd
      exact ⟨rfl, rfl, .inl rfl⟩
    · cases hd
  | send =>
    simp only [Conn.serve] at hd
    split at hd
    · rename_i b rest hs
      obtain rfl := Option.some.inj hd
      refine ⟨rfl, rfl, ?_⟩
      by_cases hrest : rest = []
      · exact .inr (if_pos hrest)
      · simp [hrest, Side.isServed]
    · cases hd
  | sendFails =>
    simp only [Conn.serve] at hd
    split at hd
    · simp only [Option.ite_none_right_eq_some, Option.some.injEq] at hd
      obtain ⟨-, rfl⟩ := hd
      exact ⟨rfl, rfl, .inr rfl⟩
    · cases hd

/-- The state after the actions `as`. -/
structure Inv (decode : List UInt8 → Utf16) (addresses : List InetAddress) (callers : List Caller)
    (as : List Action) (s : State) : Prop where
  conns : s.conns.map Conn.caller = callers
  sound : ∀ c ∈ s.conns, Sound decode (addressOf addresses c.caller) c
  threads : s.threads.length = addresses.length
  lists : ∀ (t : ℕ) (th : Thread), s.threads[t]? = some th →
    ThreadSound s.conns t th ∧ th.all = arrivals callers t as ∧ th.queue.length ≤ MAX_CONNECTIONS
  listed : ∀ (i : ℕ) (c : Conn), s.conns[i]? = some c → c.side ≠ .none →
    ∃ th : Thread, s.threads[c.caller.server]? = some th ∧ i ∈ th.all

theorem map_caller_set (hi : conns[i]? = some c) (hd : d.caller = c.caller) :
    (conns.set i d).map Conn.caller = conns.map Conn.caller := by
  refine List.ext_getElem? fun j => ?_
  by_cases hij : i = j
  · subst hij
    rw [List.getElem?_map, List.getElem?_map, getElem?_set_self_of hi, hi, Option.map_some, hd,
      Option.map_some]
  · rw [List.getElem?_map, List.getElem?_map, List.getElem?_set_ne hij]

theorem sound_set (h : ∀ c ∈ conns, Sound decode (addressOf addresses c.caller) c)
    (hi : conns[i]? = some c) (hd : d.caller = c.caller)
    (hsound : Sound decode (addressOf addresses c.caller) c →
      Sound decode (addressOf addresses c.caller) d) :
    ∀ e ∈ conns.set i d, Sound decode (addressOf addresses e.caller) e := by
  intro e he
  rcases List.mem_or_eq_of_mem_set he with he | rfl
  · exact h e he
  · rw [hd]
    exact hsound (h c (List.mem_of_getElem? hi))

theorem arrivals_append (as bs : List Action) :
    arrivals callers t (as ++ bs) = arrivals callers t as ++ arrivals callers t bs :=
  List.filterMap_append

theorem Inv.caller_eq (h : Inv decode addresses callers as s) (hi : s.conns[i]? = some c) :
    callers[i]? = some c.caller := by
  rw [← h.conns, List.getElem?_map, hi]
  rfl

theorem inv_start : Inv decode addresses callers [] (.start addresses callers) where
  conns := by
    simp only [State.start, List.map_map]
    exact List.map_id'' (fun _ => rfl) callers
  sound := by
    intro c hc
    obtain ⟨caller, -, rfl⟩ := List.mem_map.1 hc
    exact sound_start decode _ caller
  threads := List.length_map _
  lists := by
    intro t th hth
    obtain ⟨-, -, rfl⟩ := List.mem_map.1 (List.mem_of_getElem? hth)
    exact ⟨⟨by simp, by simp, by simp, by simp⟩, rfl, Nat.zero_le _⟩
  listed := by
    intro i c hc hne
    obtain ⟨caller, -, rfl⟩ := List.mem_map.1 (List.mem_of_getElem? hc)
    exact absurd rfl hne

theorem Inv.connect (h : Inv decode addresses callers as s)
    (hu : step decode addresses s (.connect i) = some u) :
    Inv decode addresses callers (as ++ [.connect i]) u := by
  obtain ⟨c, th, hi, hth, hpc, hroom, rfl⟩ := step_connect.1 hu
  have hc := h.sound c (List.mem_of_getElem? hi)
  have hnone := hc.fresh.2 (.inl hpc)
  have hcaller := h.caller_eq hi
  obtain ⟨hts, hall, -⟩ := h.lists _ th hth
  refine ⟨(map_caller_set hi (d := c.connected) rfl).trans h.conns,
    sound_set h.sound hi rfl (·.connected hpc),
    (List.length_set ..).trans h.threads, fun t th' hth' => ?_, fun j e he hside => ?_⟩
  · rw [arrivals_append]
    by_cases ht : c.caller.server = t
    · subst ht
      rw [getElem?_set_self_of hth] at hth'
      obtain rfl := Option.some.inj hth'
      refine ⟨hts.connect hi hnone rfl rfl rfl, ?_, ?_⟩
      · rw [← hall]
        simp [Thread.all, arrivals, hcaller]
      · simp only [List.length_append, List.length_singleton]
        omega
    · simp only [List.getElem?_set_ne ht] at hth'
      obtain ⟨hts', hall', hlen⟩ := h.lists t th' hth'
      refine ⟨hts'.set hi rfl fun heq => absurd heq ht, ?_, hlen⟩
      rw [hall']
      simp [arrivals, hcaller, ht]
  · by_cases hij : i = j
    · subst hij
      obtain rfl := Option.some.inj ((getElem?_set_self_of hi).symm.trans he)
      exact ⟨_, getElem?_set_self_of hth, by simp [Thread.all]⟩
    · simp only [List.getElem?_set_ne hij] at he
      obtain ⟨th', hth', hj⟩ := h.listed j e he hside
      by_cases ht : c.caller.server = e.caller.server
      · rw [← ht] at hth' ⊢
        obtain rfl := Option.some.inj (hth.symm.trans hth')
        refine ⟨_, getElem?_set_self_of hth, ?_⟩
        simp only [Thread.all, List.mem_append] at hj ⊢
        tauto
      · exact ⟨th', by simp only [List.getElem?_set_ne ht, hth'], hj⟩

theorem Inv.call (h : Inv decode addresses callers as s) {a : CallerAction}
    (hu : step decode addresses s (.call i a) = some u) :
    Inv decode addresses callers (as ++ [.call i a]) u := by
  obtain ⟨c, d, hi, hd, rfl⟩ := step_call.1 hu
  obtain ⟨hcaller, hside⟩ := Conn.call_keeps hd
  refine ⟨(map_caller_set hi hcaller).trans h.conns, sound_set h.sound hi hcaller (·.call hd),
    h.threads, fun t th hth => ?_, fun j e he hne => ?_⟩
  · obtain ⟨hts, hall, hlen⟩ := h.lists t th hth
    refine ⟨hts.set hi hcaller fun _ => hside, ?_, hlen⟩
    rw [arrivals_append, hall]
    exact (List.append_nil _).symm
  · by_cases hij : i = j
    · subst hij
      obtain rfl := Option.some.inj ((getElem?_set_self_of hi).symm.trans he)
      rw [hcaller]
      exact h.listed i c hi (hside ▸ hne)
    · simp only [List.getElem?_set_ne hij] at he
      exact h.listed j e he hne

/-- A step of a thread that moves a connection along its lists. -/
theorem Inv.moved (h : Inv decode addresses callers as s) {a : Action} {th' : Thread}
    (hth : s.threads[t]? = some th) (hi : s.conns[i]? = some c) (ht : c.caller.server = t)
    (hnone : c.side ≠ .none) (hcaller : d.caller = c.caller)
    (hsound : Sound decode (addressOf addresses c.caller) c →
      Sound decode (addressOf addresses c.caller) d)
    (hts : ThreadSound (s.conns.set i d) t th') (hall : th'.all = th.all)
    (hqueue : th'.queue.length ≤ th.queue.length) (ha : ∀ t, arrivals callers t [a] = []) :
    Inv decode addresses callers (as ++ [a]) ⟨s.threads.set t th', s.conns.set i d⟩ := by
  refine ⟨(map_caller_set hi hcaller).trans h.conns, sound_set h.sound hi hcaller hsound,
    (List.length_set ..).trans h.threads, fun t' th'' hth'' => ?_, fun j e he hne => ?_⟩
  · rw [arrivals_append, ha, List.append_nil]
    by_cases htt : t = t'
    · subst htt
      rw [getElem?_set_self_of hth] at hth''
      obtain rfl := Option.some.inj hth''
      obtain ⟨-, hall', hlen⟩ := h.lists t th hth
      exact ⟨hts, hall.trans hall', hqueue.trans hlen⟩
    · simp only [List.getElem?_set_ne htt] at hth''
      obtain ⟨hts', hall', hlen⟩ := h.lists t' th'' hth''
      exact ⟨hts'.set hi hcaller fun heq => absurd (ht.symm.trans heq) htt, hall', hlen⟩
  · have hbefore : ∃ e₀ : Conn, s.conns[j]? = some e₀ ∧ e₀.caller = e.caller ∧ e₀.side ≠ .none := by
      by_cases hij : i = j
      · subst hij
        obtain rfl := Option.some.inj ((getElem?_set_self_of hi).symm.trans he)
        exact ⟨c, hi, hcaller.symm, hnone⟩
      · simp only [List.getElem?_set_ne hij] at he
        exact ⟨e, he, rfl, hne⟩
    obtain ⟨e₀, he₀, hcaller₀, hne₀⟩ := hbefore
    obtain ⟨th₀, hth₀, hj⟩ := h.listed j e₀ he₀ hne₀
    rw [hcaller₀] at hth₀
    by_cases htt : t = e.caller.server
    · subst htt
      obtain rfl := Option.some.inj (hth.symm.trans hth₀)
      exact ⟨th', getElem?_set_self_of hth, hall ▸ hj⟩
    · exact ⟨th₀, by simp only [List.getElem?_set_ne htt, hth₀], hj⟩

theorem Inv.accept (h : Inv decode addresses callers as s)
    (hu : step decode addresses s (.accept t) = some u) :
    Inv decode addresses callers (as ++ [.accept t]) u := by
  obtain ⟨finished, i, queue, c, hth, hi, rfl⟩ := step_accept.1 hu
  obtain ⟨hts, -, -⟩ := h.lists t _ hth
  obtain ⟨e, he, ht, hqueued⟩ := hts.queue i List.mem_cons_self
  obtain rfl := Option.some.inj (hi.symm.trans he)
  exact h.moved hth hi ht (by simp [hqueued]) rfl (·.accepted hqueued)
    (hts.accept hi (d := c.accepted) rfl rfl) (by simp [Thread.all]) (Nat.le_succ _) fun _ => rfl

theorem Inv.serve (h : Inv decode addresses callers as s) {a : ServerAction}
    (hu : step decode addresses s (.serve t a) = some u) :
    Inv decode addresses callers (as ++ [.serve t a]) u := by
  obtain ⟨finished, i, queue, c, d, hth, hi, hd, rfl⟩ := step_serve.1 hu
  obtain ⟨hcaller, -, hside⟩ := Conn.serve_keeps hd
  obtain ⟨hts, -, -⟩ := h.lists t _ hth
  obtain ⟨e, he, ht, hserved⟩ := hts.serving i rfl
  obtain rfl := Option.some.inj (hi.symm.trans he)
  have hnone : c.side ≠ .none := by
    intro hnone
    rw [hnone] at hserved
    cases hserved
  obtain ⟨hgoesOn, hcloses⟩ := hts.serve hi hcaller
  by_cases hclosed : d.side = .closed
  · rw [if_pos hclosed]
    exact h.moved hth hi ht hnone hcaller (·.serve hd) (hcloses hclosed) (by simp [Thread.all])
      (Nat.le_refl _) fun _ => rfl
  · -- the thread keeps its lists
    have hsame := h.moved hth hi ht hnone hcaller (·.serve hd)
      (hgoesOn (hside.resolve_right hclosed)) rfl (Nat.le_refl _)
      (a := .serve t a) fun _ => rfl
    obtain ⟨hlt, hget⟩ := List.getElem?_eq_some_iff.1 hth
    have hset : s.threads.set t ⟨finished, some i, queue⟩ = s.threads := by
      rw [← hget, List.set_getElem_self]
    rw [hset] at hsame
    rwa [if_neg hclosed]

theorem Ran.inv (h : Ran decode addresses callers as s) : Inv decode addresses callers as s := by
  refine Run.induction (P := fun as s => Inv decode addresses callers as s) inv_start ?_ h
  intro as s a u _ ih hu
  cases a with
  | connect i => exact ih.connect hu
  | call i a => exact ih.call hu
  | accept t => exact ih.accept hu
  | serve t a => exact ih.serve hu

/-! ## Whose bytes a client gets -/

/-- **No client gets bytes of another**: the server has read the beginning of the client's own message,
and what the client gets is the beginning of what `handle` answers to that, on the socket it has
connected to. -/
theorem echo_isolated (h : Ran decode addresses callers as s) (i : ℕ) (c : Conn)
    (hi : s.conns[i]? = some c) :
    callers[i]? = some c.caller ∧ c.consumed <+: writeOut c.caller.message ∧
      ∃ r, EchoServer.handle (addressOf addresses c.caller) c.caller.address
          (c.consumed.map .ch ++ [.eof]) = some r ∧ c.received ++ c.toClient <+: r :=
  have hinv := h.inv
  have hsound := hinv.sound c (List.mem_of_getElem? hi)
  ⟨hinv.caller_eq hi, hsound.consumed_writeOut, _, handle_eq_reply _ _ _, hsound.received_reply⟩

/-- Two clients on one socket. -/
def twoCallers : List Caller := [⟨0, EchoClient.loopback, [104]⟩, ⟨0, EchoClient.loopback, [105]⟩]

/-- The second one has connected first and is served, the first one waits. -/
def secondServed : State where
  threads := [⟨[], some 1, [0]⟩]
  conns := [⟨⟨0, EchoClient.loopback, [104]⟩, .writing [104, 13, 10], .queued, [], [], [], []⟩,
    ⟨⟨0, EchoClient.loopback, [105]⟩, .writing [13, 10], .receiving [105], [], [], [105], []⟩]

theorem ran_secondServed : Ran EchoClient.usAscii [EchoClient.loopback] twoCallers
    [.connect 1, .connect 0, .accept 0, .call 1 .write, .serve 0 .receive] secondServed := rfl

/-- The server has read the letter of the second client from it. -/
theorem echo_isolated_two :
    secondServed.conns[1]?.map Conn.consumed = some [105] ∧ [105] <+: writeOut [105] :=
  ⟨rfl, (echo_isolated ran_secondServed 1 _ rfl).2.1⟩

/-- **Each thread serves in the order of the connections**: the closed ones, the one it serves and the
backlog are the connections made to its socket, in their order; a connection in the backlog has not
been read from and has been sent nothing, and no connection is served beside that of the thread. -/
theorem echo_inOrder (h : Ran decode addresses callers as s) (t : ℕ) (th : Thread)
    (hth : s.threads[t]? = some th) :
    th.finished ++ th.serving.toList ++ th.queue = arrivals callers t as ∧
      th.queue.length ≤ MAX_CONNECTIONS ∧
      (∀ i ∈ th.finished, ∃ c, s.conns[i]? = some c ∧ c.side = .closed) ∧
      (∀ i ∈ th.queue, ∃ c, s.conns[i]? = some c ∧ c.consumed = [] ∧
        c.received ++ c.toClient = []) ∧
      ∀ (i : ℕ) (c : Conn), s.conns[i]? = some c → c.caller.server = t → c.side.isServed →
        th.serving = some i := by
  have hinv := h.inv
  obtain ⟨hts, hall, hlen⟩ := hinv.lists t th hth
  refine ⟨hall, hlen, fun i hi => ?_, fun i hi => ?_, fun i c hc ht hserved => ?_⟩
  · obtain ⟨c, hc, -, hclosed⟩ := hts.finished i hi
    exact ⟨c, hc, hclosed⟩
  · obtain ⟨c, hc, -, hqueued⟩ := hts.queue i hi
    have hside := (hinv.sound c (List.mem_of_getElem? hc)).side
    rw [hqueued] at hside
    exact ⟨c, hc, hside⟩
  · have hnone : c.side ≠ .none := by
      intro hnone
      rw [hnone] at hserved
      cases hserved
    obtain ⟨th', hth', hi⟩ := hinv.listed i c hc hnone
    rw [ht] at hth'
    obtain rfl := Option.some.inj (hth.symm.trans hth')
    simp only [Thread.all, List.mem_append, Option.mem_toList] at hi
    rcases hi with (hi | hi) | hi
    · obtain ⟨d, hd, -, hclosed⟩ := hts.finished i hi
      obtain rfl := Option.some.inj (hc.symm.trans hd)
      rw [hclosed] at hserved
      cases hserved
    · exact hi
    · obtain ⟨d, hd, -, hqueued⟩ := hts.queue i hi
      obtain rfl := Option.some.inj (hc.symm.trans hd)
      rw [hqueued] at hserved
      cases hserved

/-- The order of the two connections, not that of the clients. -/
theorem echo_inOrder_two : [1, 0] = arrivals twoCallers 0
    [.connect 1, .connect 0, .accept 0, .call 1 .write, .serve 0 .receive] :=
  (echo_inOrder ran_secondServed 0 _ rfl).1

end JavaEcho

end Server6
