import Server6.Foundations.Runs
import Server6.Foundations.Utf8

/-!
# The threaded listener

`Listener6`: `RunServer` accepts connections and starts a thread of `HandleClientRequest` for each.
The threads and `RunServer` share the fields `clientSocket`, `clientIEP` and `data` of the listener;
each access to one of them and each socket call is one step, and the steps of the threads come in
any order. An exception in a thread ends the process.

Connections are numbered from 0 in the order in which they are accepted, and handler `i` is the one
started for connection `i`. Every byte carries the connection it was received on. The texts are kept as
the bytes they are decoded from, and `Sent.sendData` is what goes out.

* `kept_of_timely` is what the handlers keep to in every run in which each reads `clientSocket` for
  `Send` and for `Close` before the next connection is stored there, and none copies into `data`
  between another's copy and its decoding.
* `timely_of_kept` is the converse, for runs in which the handlers have finished.
-/

namespace Server6

namespace Listener6

/-- A byte, with the connection it was received on. -/
structure Cell where
  conn : Option ℕ
  byte : UInt8
  deriving DecidableEq, Repr

/-- The next step of a handler. -/
inductive Stage
  | nullCheck
  | readForEndPoint
  | remoteEndPoint
  | writeEndPoint
  | readForReceive
  | receive
  | copy
  | getString
  | readEndPoint
  | readForSend
  | send
  | readForClose
  | close
  | done
  deriving DecidableEq, Repr

/-- A call of `HandleClientRequest`: its next step and its local values, the socket it has read from
the field last, the end point, the `rsize` bytes in `receiveData` and those `rstring` is decoded from. -/
structure Handler where
  stage : Stage
  socket : Option ℕ
  endPoint : Option ℕ
  receiveData : List Cell
  rstring : List Cell
  deriving DecidableEq, Repr

/-- A handler that has just been started. -/
def Handler.started : Handler := ⟨.nullCheck, none, none, [], []⟩

/-- The next step of `RunServer`. -/
inductive ServerStage
  | accept
  | store
  | readForEndPoint
  | remoteEndPoint (socket : Option ℕ)
  | start
  | sleep
  deriving DecidableEq, Repr

/-- A `Send` that went out: who sent it, on which connection, and of what it was put together, the end
point and the bytes that `rstring` was decoded from. -/
structure Sent where
  handler : ℕ
  conn : ℕ
  endPoint : Option ℕ
  body : List Cell
  deriving DecidableEq, Repr

/-- What stands before `rstring` in `sstring`, given the text of each connection's address. -/
def Sent.addresses (serverAddress : Utf16) (address : ℕ → Utf16) (e : Sent) : Utf16 :=
  serverAddress ++ .ofString " => " ++ (e.endPoint.map address).getD [] ++ .ofString " : "

/-- `sendData`: `Encoding.Default`, which is UTF-8, decodes the bytes and encodes `sstring`. -/
def Sent.sendData (serverAddress : Utf16) (address : ℕ → Utf16) (e : Sent) : List UInt8 :=
  Utf16.utf8 (e.addresses serverAddress address ++ Utf16.ofUtf8 (e.body.map Cell.byte))

/-- A `Close`: who closed which connection. -/
structure Closed where
  handler : ℕ
  conn : ℕ
  deriving DecidableEq, Repr

/-- The listener: the three shared fields, the threads, and what has been sent and closed. -/
structure State where
  server : ServerStage
  clientSocket : Option ℕ
  clientIEP : Option ℕ
  data : List Cell
  handlers : List Handler
  sent : List Sent
  closed : List Closed
  crashed : Bool
  deriving DecidableEq, Repr

/-- The size of `data` and of `receiveData`. -/
def bufferSize : ℕ := 8192

/-- A step of `RunServer`, of handler `i`, a `Receive` of handler `i` that returns `bs`, or an
exception. -/
inductive Action
  | runServer
  | handler (i : ℕ)
  | receive (i : ℕ) (bs : List UInt8)
  | exception
  deriving DecidableEq, Repr

namespace State

/-- The listener before its first `Accept`. -/
def start : State :=
  ⟨.accept, none, none, List.replicate bufferSize ⟨none, 0⟩, [], [], [], false⟩

/-- A socket that has not been closed here. -/
def isOpen (s : State) (socket : Option ℕ) : Bool :=
  match socket with
  | some c => s.closed.all (·.conn ≠ c)
  | none => false

/-- Handler `i` becomes `h`. -/
def put (s : State) (i : ℕ) (h : Handler) : State := { s with handlers := s.handlers.set i h }

/-- A step of `RunServer`. The connection accepted last and not yet handed to a handler is the one
numbered `handlers.length`. -/
def runServer (s : State) : Option State :=
  match s.server with
  | .accept => some { s with server := .store }
  | .store =>
    some { s with clientSocket := some s.handlers.length, server := .readForEndPoint }
  | .readForEndPoint => some { s with server := .remoteEndPoint s.clientSocket }
  | .remoteEndPoint socket => if s.isOpen socket then some { s with server := .start } else none
  | .start => some { s with handlers := s.handlers ++ [.started], server := .sleep }
  | .sleep => some { s with server := .accept }

/-- A step of handler `i`, other than a `Receive`. -/
def handlerStep (s : State) (i : ℕ) (h : Handler) : Option State :=
  match h.stage with
  | .nullCheck =>
    some (s.put i { h with stage := if s.clientSocket = none then .done else .readForEndPoint })
  | .readForEndPoint => some (s.put i { h with socket := s.clientSocket, stage := .remoteEndPoint })
  | .remoteEndPoint =>
    if s.isOpen h.socket then
      some (s.put i { h with endPoint := h.socket, stage := .writeEndPoint })
    else none
  | .writeEndPoint =>
    some { s.put i { h with stage := .readForReceive } with clientIEP := h.endPoint }
  | .readForReceive => some (s.put i { h with socket := s.clientSocket, stage := .receive })
  | .receive => none
  | .copy =>
    some { s.put i { h with stage := .getString } with
      data := h.receiveData ++ s.data.drop h.receiveData.length }
  | .getString =>
    some (s.put i { h with rstring := s.data.take h.receiveData.length, stage := .readEndPoint })
  | .readEndPoint => some (s.put i { h with endPoint := s.clientIEP, stage := .readForSend })
  | .readForSend => some (s.put i { h with socket := s.clientSocket, stage := .send })
  | .send =>
    match h.socket with
    | some c =>
      if s.isOpen (some c) then
        some { s.put i { h with stage := .readForClose } with
          sent := s.sent ++ [⟨i, c, h.endPoint, h.rstring⟩] }
      else none
    | none => none
  | .readForClose => some (s.put i { h with socket := s.clientSocket, stage := .close })
  | .close =>
    match h.socket with
    | some c => some { s.put i { h with stage := .done } with closed := s.closed ++ [⟨i, c⟩] }
    | none => none
  | .done => none

/-- `Receive` returns `bs` to handler `i`. -/
def receiveStep (s : State) (i : ℕ) (bs : List UInt8) (h : Handler) : Option State :=
  if h.stage = .receive ∧ s.isOpen h.socket ∧ bs.length ≤ bufferSize then
    some (s.put i { h with receiveData := bs.map (⟨h.socket, ·⟩), stage := .copy })
  else none

end State

/-- One step of the process. -/
def step (s : State) (a : Action) : Option State :=
  if s.crashed then none
  else
    match a with
    | .runServer => s.runServer
    | .handler i => s.handlers[i]?.bind (s.handlerStep i)
    | .receive i bs => s.handlers[i]?.bind (s.receiveStep i bs)
    | .exception => some { s with crashed := true }

/-- What every handler is to keep to: it sends on its own connection only, what it has received
there only, and closes no other. -/
structure Kept (s : State) : Prop where
  sends : ∀ e ∈ s.sent, e.conn = e.handler
  body : ∀ e ∈ s.sent, ∀ c ∈ e.body, c.conn = some e.handler
  closes : ∀ e ∈ s.closed, e.conn = e.handler

/-- It is about what has been sent and closed only, and holds of less when it holds of more. -/
theorem Kept.of_subset {s u : State} (h : Kept u) (hsent : s.sent ⊆ u.sent)
    (hclosed : s.closed ⊆ u.closed) : Kept s where
  sends := fun e he => h.sends e (hsent he)
  body := fun e he => h.body e (hsent he)
  closes := fun e he => h.closes e (hclosed he)

theorem Kept.congr {s u : State} (h : Kept s) (hsent : u.sent = s.sent)
    (hclosed : u.closed = s.closed) : Kept u := by
  refine h.of_subset ?_ ?_
  · rw [hsent]
    exact List.Subset.refl _
  · rw [hclosed]
    exact List.Subset.refl _

theorem Kept.send {s u : State} (h : Kept s) {e : Sent} (hsent : u.sent = s.sent ++ [e])
    (hclosed : u.closed = s.closed) (hconn : e.conn = e.handler)
    (hbody : ∀ c ∈ e.body, c.conn = some e.handler) : Kept u where
  sends := by
    rw [hsent]
    exact List.forall_mem_append.2 ⟨h.sends, List.forall_mem_singleton.2 hconn⟩
  body := by
    rw [hsent]
    exact List.forall_mem_append.2 ⟨h.body, List.forall_mem_singleton.2 hbody⟩
  closes := by
    rw [hclosed]
    exact h.closes

theorem Kept.close {s u : State} (h : Kept s) {e : Closed} (hsent : u.sent = s.sent)
    (hclosed : u.closed = s.closed ++ [e]) (hconn : e.conn = e.handler) : Kept u where
  sends := by
    rw [hsent]
    exact h.sends
  body := by
    rw [hsent]
    exact h.body
  closes := by
    rw [hclosed]
    exact List.forall_mem_append.2 ⟨h.closes, List.forall_mem_singleton.2 hconn⟩

/-- A handler has copied bytes into `data` and not decoded them yet. -/
def Handler.Copied (h : Handler) : Prop := h.stage = .getString ∧ h.receiveData ≠ []

/-- A step in time: a handler reads `clientSocket` for `Send` or `Close` while its own connection is
the last one stored, and copies bytes into `data` while no other handler has its own there. -/
def Timely (s : State) (a : Action) : Prop :=
  ∀ i h, a = .handler i → s.handlers[i]? = some h →
    (h.stage = .readForSend ∨ h.stage = .readForClose → s.clientSocket = some i) ∧
    (h.stage = .copy → h.receiveData ≠ [] →
      ∀ j k, j ≠ i → s.handlers[j]? = some k → ¬ k.Copied)

/-- Every handler has come to its end. -/
def Finished (s : State) : Prop := ∀ h ∈ s.handlers, h.stage = .done

/-! ## Steps -/

/-- What the steps of a handler have in common: the handler changes, the other ones and the fields
of `RunServer` do not, and nothing sent or closed is taken back. -/
structure HandlerChanges (s : State) (i : ℕ) (h' : Handler) (u : State) : Prop where
  handlers : u.handlers = s.handlers.set i h'
  clientSocket : u.clientSocket = s.clientSocket
  server : u.server = s.server
  sent : s.sent ⊆ u.sent
  closed : s.closed ⊆ u.closed

/-- A handler that has not read `clientSocket` for `Close` yet. -/
def Handler.BeforeClose (h : Handler) : Prop := h.stage ≠ .close ∧ h.stage ≠ .done

/-- A step of a handler on its way to `Close`: it comes to it only by reading `clientSocket`, and
closes what it has read. -/
structure Advances (s : State) (i : ℕ) (h h' : Handler) (u : State) : Prop
    extends HandlerChanges s i h' u where
  read : h.BeforeClose → s.clientSocket ≠ none →
    h'.BeforeClose ∨ h'.stage = .close ∧ h'.socket = s.clientSocket
  close : ∀ c, h.stage = .close → h.socket = some c → ⟨i, c⟩ ∈ u.closed

/-- A step that leaves the fields, and what is sent and closed, as they are. -/
theorem handlerChanges_put (s : State) (i : ℕ) (h' : Handler) :
    HandlerChanges s i h' (s.put i h') :=
  ⟨rfl, rfl, rfl, List.Subset.refl _, List.Subset.refl _⟩

/-- A step that does not come to `Close`. -/
theorem HandlerChanges.advances {s u : State} {i : ℕ} {h h' : Handler}
    (hu : HandlerChanges s i h' u) (hstage : h.stage ≠ .close)
    (hbefore : s.clientSocket ≠ none → h'.BeforeClose) : Advances s i h h' u where
  toHandlerChanges := hu
  read := fun _ hnull => .inl (hbefore hnull)
  close := fun _ hclose => absurd hclose hstage

theorem handlerStep_advances {s u : State} {i : ℕ} {h : Handler}
    (hs : s.handlerStep i h = some u) : ∃ h', Advances s i h h' u := by
  cases hstage : h.stage <;> simp only [State.handlerStep, hstage] at hs
  case receive | done => cases hs
  case nullCheck =>
    cases hs
    refine ⟨_, (handlerChanges_put s i _).advances (by simp [hstage]) fun hnull => ?_⟩
    simp [Handler.BeforeClose, hnull]
  case readForEndPoint | readForReceive | getString | readEndPoint | readForSend =>
    cases hs
    exact ⟨_, (handlerChanges_put s i _).advances (by simp [hstage])
      fun _ => by simp [Handler.BeforeClose]⟩
  case remoteEndPoint =>
    split_ifs at hs
    cases hs
    exact ⟨_, (handlerChanges_put s i _).advances (by simp [hstage])
      fun _ => by simp [Handler.BeforeClose]⟩
  case writeEndPoint | copy =>
    cases hs
    exact ⟨_, HandlerChanges.advances ⟨rfl, rfl, rfl, List.Subset.refl _, List.Subset.refl _⟩
      (by simp [hstage]) fun _ => by simp [Handler.BeforeClose]⟩
  case send =>
    cases hsocket : h.socket with
    | none => simp [hsocket] at hs
    | some c =>
      simp only [hsocket, Option.ite_none_right_eq_some, Option.some.injEq] at hs
      obtain ⟨-, rfl⟩ := hs
      exact ⟨_, HandlerChanges.advances
        ⟨rfl, rfl, rfl, List.subset_append_left _ _, List.Subset.refl _⟩ (by simp [hstage])
        fun _ => by simp [Handler.BeforeClose]⟩
  case readForClose =>
    cases hs
    exact ⟨_, handlerChanges_put s i _, fun _ _ => .inr ⟨rfl, rfl⟩,
      fun c hclose => by simp [hstage] at hclose⟩
  case close =>
    cases hsocket : h.socket with
    | none => simp [hsocket] at hs
    | some c =>
      simp only [hsocket, Option.some.injEq] at hs
      subst hs
      refine ⟨_, ⟨rfl, rfl, rfl, List.Subset.refl _, List.subset_append_left _ _⟩,
        fun hbefore => absurd hstage hbefore.1, fun d _ hd => ?_⟩
      obtain rfl : c = d := Option.some.inj (hsocket.symm.trans hd)
      simp

/-- What a `Receive` does. -/
theorem receiveStep_eq_some {s u : State} {i : ℕ} {bs : List UInt8} {h : Handler}
    (hs : s.receiveStep i bs h = some u) :
    h.stage = .receive ∧
      u = s.put i { h with receiveData := bs.map (⟨h.socket, ·⟩), stage := .copy } := by
  simp only [State.receiveStep, Option.ite_none_right_eq_some, Option.some.injEq] at hs
  exact ⟨hs.1.1, hs.2.symm⟩

theorem receiveStep_advances {s u : State} {i : ℕ} {bs : List UInt8} {h : Handler}
    (hs : s.receiveStep i bs h = some u) : ∃ h', Advances s i h h' u := by
  obtain ⟨hstage, rfl⟩ := receiveStep_eq_some hs
  exact ⟨_, (handlerChanges_put s i _).advances (by simp [hstage])
    fun _ => by simp [Handler.BeforeClose]⟩

/-- A step of the process is one of a thread, or an exception. -/
theorem step_cases {s u : State} {a : Action} (hs : step s a = some u) :
    (a = .runServer ∧ s.runServer = some u) ∨
    (∃ i h, a = .handler i ∧ s.handlers[i]? = some h ∧ s.handlerStep i h = some u) ∨
    (∃ i bs h, a = .receive i bs ∧ s.handlers[i]? = some h ∧ s.receiveStep i bs h = some u) ∨
    (a = .exception ∧ u = { s with crashed := true }) := by
  simp only [step] at hs
  split_ifs at hs
  cases a with
  | runServer => exact .inl ⟨rfl, hs⟩
  | handler i =>
    obtain ⟨h, hi, hs⟩ := Option.bind_eq_some_iff.1 hs
    exact .inr (.inl ⟨i, h, rfl, hi, hs⟩)
  | receive i bs =>
    obtain ⟨h, hi, hs⟩ := Option.bind_eq_some_iff.1 hs
    exact .inr (.inr (.inl ⟨i, bs, h, rfl, hi, hs⟩))
  | exception => exact .inr (.inr (.inr ⟨rfl, (Option.some.inj hs).symm⟩))

/-- The other handlers stay as they are. -/
theorem HandlerChanges.getElem?_of_ne {s u : State} {i j : ℕ} {h' : Handler}
    (h : HandlerChanges s i h' u) (hne : i ≠ j) : u.handlers[j]? = s.handlers[j]? := by
  rw [h.handlers, List.getElem?_set_ne hne]

theorem HandlerChanges.getElem?_self {s u : State} {i : ℕ} {h h' : Handler}
    (hc : HandlerChanges s i h' u) (hi : s.handlers[i]? = some h) : u.handlers[i]? = some h' := by
  obtain ⟨hlt, -⟩ := List.getElem?_eq_some_iff.1 hi
  rw [hc.handlers, List.getElem?_set_self hlt]

/-! ## Runs with every step in time -/

/-- What a handler has of its own, by its next step: its values are its own connection's, unless a
later connection has been stored, in which case it is not to send or close any more. -/
def Good (s : State) (i : ℕ) (h : Handler) : Prop :=
  match h.stage with
  | .receive => h.socket = some i ∨ s.clientSocket ≠ some i
  | .copy => (∀ c ∈ h.receiveData, c.conn = some i) ∨ s.clientSocket ≠ some i
  | .getString =>
    (∀ c ∈ s.data.take h.receiveData.length, c.conn = some i) ∨ s.clientSocket ≠ some i
  | .readEndPoint | .readForSend =>
    (∀ c ∈ h.rstring, c.conn = some i) ∨ s.clientSocket ≠ some i
  | .send => h.socket = some i ∧ ∀ c ∈ h.rstring, c.conn = some i
  | .close => h.socket = some i
  | _ => True

/-- A step of another thread leaves it so: no store makes an earlier connection the current one
again, and the bytes in `data` are left alone. -/
theorem Good.frame {s u : State} {i : ℕ} {h : Handler} (hgood : Good s i h)
    (hclient : s.clientSocket ≠ some i → u.clientSocket ≠ some i)
    (hdata : h.Copied → u.data = s.data) : Good u i h := by
  cases hstage : h.stage <;> simp only [Good, hstage] at hgood ⊢
  case receive | copy | readEndPoint | readForSend => exact hgood.imp_right hclient
  case getString =>
    rcases eq_or_ne h.receiveData [] with hnil | hne
    · simp [hnil]
    · rw [hdata ⟨hstage, hne⟩]
      exact hgood.imp_right hclient
  case send | close => exact hgood

/-- Every handler has what is its own, and has kept to it. -/
structure Sound (s : State) : Prop where
  handlers : ∀ i h, s.handlers[i]? = some h → Good s i h
  kept : Kept s

/-- A step of one handler. -/
theorem Sound.changes {s u : State} {i : ℕ} {h' : Handler} (hs : Sound s)
    (hu : HandlerChanges s i h' u)
    (hdata : ∀ j k, j ≠ i → s.handlers[j]? = some k → k.Copied → u.data = s.data)
    (hgood : Good u i h') (hkept : Kept u) : Sound u := by
  refine ⟨fun j k hj => ?_, hkept⟩
  by_cases hji : j = i
  · subst hji
    rw [hu.handlers, List.getElem?_set] at hj
    simp only [if_true] at hj
    split_ifs at hj
    obtain rfl := Option.some.inj hj
    exact hgood
  · rw [hu.getElem?_of_ne (Ne.symm hji)] at hj
    refine (hs.handlers j k hj).frame ?_ (hdata j k hji hj)
    rw [hu.clientSocket]
    exact id

/-- A step of a handler that leaves the fields, and what is sent and closed, as they are. -/
theorem Sound.put {s : State} {i : ℕ} {h' : Handler} (hs : Sound s)
    (hgood : Good (s.put i h') i h') : Sound (s.put i h') :=
  hs.changes (handlerChanges_put s i h') (fun _ _ _ _ _ => rfl) hgood (hs.kept.congr rfl rfl)

/-- **A step of a handler, in time.** -/
theorem Sound.handlerStep {s u : State} {i : ℕ} {h : Handler} (hsound : Sound s)
    (ht : Timely s (.handler i)) (hi : s.handlers[i]? = some h)
    (hs : s.handlerStep i h = some u) : Sound u := by
  have hgood := hsound.handlers i h hi
  obtain ⟨hread, hcopy⟩ := ht i h rfl hi
  cases hstage : h.stage <;> simp only [State.handlerStep, hstage] at hs <;>
    simp only [Good, hstage] at hgood
  case receive | done => cases hs
  case nullCheck =>
    cases hs
    refine hsound.put ?_
    split_ifs <;> trivial
  case readForEndPoint =>
    cases hs
    exact hsound.put trivial
  case remoteEndPoint =>
    split_ifs at hs
    cases hs
    exact hsound.put trivial
  case writeEndPoint =>
    cases hs
    exact hsound.changes ⟨rfl, rfl, rfl, List.Subset.refl _, List.Subset.refl _⟩
      (fun _ _ _ _ _ => rfl) trivial (hsound.kept.congr rfl rfl)
  case readForReceive =>
    cases hs
    exact hsound.put (em (s.clientSocket = some i))
  case copy =>
    cases hs
    refine hsound.changes ⟨rfl, rfl, rfl, List.Subset.refl _, List.Subset.refl _⟩ ?_ ?_
      (hsound.kept.congr rfl rfl)
    · intro j k hji hj hcopied
      -- in time, only an empty copy finds another handler's bytes there
      have hnil : h.receiveData = [] := by
        by_contra hne
        exact hcopy hstage hne j k hji hj hcopied
      simp [hnil]
    · have htake : (h.receiveData ++ s.data.drop h.receiveData.length).take h.receiveData.length =
          h.receiveData := List.take_left' rfl
      simp only [Good]
      rw [htake]
      exact hgood
  case getString =>
    cases hs
    exact hsound.put hgood
  case readEndPoint =>
    cases hs
    exact hsound.put hgood
  case readForSend =>
    cases hs
    have hcurrent := hread (.inl hstage)
    exact hsound.put ⟨hcurrent, hgood.resolve_right (not_not_intro hcurrent)⟩
  case send =>
    obtain ⟨hsocket, hbody⟩ := hgood
    simp only [hsocket, Option.ite_none_right_eq_some, Option.some.injEq] at hs
    obtain ⟨-, rfl⟩ := hs
    exact hsound.changes ⟨rfl, rfl, rfl, List.subset_append_left _ _, List.Subset.refl _⟩
      (fun _ _ _ _ _ => rfl) trivial (hsound.kept.send rfl rfl rfl hbody)
  case readForClose =>
    cases hs
    exact hsound.put (hread (.inr hstage))
  case close =>
    simp only [hgood, Option.some.injEq] at hs
    subst hs
    exact hsound.changes ⟨rfl, rfl, rfl, List.Subset.refl _, List.subset_append_left _ _⟩
      (fun _ _ _ _ _ => rfl) trivial (hsound.kept.close rfl rfl rfl)

/-- A step of `RunServer`: a stored connection is later than every handler's. -/
theorem Sound.runServer {s u : State} (hsound : Sound s) (hs : s.runServer = some u) : Sound u := by
  have hkept : ∀ server clientSocket handlers,
      Kept { s with server := server, clientSocket := clientSocket, handlers := handlers } :=
    fun _ _ _ => (hsound.kept.congr rfl rfl)
  cases hserver : s.server <;> simp only [State.runServer, hserver] at hs
  case accept | readForEndPoint | sleep =>
    cases hs
    exact ⟨fun i h hi => (hsound.handlers i h hi).frame id fun _ => rfl, hkept _ _ _⟩
  case store =>
    cases hs
    refine ⟨fun i h hi => (hsound.handlers i h hi).frame (fun _ heq => ?_) fun _ => rfl,
      hkept _ _ _⟩
    obtain ⟨hlt, -⟩ := List.getElem?_eq_some_iff.1 hi
    exact absurd (Option.some.inj heq) (Nat.ne_of_gt hlt)
  case remoteEndPoint =>
    split_ifs at hs
    cases hs
    exact ⟨fun i h hi => (hsound.handlers i h hi).frame id fun _ => rfl, hkept _ _ _⟩
  case start =>
    cases hs
    refine ⟨fun i h hi => ?_, hkept _ _ _⟩
    simp only [List.getElem?_append] at hi
    split_ifs at hi
    · exact (hsound.handlers i h hi).frame id fun _ => rfl
    · -- the new handler
      obtain rfl : h = .started := by
        have hmem := List.mem_of_getElem? hi
        simpa using hmem
      trivial

/-- **The step lemma**, for steps in time. -/
theorem Sound.step {s u : State} {a : Action} (hsound : Sound s) (ht : Timely s a)
    (hstep : Listener6.step s a = some u) : Sound u := by
  rcases step_cases hstep with
    ⟨rfl, hs⟩ | ⟨i, h, rfl, hi, hs⟩ | ⟨i, bs, h, rfl, hi, hs⟩ | ⟨rfl, rfl⟩
  · exact hsound.runServer hs
  · exact hsound.handlerStep ht hi hs
  · obtain ⟨hstage, rfl⟩ := receiveStep_eq_some hs
    have hgood := hsound.handlers i h hi
    simp only [Good, hstage] at hgood
    refine hsound.put (hgood.imp_left fun hsocket c hc => ?_)
    obtain ⟨b, -, rfl⟩ := List.mem_map.1 hc
    exact hsocket
  · exact ⟨fun i h hi => (hsound.handlers i h hi).frame id fun _ => rfl,
      (hsound.kept.congr rfl rfl)⟩

theorem sound_start : Sound .start where
  handlers := by
    intro i h hi
    cases hi
  kept := by constructor <;> intro e he <;> cases he

/-- **Runs with every step in time**: every handler keeps to its own connection. -/
theorem kept_of_timely {as : List Action} {s : State} (h : Run step .start as s)
    (hmeet : StepsMeet step Timely .start as) : Kept s :=
  (h.invariant sound_start (fun _ _ _ hsound ht hs => hsound.step ht hs) hmeet).kept

/-! ## Runs with a step out of time -/

/-- A connection is stored before the first handler is started. -/
structure Stored (s : State) : Prop where
  server : (∃ c, s.server = .remoteEndPoint c) ∨ s.server = .readForEndPoint ∨ s.server = .start →
    s.clientSocket ≠ none
  handlers : s.handlers ≠ [] → s.clientSocket ≠ none

theorem Stored.runServer {s u : State} (h : Stored s) (hs : s.runServer = some u) : Stored u := by
  cases hserver : s.server <;> simp only [State.runServer, hserver] at hs
  case accept | sleep =>
    cases hs
    exact ⟨by simp, h.handlers⟩
  case store =>
    cases hs
    exact ⟨by simp, by simp⟩
  case readForEndPoint =>
    cases hs
    exact ⟨fun _ => h.server (.inr (.inl hserver)), h.handlers⟩
  case remoteEndPoint c =>
    split_ifs at hs
    cases hs
    exact ⟨fun _ => h.server (.inl ⟨c, hserver⟩), h.handlers⟩
  case start =>
    cases hs
    exact ⟨by simp, fun _ => h.server (.inr (.inr hserver))⟩

theorem Stored.changes {s u : State} {i : ℕ} {h' : Handler} (h : Stored s)
    (hu : HandlerChanges s i h' u) : Stored u where
  server := by
    rw [hu.server, hu.clientSocket]
    exact h.server
  handlers := by
    rw [hu.clientSocket, hu.handlers]
    intro hne
    exact h.handlers (by simpa using hne)

theorem stored_of_reachable {s : State} (h : Reachable step .start s) : Stored s := by
  refine Reachable.invariant (P := Stored) ⟨by simp [State.start], by simp [State.start]⟩ ?_ h
  intro s a u hstored hstep
  rcases step_cases hstep with
    ⟨-, hs⟩ | ⟨i, h, -, -, hs⟩ | ⟨i, bs, h, -, -, hs⟩ | ⟨-, rfl⟩
  · exact hstored.runServer hs
  · obtain ⟨h', hu⟩ := handlerStep_advances hs
    exact hstored.changes hu.toHandlerChanges
  · obtain ⟨h', hu⟩ := receiveStep_advances hs
    exact hstored.changes hu.toHandlerChanges
  · exact ⟨hstored.server, hstored.handlers⟩

/-- Handler `i` is to close another connection than its own: it has read that one already, or it
still has to read the field and a later one is stored there. -/
def Strays (s : State) (i : ℕ) (h : Handler) : Prop :=
  ∃ c, c ≠ i ∧ (h.BeforeClose ∧ s.clientSocket = some c ∨ h.stage = .close ∧ h.socket = some c)

/-- Some handler has not kept to its own connection, or is not going to. -/
def Doomed (s : State) : Prop := ¬ Kept s ∨ ∃ i h, s.handlers[i]? = some h ∧ Strays s i h

/-- A step of a handler: one that strays goes on to close another connection, and the other handlers
stray as they did. -/
theorem Doomed.advances {s u : State} {i : ℕ} {h h' : Handler} (hd : Doomed s)
    (hi : s.handlers[i]? = some h) (hu : Advances s i h h' u) : Doomed u := by
  rcases hd with hkept | ⟨j, k, hj, c, hne, hk⟩
  · exact .inl fun hkept' => hkept (hkept'.of_subset hu.sent hu.closed)
  · by_cases hij : i = j
    · subst hij
      obtain rfl : h = k := Option.some.inj (hi.symm.trans hj)
      have hself := hu.getElem?_self hi
      rcases hk with ⟨hstage, hclient⟩ | ⟨hstage, hsocket⟩
      · rcases hu.read hstage (by simp [hclient]) with hbefore | ⟨hstage', hsocket'⟩
        · exact .inr ⟨i, h', hself, c, hne, .inl ⟨hbefore, hu.clientSocket.trans hclient⟩⟩
        · exact .inr ⟨i, h', hself, c, hne, .inr ⟨hstage', hsocket'.trans hclient⟩⟩
      · exact .inl fun hkept => hne (hkept.closes _ (hu.close c hstage hsocket))
    · refine .inr ⟨j, k, (hu.getElem?_of_ne hij).trans hj, c, hne, ?_⟩
      rw [hu.clientSocket]
      exact hk

/-- A step that sends and closes nothing, and after which every handler that strays still does. -/
theorem Doomed.imp {s u : State} (hd : Doomed s) (hsent : u.sent = s.sent)
    (hclosed : u.closed = s.closed)
    (hstrays : ∀ i h, s.handlers[i]? = some h → Strays s i h →
      u.handlers[i]? = some h ∧ Strays u i h) : Doomed u := by
  rcases hd with hkept | ⟨i, h, hi, hk⟩
  · exact .inl fun hkept' => hkept (hkept'.congr hsent.symm hclosed.symm)
  · exact .inr ⟨i, h, hstrays i h hi hk⟩

/-- A step of `RunServer`: the connection it stores is no earlier handler's. -/
theorem Doomed.runServer {s u : State} (hd : Doomed s) (hs : s.runServer = some u) : Doomed u := by
  cases hserver : s.server <;> simp only [State.runServer, hserver] at hs
  case remoteEndPoint =>
    split_ifs at hs
    cases hs
    exact hd.imp rfl rfl fun i h hi hk => ⟨hi, hk⟩
  case accept | readForEndPoint | sleep =>
    cases hs
    exact hd.imp rfl rfl fun i h hi hk => ⟨hi, hk⟩
  case store =>
    cases hs
    refine hd.imp rfl rfl fun i h hi hk => ⟨hi, ?_⟩
    obtain ⟨hlt, -⟩ := List.getElem?_eq_some_iff.1 hi
    obtain ⟨c, hne, ⟨hbefore, -⟩ | hclose⟩ := hk
    · exact ⟨_, Nat.ne_of_gt hlt, .inl ⟨hbefore, rfl⟩⟩
    · exact ⟨c, hne, .inr hclose⟩
  case start =>
    cases hs
    refine hd.imp rfl rfl fun i h hi hk => ⟨?_, hk⟩
    obtain ⟨hlt, -⟩ := List.getElem?_eq_some_iff.1 hi
    exact (List.getElem?_append_left hlt).trans hi

theorem Doomed.step {s u : State} {a : Action} (hd : Doomed s)
    (hstep : Listener6.step s a = some u) : Doomed u := by
  rcases step_cases hstep with
    ⟨-, hs⟩ | ⟨i, h, -, hi, hs⟩ | ⟨i, bs, h, -, hi, hs⟩ | ⟨-, rfl⟩
  · exact hd.runServer hs
  · obtain ⟨h', hu⟩ := handlerStep_advances hs
    exact hd.advances hi hu
  · obtain ⟨h', hu⟩ := receiveStep_advances hs
    exact hd.advances hi hu
  · exact hd.imp rfl rfl fun i h hi hk => ⟨hi, hk⟩

/-- **Before a step out of time** some handler strays: there is one connection in the field, and a
handler that has not read it for `Close` is another's. -/
theorem doomed_of_not_timely {s : State} {a : Action} (hstored : Stored s) (ht : ¬ Timely s a) :
    Doomed s := by
  have hstray : ∀ i h, s.handlers[i]? = some h → h.BeforeClose → s.clientSocket ≠ some i →
      Doomed s := by
    intro i h hi hbefore hne
    have hnull := hstored.handlers (List.ne_nil_of_mem (List.mem_of_getElem? hi))
    obtain ⟨c, hc⟩ := Option.ne_none_iff_exists'.1 hnull
    exact .inr ⟨i, h, hi, c, fun heq => hne (heq ▸ hc), .inl ⟨hbefore, hc⟩⟩
  simp only [Timely, not_forall] at ht
  obtain ⟨i, h, rfl, hi, ht⟩ := ht
  rcases not_and_or.1 ht with hread | hcopy
  · simp only [not_forall] at hread
    obtain ⟨hstage, hne⟩ := hread
    refine hstray i h hi ?_ hne
    rcases hstage with hstage | hstage <;> simp [Handler.BeforeClose, hstage]
  · simp only [not_forall, not_not] at hcopy
    obtain ⟨hstage, -, j, k, hji, hj, hcopied⟩ := hcopy
    by_cases hcurrent : s.clientSocket = some i
    · refine hstray j k hj (by simp [Handler.BeforeClose, hcopied.1]) fun heq => hji ?_
      exact Option.some.inj (heq.symm.trans hcurrent)
    · exact hstray i h hi (by simp [Handler.BeforeClose, hstage]) hcurrent

/-- **Runs in which every handler finishes**, keeping to its own connection: every step is in
time. -/
theorem timely_of_kept {as : List Action} {s : State} (h : Run step .start as s)
    (hfin : Finished s) (hkept : Kept s) : StepsMeet step Timely .start as := by
  have hor : StepsMeet step Timely .start as ∨ Doomed s :=
    h.stepsMeet_or
      (fun _ _ _ hreach ht hs => (doomed_of_not_timely (stored_of_reachable hreach) ht).step hs)
      fun _ _ _ _ hd hs => hd.step hs
  refine hor.resolve_right ?_
  rintro (hnot | ⟨i, h, hi, c, -, hk⟩)
  · exact hnot hkept
  · have hdone := hfin h (List.mem_of_getElem? hi)
    rcases hk with ⟨hbefore, -⟩ | ⟨hclose, -⟩
    · exact hbefore.2 hdone
    · simp [hdone] at hclose

/-- **When the handlers keep to their own connections**: whenever every step is in time, and, in a
run in which they all finish, only then. -/
theorem kept_iff (as : List Action) (s : State) (h : Run step .start as s) :
    (StepsMeet step Timely .start as → Kept s) ∧
      (Finished s → (Kept s ↔ StepsMeet step Timely .start as)) :=
  ⟨kept_of_timely h, fun hfin => ⟨timely_of_kept h hfin, kept_of_timely h⟩⟩

/-- Two clients, each served before the next one is accepted; the second sends less. -/
theorem kept_quick :
    let serve : ℕ → List UInt8 → List Action := fun i bs =>
      List.replicate 5 .runServer ++ List.replicate 5 (.handler i) ++
        .receive i bs :: List.replicate 7 (.handler i) ++ [.runServer]
    let as := serve 0 [104, 105] ++ serve 1 [33]
    ∃ s, Run step .start as s ∧ Finished s ∧ Kept s ∧ StepsMeet step Timely .start as := by
  intro serve as
  let bytes₀ : List Cell := [⟨some 0, 104⟩, ⟨some 0, 105⟩]
  let bytes₁ : List Cell := [⟨some 1, 33⟩]
  let s : State :=
    ⟨.accept, some 1, some 1, bytes₁ ++ ⟨some 0, 105⟩ :: List.replicate 8190 ⟨none, 0⟩,
      [⟨.done, some 0, some 0, bytes₀, bytes₀⟩, ⟨.done, some 1, some 1, bytes₁, bytes₁⟩],
      [⟨0, 0, some 0, bytes₀⟩, ⟨1, 1, some 1, bytes₁⟩], [⟨0, 0⟩, ⟨1, 1⟩], false⟩
  have hrun : Run step .start as s := by rfl
  have hkept : Kept s := ⟨by decide, by decide, by decide⟩
  have hfin : Finished s := by
    unfold Finished
    decide
  exact ⟨s, hrun, hfin, hkept, ((kept_iff as s hrun).2 hfin).1 hkept⟩

/-- A slow client: connection 1 is accepted while handler 0 waits in `Receive`, and the reply to
connection 0 is sent there. -/
theorem not_kept_slow :
    ∃ s, Run step .start
        (List.replicate 5 .runServer ++ List.replicate 5 (.handler 0) ++
          List.replicate 3 .runServer ++
          .receive 0 [104, 105] :: List.replicate 5 (.handler 0)) s ∧ ¬ Kept s := by
  let bytes : List Cell := [⟨some 0, 104⟩, ⟨some 0, 105⟩]
  let s : State :=
    ⟨.readForEndPoint, some 1, some 0, bytes ++ List.replicate 8190 ⟨none, 0⟩,
      [⟨.readForClose, some 1, some 0, bytes, bytes⟩], [⟨0, 1, some 0, bytes⟩], [], false⟩
  refine ⟨s, by rfl, fun hkept => ?_⟩
  have hsent := hkept.sends _ List.mem_cons_self
  cases hsent

end Listener6

end Server6
