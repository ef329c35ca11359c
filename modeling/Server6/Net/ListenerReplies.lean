import Mathlib.Data.List.Nodup
import Server6.Net.Listener6

/-!
# The threaded listener in every run

What the handlers of `Listener6` keep to whatever the order of their steps, whether these are in time
or not. The three shared fields may be those of another connection at any step, but never of none.

* `replies_received`: the text of a reply is decoded from as many bytes as its handler has received,
  each of them the byte at the same place of a `Receive` in this run; and each handler sends at most
  once and closes at most once, after it has sent.
* `handler_stuck_iff`: a handler cannot go on exactly where it is about to use a socket that another
  handler has closed; otherwise it is done after thirteen steps.
-/

namespace Server6

namespace Listener6

/-! ## The stages -/

/-- How many steps a handler has taken. -/
def Stage.index : Stage → ℕ
  | .nullCheck => 0
  | .readForEndPoint => 1
  | .remoteEndPoint => 2
  | .writeEndPoint => 3
  | .readForReceive => 4
  | .receive => 5
  | .copy => 6
  | .getString => 7
  | .readEndPoint => 8
  | .readForSend => 9
  | .send => 10
  | .readForClose => 11
  | .close => 12
  | .done => 13

/-- The next step uses the socket read last. -/
def Stage.usesSocket (stage : Stage) : Prop :=
  stage = .remoteEndPoint ∨ stage = .receive ∨ stage = .send ∨ stage = .close

/-- The actions of handler `i`. -/
def Action.isOf (i : ℕ) : Action → Bool
  | .handler j => j = i
  | .receive j _ => j = i
  | _ => false

/-- How many connections have been accepted: the last one has no handler before `RunServer` starts it. -/
def State.accepted (s : State) : ℕ :=
  if s.server = .accept ∨ s.server = .sleep then s.handlers.length else s.handlers.length + 1

/-- Byte `p` of a `Receive` in the run `as`, marked with the connection its handler has read it from,
one of those accepted. -/
def Received (as : List Action) (p : ℕ) (c : Cell) : Prop :=
  ∃ before j bs after s h, as = before ++ .receive j bs :: after ∧ Run step .start before s ∧
    s.handlers[j]? = some h ∧ h.socket = c.conn ∧ (∃ k < s.accepted, c.conn = some k) ∧
    bs[p]? = some c.byte

/-- Each byte was received at the place where it stands. -/
def AllReceived (as : List Action) (cells : List Cell) : Prop :=
  ∀ p c, cells[p]? = some c → Received as p c

/-- A reply is decoded from received bytes, as many as its handler has received. -/
def Reply (as : List Action) (e : Sent) : Prop :=
  ∃ bs, .receive e.handler bs ∈ as ∧ bs.length ≤ bufferSize ∧ e.body.length = bs.length ∧
    AllReceived as e.body

/-! ## What is sent -/

/-- A reply to bytes that are a text ends with these bytes. -/
theorem sendData_eq {e : Sent} {t : Utf16} (ht : t.WellFormed)
    (hbody : e.body.map Cell.byte = Utf16.utf8 t) (serverAddress : Utf16) (address : ℕ → Utf16) :
    e.sendData serverAddress address =
      Utf16.utf8 (e.addresses serverAddress address) ++ e.body.map Cell.byte := by
  have hread : Utf16.ofUtf8 (Utf16.utf8 t) = t := by
    have hread := Utf16.ofUtf8_utf8_append ht []
    rwa [List.append_nil, show Utf16.ofUtf8 [] = [] by simp [Utf16.ofUtf8, Utf16.decode],
      List.append_nil] at hread
  have hjoins : Utf16.joins (e.addresses serverAddress address) t = false := by
    rw [Utf16.joins, Sent.addresses, List.getLast?_append]
    rfl
  rw [Sent.sendData, hbody, hread, Utf16.utf8_append hjoins]

/-! ## What every run keeps -/

variable {as : List Action} {s u : State} {a : Action} {i j : ℕ} {h h' : Handler} {c : Cell}

theorem Received.snoc {p : ℕ} (hc : Received as p c) (a : Action) : Received (as ++ [a]) p c := by
  obtain ⟨before, j, bs, after, s, h, rfl, hrest⟩ := hc
  exact ⟨before, j, bs, after ++ [a], s, h, by simp, hrest⟩

theorem AllReceived.snoc {cells : List Cell} (hcells : AllReceived as cells) (a : Action) :
    AllReceived (as ++ [a]) cells := fun p c hc => (hcells p c hc).snoc a

theorem Reply.snoc {e : Sent} (he : Reply as e) (a : Action) : Reply (as ++ [a]) e := by
  obtain ⟨xs, hxs, hle, hbody, hcells⟩ := he
  exact ⟨xs, List.mem_append_left _ hxs, hle, hbody, hcells.snoc a⟩

/-- What handler `i` has done, and where its values come from. -/
structure HandlerSound (as : List Action) (s : State) (i : ℕ) (h : Handler) : Prop where
  steps : as.countP (Action.isOf i) = h.stage.index
  sent : i ∈ s.sent.map Sent.handler ↔ Stage.send.index < h.stage.index
  closed : i ∈ s.closed.map Closed.handler ↔ h.stage = .done
  socket : h.stage.usesSocket → ∃ k < s.accepted, h.socket = some k
  receives : Stage.receive.index < h.stage.index →
    .receive i (h.receiveData.map Cell.byte) ∈ as ∧ h.receiveData.length ≤ bufferSize
  copy : h.stage = .copy → AllReceived as h.receiveData
  getString : h.stage = .getString → AllReceived as (s.data.take h.receiveData.length)
  rstring : h.stage = .readEndPoint ∨ h.stage = .readForSend ∨ h.stage = .send →
    h.rstring.length = h.receiveData.length ∧ AllReceived as h.rstring

/-- What holds of the process. -/
structure ProcessSound (as : List Action) (s : State) : Prop where
  handlers : ∀ (i : ℕ) (h : Handler), s.handlers[i]? = some h → HandlerSound as s i h
  sent : ∀ e ∈ s.sent, e.handler < s.handlers.length ∧ Reply as e
  closed : ∀ d ∈ s.closed, d.handler < s.handlers.length ∧ d.handler ∈ s.sent.map Sent.handler
  clientSocket : ∀ k, s.clientSocket = some k → k < s.accepted
  data : s.data.length = bufferSize
  sendsOnce : (s.sent.map Sent.handler).Nodup
  closesOnce : (s.closed.map Closed.handler).Nodup
  fresh : ∀ i, s.handlers.length ≤ i → as.countP (Action.isOf i) = 0

theorem processSound_start : ProcessSound [] .start where
  handlers := by simp [State.start]
  sent := by simp [State.start]
  closed := by simp [State.start]
  clientSocket := by simp [State.start]
  data := List.length_replicate
  sendsOnce := List.Pairwise.nil
  closesOnce := List.Pairwise.nil
  fresh := by simp

/-- A step of another thread. -/
theorem HandlerSound.frame (hs : HandlerSound as s i h) (ha : a.isOf i = false)
    (haccepted : s.accepted ≤ u.accepted)
    (hsent : i ∈ u.sent.map Sent.handler ↔ i ∈ s.sent.map Sent.handler)
    (hclosed : i ∈ u.closed.map Closed.handler ↔ i ∈ s.closed.map Closed.handler)
    (hdata : ∀ n, AllReceived as (s.data.take n) → AllReceived (as ++ [a]) (u.data.take n)) :
    HandlerSound (as ++ [a]) u i h := by
  refine ⟨?_, hsent.trans hs.sent, hclosed.trans hs.closed, fun huses => ?_, fun hlt => ?_,
    fun hstage => (hs.copy hstage).snoc a, fun hstage => ?_, fun hstage => ?_⟩
  · rw [List.countP_append, hs.steps, List.countP_singleton, ha]
    rfl
  · obtain ⟨k, hk, hsocket⟩ := hs.socket huses
    exact ⟨k, Nat.lt_of_lt_of_le hk haccepted, hsocket⟩
  · obtain ⟨hmem, hle⟩ := hs.receives hlt
    exact ⟨List.mem_append_left _ hmem, hle⟩
  · exact hdata _ (hs.getString hstage)
  · obtain ⟨hlength, hcells⟩ := hs.rstring hstage
    exact ⟨hlength, hcells.snoc a⟩

/-- Copying received bytes into `data` leaves the other ones where they are. -/
theorem AllReceived.copied {xs data : List Cell} {n : ℕ} (hxs : AllReceived as xs)
    (hdata : AllReceived as (data.take n)) :
    AllReceived as ((xs ++ data.drop xs.length).take n) := by
  intro p c hc
  rw [List.getElem?_take] at hc
  split_ifs at hc with hp
  by_cases hlt : p < xs.length
  · rw [List.getElem?_append_left hlt] at hc
    exact hxs p c hc
  · rw [List.getElem?_append_right (by omega), List.getElem?_drop,
      Nat.add_sub_cancel' (by omega)] at hc
    exact hdata p c ((List.getElem?_take_of_lt hp).trans hc)

/-- A step of handler `i`, which may send and close. -/
theorem ProcessSound.changes (hs : ProcessSound as s) (hi : s.handlers[i]? = some h)
    (ha : ∀ j, a.isOf j = decide (i = j)) (hu : u.handlers = s.handlers.set i h')
    (hserver : u.server = s.server) (hclient : u.clientSocket = s.clientSocket) (es : List Sent)
    (ds : List Closed)
    (hsent : u.sent = s.sent ++ es) (hclosed : u.closed = s.closed ++ ds)
    (hes : es.map Sent.handler = [] ∨ es.map Sent.handler = [i] ∧ i ∉ s.sent.map Sent.handler)
    (hreply : ∀ e ∈ es, Reply as e)
    (hds : ds.map Closed.handler = [] ∨ ds.map Closed.handler = [i] ∧
      i ∉ s.closed.map Closed.handler ∧ i ∈ s.sent.map Sent.handler)
    (hlength : u.data.length = bufferSize)
    (hdata : ∀ n, AllReceived as (s.data.take n) → AllReceived (as ++ [a]) (u.data.take n))
    (hgood : HandlerSound (as ++ [a]) u i h') : ProcessSound (as ++ [a]) u := by
  have hlt : i < s.handlers.length := (List.getElem?_eq_some_iff.1 hi).1
  have hlen : u.handlers.length = s.handlers.length := by rw [hu, List.length_set]
  have haccepted : u.accepted = s.accepted := by rw [State.accepted, hserver, hlen, State.accepted]
  have hsentMap : u.sent.map Sent.handler = s.sent.map Sent.handler ++ es.map Sent.handler := by
    rw [hsent, List.map_append]
  have hclosedMap : u.closed.map Closed.handler =
      s.closed.map Closed.handler ++ ds.map Closed.handler := by
    rw [hclosed, List.map_append]
  refine ⟨fun j k hj => ?_, fun e he => ?_, fun d hd => ?_, ?_, hlength, ?_, ?_, fun j hj => ?_⟩
  · by_cases hij : i = j
    · subst hij
      rw [hu, List.getElem?_set_self hlt] at hj
      obtain rfl := Option.some.inj hj
      exact hgood
    · rw [hu, List.getElem?_set_ne hij] at hj
      refine (hs.handlers j k hj).frame (by simp [ha, hij]) (Nat.le_of_eq haccepted.symm) ?_ ?_ hdata
      · rw [hsentMap]
        rcases hes with hes | ⟨hes, -⟩ <;> simp [hes, Ne.symm hij]
      · rw [hclosedMap]
        rcases hds with hds | ⟨hds, -⟩ <;> simp [hds, Ne.symm hij]
  · rw [hsent] at he
    rw [hlen]
    rcases List.mem_append.1 he with he | he
    · obtain ⟨hlt, hreply⟩ := hs.sent e he
      exact ⟨hlt, hreply.snoc a⟩
    · have hmem : e.handler ∈ es.map Sent.handler := List.mem_map_of_mem he
      have heq : e.handler = i := by
        rcases hes with hes | ⟨hes, -⟩
        · simp [hes] at hmem
        · simpa [hes] using hmem
      exact ⟨heq ▸ hlt, (hreply e he).snoc a⟩
  · rw [hclosed] at hd
    rw [hlen, hsentMap]
    rcases List.mem_append.1 hd with hd | hd
    · obtain ⟨hlt, hmem⟩ := hs.closed d hd
      exact ⟨hlt, List.mem_append_left _ hmem⟩
    · have hmem : d.handler ∈ ds.map Closed.handler := List.mem_map_of_mem hd
      rcases hds with hds | ⟨hds, -, hin⟩
      · simp [hds] at hmem
      · obtain rfl : d.handler = i := by simpa [hds] using hmem
        exact ⟨hlt, List.mem_append_left _ hin⟩
  · rw [hclient, haccepted]
    exact hs.clientSocket
  · rw [hsentMap]
    rcases hes with hes | ⟨hes, hnew⟩
    · rw [hes, List.append_nil]
      exact hs.sendsOnce
    · rw [hes]
      exact hs.sendsOnce.append (List.nodup_singleton i) (by simpa using hnew)
  · rw [hclosedMap]
    rcases hds with hds | ⟨hds, hnew, -⟩
    · rw [hds, List.append_nil]
      exact hs.closesOnce
    · rw [hds]
      exact hs.closesOnce.append (List.nodup_singleton i) (by simpa using hnew)
  · rw [hlen] at hj
    have hij : i ≠ j := Nat.ne_of_lt (Nat.lt_of_lt_of_le hlt hj)
    rw [List.countP_append, hs.fresh j hj, List.countP_singleton, ha]
    simp [hij]

/-- A step of handler `i` that leaves `data`, and what is sent and closed, as they are. -/
theorem ProcessSound.silent (hs : ProcessSound as s) (hi : s.handlers[i]? = some h)
    (ha : ∀ j, a.isOf j = decide (i = j)) (hu : u.handlers = s.handlers.set i h')
    (hserver : u.server = s.server) (hclient : u.clientSocket = s.clientSocket)
    (hsent : u.sent = s.sent) (hclosed : u.closed = s.closed) (hdata : u.data = s.data)
    (hgood : HandlerSound (as ++ [a]) u i h') : ProcessSound (as ++ [a]) u := by
  refine hs.changes hi ha hu hserver hclient [] [] (by simp [hsent]) (by simp [hclosed])
    (.inl rfl) (by simp) (.inl rfl) (hdata ▸ hs.data) (fun n hn => ?_) hgood
  rw [hdata]
  exact hn.snoc a

theorem HandlerSound.steps_next (hs : HandlerSound as s i h) (ha : ∀ j, a.isOf j = decide (i = j))
    {n : ℕ} (hn : n = h.stage.index + 1) : (as ++ [a]).countP (Action.isOf i) = n := by
  rw [List.countP_append, hs.steps, List.countP_singleton, ha, hn]
  simp

/-- What does not depend on the values of the handler. -/
theorem HandlerSound.next (hs : HandlerSound as s i h) (ha : ∀ j, a.isOf j = decide (i = j))
    (hindex : h'.stage.index = h.stage.index + 1)
    (hsent : i ∈ u.sent.map Sent.handler ↔ Stage.send.index < h'.stage.index)
    (hclosed : i ∈ u.closed.map Closed.handler ↔ h'.stage = .done)
    (hsocket : h'.stage.usesSocket → ∃ k < u.accepted, h'.socket = some k)
    (hreceives : Stage.receive.index < h'.stage.index → h'.receiveData = h.receiveData ∧
      Stage.receive.index < h.stage.index ∨
        .receive i (h'.receiveData.map Cell.byte) ∈ as ++ [a] ∧ h'.receiveData.length ≤ bufferSize)
    (hcopy : h'.stage = .copy → AllReceived (as ++ [a]) h'.receiveData)
    (hgetString : h'.stage = .getString →
      AllReceived (as ++ [a]) (u.data.take h'.receiveData.length))
    (hrstring : h'.stage = .readEndPoint ∨ h'.stage = .readForSend ∨ h'.stage = .send →
      h'.rstring.length = h'.receiveData.length ∧ AllReceived as h'.rstring) :
    HandlerSound (as ++ [a]) u i h' := by
  refine ⟨hs.steps_next ha hindex, hsent, hclosed, hsocket, fun hlt => ?_, hcopy, hgetString,
    fun hstage => ?_⟩
  · rcases hreceives hlt with ⟨hsame, hlt'⟩ | hreceives
    · rw [hsame]
      obtain ⟨hmem, hle⟩ := hs.receives hlt'
      exact ⟨List.mem_append_left _ hmem, hle⟩
    · exact hreceives
  · obtain ⟨hlength, hcells⟩ := hrstring hstage
    exact ⟨hlength, hcells.snoc a⟩

theorem ProcessSound.handlerStep (hs : ProcessSound as s) (hstored : Stored s)
    (hi : s.handlers[i]? = some h) (hstep : s.handlerStep i h = some u) :
    ProcessSound (as ++ [.handler i]) u := by
  have hgood := hs.handlers i h hi
  have ha : ∀ j, (Action.handler i).isOf j = decide (i = j) := fun _ => rfl
  have hlt : i < s.handlers.length := (List.getElem?_eq_some_iff.1 hi).1
  have hsent := hgood.sent
  have hclosed := hgood.closed
  have hreceives := hgood.receives
  -- what is read from the field
  have hread : ∃ k < s.accepted, s.clientSocket = some k := by
    obtain ⟨k, hk⟩ := Option.ne_none_iff_exists'.1
      (hstored.handlers (List.ne_nil_of_mem (List.mem_of_getElem? hi)))
    exact ⟨k, hs.clientSocket k hk, hk⟩
  have hread' : ∀ h', ∃ k < (s.put i h').accepted, s.clientSocket = some k :=
    fun h' => by simpa [State.accepted, State.put] using hread
  cases hstage : h.stage <;> simp only [State.handlerStep, hstage] at hstep <;>
    simp only [hstage, Stage.index, reduceCtorEq, Nat.reduceLT, iff_true, iff_false,
      forall_const] at hsent hclosed hreceives
  case receive | done => cases hstep
  case nullCheck =>
    obtain ⟨k, -, hk⟩ := hread
    rw [hk, if_neg (by simp)] at hstep
    cases hstep
    refine hs.silent hi ha rfl rfl rfl rfl rfl rfl (hgood.next ha ?_ ?_ ?_ ?_ ?_ ?_ ?_ ?_)
    all_goals simp [State.put, hstage, Stage.index, Stage.usesSocket, hsent, hclosed]
  case readForEndPoint | readForReceive | readForClose =>
    cases hstep
    refine hs.silent hi ha rfl rfl rfl rfl rfl rfl
      (hgood.next ha ?_ ?_ ?_ (fun _ => hread' _) ?_ ?_ ?_ ?_)
    all_goals simp [State.put, hstage, Stage.index, hsent, hclosed]
  case remoteEndPoint =>
    split_ifs at hstep
    cases hstep
    refine hs.silent hi ha rfl rfl rfl rfl rfl rfl (hgood.next ha ?_ ?_ ?_ ?_ ?_ ?_ ?_ ?_)
    all_goals simp [State.put, hstage, Stage.index, Stage.usesSocket, hsent, hclosed]
  case writeEndPoint =>
    cases hstep
    refine hs.silent hi ha rfl rfl rfl rfl rfl rfl (hgood.next ha ?_ ?_ ?_ ?_ ?_ ?_ ?_ ?_)
    all_goals simp [State.put, hstage, Stage.index, Stage.usesSocket, hsent, hclosed]
  case copy =>
    cases hstep
    have hcells := (hgood.copy hstage).snoc (.handler i)
    refine hs.changes hi ha rfl rfl rfl [] [] (by simp [State.put])
      (by simp [State.put]) (.inl rfl) (by simp) (.inl rfl) ?_
      (fun n hn => hcells.copied (hn.snoc (.handler i)))
      (hgood.next ha ?_ ?_ ?_ ?_ ?_ ?_ (fun _ => ?copied) ?_)
    · have hdata := hs.data
      simp only [List.length_append, List.length_drop]
      omega
    case copied =>
      have htake : (h.receiveData ++ s.data.drop h.receiveData.length).take h.receiveData.length =
          h.receiveData := List.take_left' rfl
      dsimp only
      rw [htake]
      exact hcells
    all_goals simp [State.put, hstage, Stage.index, Stage.usesSocket, hsent, hclosed]
  case getString =>
    cases hstep
    refine hs.silent hi ha rfl rfl rfl rfl rfl rfl
      (hgood.next ha ?_ ?_ ?_ ?_ ?_ ?_ ?_ fun _ => ⟨?taken, hgood.getString hstage⟩)
    case taken =>
      have hdata := hs.data
      simp only [List.length_take]
      omega
    all_goals simp [State.put, hstage, Stage.index, Stage.usesSocket, hsent, hclosed]
  case readEndPoint =>
    cases hstep
    obtain ⟨hlength, hcells⟩ := hgood.rstring (.inl hstage)
    refine hs.silent hi ha rfl rfl rfl rfl rfl rfl
      (hgood.next ha ?_ ?_ ?_ ?_ ?_ ?_ ?_ fun _ => ⟨hlength, hcells⟩)
    all_goals simp [State.put, hstage, Stage.index, Stage.usesSocket, hsent, hclosed]
  case readForSend =>
    cases hstep
    obtain ⟨hlength, hcells⟩ := hgood.rstring (.inr (.inl hstage))
    refine hs.silent hi ha rfl rfl rfl rfl rfl rfl
      (hgood.next ha ?_ ?_ ?_ (fun _ => hread' _) ?_ ?_ ?_
        fun _ => ⟨hlength, hcells⟩)
    all_goals simp [State.put, hstage, Stage.index, hsent, hclosed]
  case send =>
    obtain ⟨k, -, hsocket⟩ := hgood.socket (by simp [Stage.usesSocket, hstage])
    obtain ⟨hlength, hcells⟩ := hgood.rstring (.inr (.inr hstage))
    simp only [hsocket, Option.ite_none_right_eq_some, Option.some.injEq] at hstep
    obtain ⟨-, rfl⟩ := hstep
    refine hs.changes hi ha rfl rfl rfl [⟨i, k, h.endPoint, h.rstring⟩] [] rfl
      (by simp [State.put]) (.inr ⟨rfl, hsent⟩) ?_ (.inl rfl) hs.data
      (fun n hn => hn.snoc (.handler i))
      (hgood.next ha ?_ ?_ ?_ ?_ ?_ ?_ ?_ ?_)
    · refine List.forall_mem_singleton.2 ⟨_, hreceives.1, ?_, ?_, hcells⟩
      · simpa using hreceives.2
      · simpa using hlength
    all_goals simp [State.put, hstage, Stage.index, Stage.usesSocket, hclosed]
  case close =>
    obtain ⟨k, -, hsocket⟩ := hgood.socket (by simp [Stage.usesSocket, hstage])
    simp only [hsocket, Option.some.injEq] at hstep
    subst hstep
    refine hs.changes hi ha rfl rfl rfl [] [⟨i, k⟩] (by simp [State.put]) rfl
      (.inl rfl) (by simp) (.inr ⟨rfl, hclosed, hsent⟩) hs.data (fun n hn => hn.snoc (.handler i))
      (hgood.next ha ?_ ?_ ?_ ?_ ?_ ?_ ?_ ?_)
    all_goals simp [State.put, hstage, Stage.index, Stage.usesSocket, hsent]

theorem ProcessSound.receiveStep {xs : List UInt8} (hrun : Run step .start as s)
    (hs : ProcessSound as s) (hi : s.handlers[i]? = some h) (hstep : s.receiveStep i xs h = some u) :
    ProcessSound (as ++ [.receive i xs]) u := by
  have hgood := hs.handlers i h hi
  simp only [State.receiveStep, Option.ite_none_right_eq_some, Option.some.injEq] at hstep
  obtain ⟨⟨hstage, -, hle⟩, rfl⟩ := hstep
  obtain ⟨k, hk, hsocket⟩ := hgood.socket (by simp [Stage.usesSocket, hstage])
  have hsent := hgood.sent
  have hclosed := hgood.closed
  simp only [hstage, Stage.index, reduceCtorEq, Nat.reduceLT, iff_false] at hsent hclosed
  have hbytes : (xs.map (Cell.mk h.socket)).map Cell.byte = xs := by simp [Function.comp_def]
  refine hs.silent hi (fun _ => rfl) rfl rfl rfl rfl rfl rfl
    (hgood.next (fun _ => rfl) ?_ ?_ ?_ ?_ (fun _ => .inr ⟨?received, ?fits⟩)
      (fun _ => ?cells) ?_ ?_)
  case received =>
    rw [hbytes]
    exact List.mem_append_right _ (List.mem_singleton.2 rfl)
  case fits => simpa using hle
  case cells =>
    intro p c hc
    rw [List.getElem?_map, Option.map_eq_some_iff] at hc
    obtain ⟨b, hb, rfl⟩ := hc
    exact ⟨as, i, xs, [], s, h, rfl, hrun, hi, rfl, ⟨k, hk, hsocket⟩, hb⟩
  all_goals simp [State.put, hstage, Stage.index, Stage.usesSocket, hsent, hclosed]

/-- A step of `RunServer`, which may store a connection or start a handler, or an exception. -/
theorem ProcessSound.others (hs : ProcessSound as s) (ha : ∀ j, a.isOf j = false)
    (new : List Handler) (hnew : ∀ h ∈ new, h = .started)
    (hu : u.handlers = s.handlers ++ new)
    (haccepted : s.accepted ≤ u.accepted)
    (hclient : ∀ k, u.clientSocket = some k → s.clientSocket = some k ∨ k < u.accepted)
    (hsent : u.sent = s.sent)
    (hclosed : u.closed = s.closed) (hdata : u.data = s.data) : ProcessSound (as ++ [a]) u := by
  have hlen : s.handlers.length ≤ u.handlers.length := by simp [hu]
  have hcount : ∀ j, (as ++ [a]).countP (Action.isOf j) = as.countP (Action.isOf j) := by
    intro j
    rw [List.countP_append, List.countP_singleton, ha]
    rfl
  refine ⟨fun j h hj => ?_, fun e he => ?_, fun d hd => ?_, fun k hk => ?_, hdata ▸ hs.data,
    hsent ▸ hs.sendsOnce, hclosed ▸ hs.closesOnce, fun j hj => ?_⟩
  · rw [hu, List.getElem?_append] at hj
    split_ifs at hj with hlt
    · refine (hs.handlers j h hj).frame (ha j) haccepted (by rw [hsent]) (by rw [hclosed])
        fun n hn => ?_
      rw [hdata]
      exact hn.snoc a
    · -- the new handler has done nothing
      obtain rfl := hnew h (List.mem_of_getElem? hj)
      have hj := Nat.not_lt.1 hlt
      have hnone : j ∉ s.sent.map Sent.handler := by
        intro hmem
        obtain ⟨e, he, rfl⟩ := List.mem_map.1 hmem
        exact hlt (hs.sent e he).1
      have hnone' : j ∉ s.closed.map Closed.handler := by
        intro hmem
        obtain ⟨d, hd, rfl⟩ := List.mem_map.1 hmem
        exact hlt (hs.closed d hd).1
      refine ⟨by rw [hcount, hs.fresh j hj]; rfl, ?_, ?_, ?_, ?_, ?_, ?_, ?_⟩
      all_goals simp [hsent, hclosed, hnone, hnone', Handler.started, Stage.index,
        Stage.usesSocket]
  · rw [hsent] at he
    obtain ⟨hlt, hreply⟩ := hs.sent e he
    exact ⟨Nat.lt_of_lt_of_le hlt hlen, hreply.snoc a⟩
  · rw [hclosed] at hd
    rw [hsent]
    obtain ⟨hlt, hmem⟩ := hs.closed d hd
    exact ⟨Nat.lt_of_lt_of_le hlt hlen, hmem⟩
  · rcases hclient k hk with hsame | hlt
    · exact Nat.lt_of_lt_of_le (hs.clientSocket k hsame) haccepted
    · exact hlt
  · rw [hcount]
    exact hs.fresh j (Nat.le_trans hlen hj)

theorem ProcessSound.runServer (hs : ProcessSound as s) (hstep : s.runServer = some u) :
    ProcessSound (as ++ [.runServer]) u := by
  have ha : ∀ j, Action.runServer.isOf j = false := fun _ => rfl
  cases hserver : s.server <;> simp only [State.runServer, hserver] at hstep
  case accept | readForEndPoint | sleep =>
    cases hstep
    exact hs.others ha [] (by simp) (by simp) (by simp [State.accepted, hserver])
      (fun _ => .inl) rfl rfl rfl
  case store =>
    cases hstep
    refine hs.others ha [] (by simp) (by simp) (by simp [State.accepted, hserver])
      (fun k hk => .inr ?_) rfl rfl rfl
    obtain rfl := Option.some.inj hk
    simp [State.accepted]
  case remoteEndPoint =>
    split_ifs at hstep
    cases hstep
    exact hs.others ha [] (by simp) (by simp) (by simp [State.accepted, hserver])
      (fun _ => .inl) rfl rfl rfl
  case start =>
    cases hstep
    exact hs.others ha [.started] (by simp) rfl (by simp [State.accepted, hserver])
      (fun _ => .inl) rfl rfl rfl

theorem processSound_of_run (h : Run step .start as s) : ProcessSound as s := by
  refine Run.induction (P := fun as s => ProcessSound as s) processSound_start ?_ h
  intro as s a u hrun ih hstep
  have hstored : Stored s := stored_of_reachable ⟨as, hrun⟩
  rcases step_cases hstep with
    ⟨rfl, hact⟩ | ⟨i, h, rfl, hi, hact⟩ | ⟨i, xs, h, rfl, hi, hact⟩ | ⟨rfl, rfl⟩
  · exact ih.runServer hact
  · exact ih.handlerStep hstored hi hact
  · exact ih.receiveStep hrun hi hact
  · exact ih.others (fun _ => rfl) [] (by simp) (by simp) (Nat.le_refl _) (fun _ => .inl) rfl
      rfl rfl

/-- **What is sent in any run**: the text of a reply is decoded from as many bytes as its handler has
received, each of them the byte at the same place of a `Receive` in this run, on an accepted
connection; where they are the UTF-8 of a text, the reply ends with them. Each handler sends at most
once and closes at most once, and closes only after it has sent. -/
theorem replies_received (as : List Action) (s : State) (h : Run step .start as s) :
    (∀ e ∈ s.sent,
      (∃ bs, .receive e.handler bs ∈ as ∧ bs.length ≤ bufferSize ∧ e.body.length = bs.length) ∧
        (∀ p c, e.body[p]? = some c → Received as p c) ∧
        ∀ serverAddress address t, Utf16.WellFormed t → e.body.map Cell.byte = Utf16.utf8 t →
          e.sendData serverAddress address =
            Utf16.utf8 (e.addresses serverAddress address) ++ e.body.map Cell.byte) ∧
      (s.sent.map Sent.handler).Nodup ∧ (s.closed.map Closed.handler).Nodup ∧
      ∀ d ∈ s.closed, d.handler ∈ s.sent.map Sent.handler := by
  have hs := processSound_of_run h
  refine ⟨fun e he => ?_, hs.sendsOnce, hs.closesOnce, fun d hd => (hs.closed d hd).2⟩
  obtain ⟨-, bs, hbs, hle, hlength, hcells⟩ := hs.sent e he
  exact ⟨⟨bs, hbs, hle, hlength⟩, hcells, fun _ _ _ ht hbody => sendData_eq ht hbody _ _⟩

/-- Two clients, each served before the next one is accepted; the second sends a byte that is no
text. -/
theorem replies_received_quick :
    let serve : ℕ → List UInt8 → List Action := fun i bs =>
      List.replicate 5 .runServer ++ List.replicate 5 (.handler i) ++
        .receive i bs :: List.replicate 7 (.handler i) ++ [.runServer]
    let as := serve 0 [104, 105] ++ serve 1 [0xFF]
    ∃ s, Run step .start as s ∧ s.sent.map Sent.handler = [0, 1] ∧
      ∀ e ∈ s.sent, e.body.length ≤ bufferSize ∧ ∀ p c, e.body[p]? = some c → Received as p c := by
  intro serve as
  let bytes₀ : List Cell := [⟨some 0, 104⟩, ⟨some 0, 105⟩]
  let bytes₁ : List Cell := [⟨some 1, 0xFF⟩]
  let s : State :=
    ⟨.accept, some 1, some 1, bytes₁ ++ ⟨some 0, 105⟩ :: List.replicate 8190 ⟨none, 0⟩,
      [⟨.done, some 0, some 0, bytes₀, bytes₀⟩, ⟨.done, some 1, some 1, bytes₁, bytes₁⟩],
      [⟨0, 0, some 0, bytes₀⟩, ⟨1, 1, some 1, bytes₁⟩], [⟨0, 0⟩, ⟨1, 1⟩], false⟩
  have hrun : Run step .start as s := by rfl
  refine ⟨s, hrun, rfl, fun e he => ?_⟩
  obtain ⟨⟨bs, -, hle, hlength⟩, hcells, -⟩ := (replies_received as s hrun).1 e he
  exact ⟨hlength ▸ hle, hcells⟩

/-- A byte that is no text goes out as the replacement character. -/
example : (Sent.mk 1 1 (some 1) [⟨some 1, 0xFF⟩]).sendData (.ofString "::1")
    (fun _ => .ofString "::2") = Utf16.utf8 (.ofString "::1 => ::2 : ") ++ [0xEF, 0xBF, 0xBD] := by
  decide +kernel

/-! ## Handlers that cannot go on -/

theorem isOpen_eq_false_iff {k : ℕ} : s.isOpen (some k) = false ↔ ∃ d ∈ s.closed, d.conn = k := by
  simp [State.isOpen]

/-- No step of handler `i` is possible. -/
def Stuck (s : State) (i : ℕ) : Prop := ∀ a : Action, a.isOf i → step s a = none

theorem stuck_iff (hrunning : s.crashed = false) (hi : s.handlers[i]? = some h) :
    Stuck s i ↔ s.handlerStep i h = none ∧ ∀ xs, s.receiveStep i xs h = none := by
  have hhandler : step s (.handler i) = s.handlerStep i h := by simp [step, hrunning, hi]
  have hreceive : ∀ xs, step s (.receive i xs) = s.receiveStep i xs h := by
    simp [step, hrunning, hi]
  constructor
  · intro hstuck
    refine ⟨?_, fun xs => ?_⟩
    · rw [← hhandler]
      exact hstuck _ (by simp [Action.isOf])
    · rw [← hreceive]
      exact hstuck _ (by simp [Action.isOf])
  · rintro ⟨hh, hr⟩ a ha
    cases a with
    | runServer => cases ha
    | exception => cases ha
    | handler j =>
      obtain rfl : j = i := by simpa [Action.isOf] using ha
      rw [hhandler, hh]
    | receive j xs =>
      obtain rfl : j = i := by simpa [Action.isOf] using ha
      rw [hreceive, hr]

/-- **Where a handler cannot go on**: when it is done, after thirteen steps, or when it is about to use
a socket that another handler has closed. -/
theorem handler_stuck_iff (as : List Action) (s : State) (hrun : Run step .start as s)
    (hrunning : s.crashed = false) (i : ℕ) (h : Handler) (hi : s.handlers[i]? = some h) :
    as.countP (Action.isOf i) = h.stage.index ∧
      (Stuck s i ↔ h.stage = .done ∨
        (h.stage = .remoteEndPoint ∨ h.stage = .receive ∨ h.stage = .send) ∧
          ∃ d ∈ s.closed, h.socket = some d.conn ∧ d.handler ≠ i) := by
  have hgood := (processSound_of_run hrun).handlers i h hi
  refine ⟨hgood.steps, (stuck_iff hrunning hi).trans ?_⟩
  -- the handler has not closed anything itself
  have hother : ∀ k, h.stage ≠ .done → h.socket = some k →
      (s.isOpen h.socket = false ↔ ∃ d ∈ s.closed, h.socket = some d.conn ∧ d.handler ≠ i) := by
    intro k hdone hsocket
    rw [hsocket, isOpen_eq_false_iff]
    constructor
    · rintro ⟨d, hd, rfl⟩
      refine ⟨d, hd, rfl, ?_⟩
      rintro rfl
      exact hdone (hgood.closed.1 (List.mem_map_of_mem hd))
    · rintro ⟨d, hd, hconn, -⟩
      exact ⟨d, hd, (Option.some.inj hconn).symm⟩
  cases hstage : h.stage
  case done => simp [State.handlerStep, State.receiveStep, hstage]
  case remoteEndPoint | send =>
    obtain ⟨k, -, hsocket⟩ := hgood.socket (by simp [Stage.usesSocket, hstage])
    have hother := hother k (by simp [hstage]) hsocket
    rw [← hother, hsocket]
    simp [State.handlerStep, State.receiveStep, hstage, hsocket]
  case receive =>
    obtain ⟨k, -, hsocket⟩ := hgood.socket (by simp [Stage.usesSocket, hstage])
    have hother := hother k (by simp [hstage]) hsocket
    rw [← hother]
    simp only [State.handlerStep, State.receiveStep, hstage, true_and]
    constructor
    · intro hnone
      have hnil := hnone []
      simpa using hnil
    · intro hclosed
      have hclosed : s.isOpen h.socket = false := by simpa using hclosed
      simp [hclosed]
  case close =>
    obtain ⟨k, -, hsocket⟩ := hgood.socket (by simp [Stage.usesSocket, hstage])
    simp [State.handlerStep, hstage, hsocket]
  all_goals simp [State.handlerStep, hstage]

/-- Two handlers on one socket: the first one has closed it, and the second one is about to receive
from it. -/
theorem handler_stuck_iff_closed :
    ∃ s, Run step .start
        (List.replicate 5 .runServer ++ List.replicate 5 (.handler 0) ++
          .receive 0 [104] :: List.replicate 6 .runServer ++ List.replicate 5 (.handler 1) ++
            List.replicate 7 (.handler 0)) s ∧ Stuck s 1 := by
  let bytes : List Cell := [⟨some 0, 104⟩]
  let s : State :=
    ⟨.sleep, some 1, some 1, bytes ++ List.replicate 8191 ⟨none, 0⟩,
      [⟨.done, some 1, some 1, bytes, bytes⟩, ⟨.receive, some 1, some 1, [], []⟩],
      [⟨0, 1, some 1, bytes⟩], [⟨0, 1⟩], false⟩
  have hrun : Run step .start
      (List.replicate 5 .runServer ++ List.replicate 5 (.handler 0) ++
        .receive 0 [104] :: List.replicate 6 .runServer ++ List.replicate 5 (.handler 1) ++
          List.replicate 7 (.handler 0)) s := rfl
  exact ⟨s, hrun, (handler_stuck_iff _ s hrun rfl 1 ⟨.receive, some 1, some 1, [], []⟩ rfl).2.2
    (.inr ⟨.inr (.inl rfl), ⟨0, 1⟩, List.mem_singleton.2 rfl, rfl, by simp⟩)⟩

end Listener6

end Server6
