import Server6.Foundations.Distinct
import Server6.Net.TcpClientWebRequest

/-!
# Looking up addresses and names

`NetworkAddresses` asks the name service for the addresses of a host and for the names of an address,
and servers for the address they are reached from. Both loops collect what they have not collected
before, and go on behind an exception; the second one hands it to the log, which may throw itself.

* `Collected` is the invariant of the loop over the names: the name left over from an earlier lookup
  is in the list. `getDnsHostNamesByHostName_firstOccurrences` is what the loop returns.
* `getConnectedIpAddresses_firstOccurrences` is the same for the addresses, and says when the log lets
  the method return; `addressOf_endPoint` is where an address is the one of the local endpoint.
-/

namespace Server6

namespace Net

open EnDeCoding

/-- The name service: the name of this machine, the addresses of a host, and the name it answers a
lookup of an address with, the lookups of a call counted from 0. -/
structure Dns (ε IP : Type) where
  hostName : Except ε Utf16
  hostEntry : Utf16 → Except ε (List IP)
  hostNameOf : ℕ → IP → Except ε NString
  isLoopback : IP → Bool

variable {ε IP : Type}

/-! ## The code -/

namespace Dns

variable (D : Dns ε IP)

/-- `GetHostEntryByHostName`. -/
def getHostEntryByHostName (hostname : NString) : Except ε (List IP) := do
  let hostname ← if isNullOrEmpty hostname then D.hostName else .ok (orEmpty hostname)
  D.hostEntry hostname

/-- `GetIpAddrsByHostName`. -/
def getIpAddrsByHostName (hostname : NString) : Except ε (List IP) := do
  let host ← D.getHostEntryByHostName hostname
  return host.filter fun ip => ! D.isLoopback ip

/-- The variables of the loop in `GetDnsHostNamesByHostName`. -/
structure Names where
  hostnames : List Utf16
  lastAdded : NString
  deriving DecidableEq, Repr

/-- The body of the loop, where the lookup has come to an end. -/
def addHostName (st : Names) (lookup : Except ε NString) : Names :=
  let lastAdded := match lookup with
    | .ok hostName => hostName
    | .error _ => st.lastAdded
  if isNullOrEmpty lastAdded = false ∧ orEmpty lastAdded ∉ st.hostnames then
    ⟨st.hostnames ++ [orEmpty lastAdded], lastAdded⟩
  else ⟨st.hostnames, lastAdded⟩

/-- The loop over the addresses, behind the lookups of `n` of them. An exception of a lookup is dropped
in an empty `catch` block. -/
def lookUpNames (n : ℕ) : List IP → Names → Names
  | [], st => st
  | ip :: ips, st => lookUpNames (n + 1) ips (addHostName st (D.hostNameOf n ip))

/-- `GetDnsHostNamesByHostName`. -/
def getDnsHostNamesByHostName (hostname : NString) : Except ε (List Utf16) := do
  let ips ← D.getIpAddrsByHostName hostname
  let st := D.lookUpNames 0 ips ⟨[], some []⟩
  return st.hostnames

/-! ## The names -/

/-- The name a lookup gives, unless it is empty. -/
def nameOf : Except ε NString → Option Utf16
  | .ok hostName => if isNullOrEmpty hostName then none else some (orEmpty hostName)
  | .error _ => none

/-- **The invariant**: the names of the lookups so far are collected, and the one left over is one of
them. -/
structure Collected (lookups : List (Except ε NString)) (st : Names) : Prop where
  hostnames : st.hostnames = distinct (lookups.filterMap nameOf)
  lastAdded : isNullOrEmpty st.lastAdded = true ∨ orEmpty st.lastAdded ∈ st.hostnames

theorem collected_start : Collected ([] : List (Except ε NString)) ⟨[], some []⟩ := ⟨rfl, .inl rfl⟩

/-- One lookup. -/
theorem Collected.step {lookups : List (Except ε NString)} {st : Names} (h : Collected lookups st)
    (lookup : Except ε NString) : Collected (lookups ++ [lookup]) (addHostName st lookup) := by
  obtain ⟨hnames, hlast⟩ := h
  cases lookup with
  | error x =>
    have hsame : addHostName st (.error x : Except ε NString) = st := by
      unfold addHostName
      simp only
      rw [if_neg]
      rintro ⟨hnonempty, hnew⟩
      rcases hlast with hlast | hlast
      · rw [hlast] at hnonempty
        cases hnonempty
      · exact hnew hlast
    rw [hsame]
    exact ⟨hnames.trans (distinct_filterMap_none rfl lookups).symm, hlast⟩
  | ok hostName =>
    unfold addHostName
    simp only
    by_cases hempty : isNullOrEmpty hostName = true
    · have hnone : nameOf (.ok hostName : Except ε NString) = none := if_pos hempty
      rw [if_neg (by simp [hempty])]
      exact ⟨hnames.trans (distinct_filterMap_none hnone lookups).symm, .inl hempty⟩
    · have hsome : nameOf (.ok hostName : Except ε NString) = some (orEmpty hostName) :=
        if_neg hempty
      have hdistinct := distinct_filterMap_some hsome lookups
      rw [← hnames] at hdistinct
      rw [Bool.not_eq_true] at hempty
      by_cases hmem : orEmpty hostName ∈ st.hostnames
      · rw [if_neg fun hnew => hnew.2 hmem]
        exact ⟨by rw [hdistinct, addNew_of_mem hmem], .inr hmem⟩
      · rw [if_pos ⟨hempty, hmem⟩]
        exact ⟨by rw [hdistinct, addNew_of_notMem hmem], .inr (by simp)⟩

/-- The whole loop. -/
theorem Collected.lookUpNames {done : List (Except ε NString)} {st : Names} (h : Collected done st)
    (n : ℕ) (ips : List IP) :
    Collected (done ++ ips.mapIdx fun i => D.hostNameOf (n + i)) (D.lookUpNames n ips st) := by
  induction ips generalizing done st n with
  | nil => rwa [List.mapIdx_nil, List.append_nil]
  | cons ip ips ih =>
    have hrest := ih (h.step (D.hostNameOf n ip)) (n + 1)
    rw [List.mapIdx_cons, List.append_cons, Dns.lookUpNames]
    simpa only [Nat.add_zero, Nat.add_assoc, Nat.add_comm 1] using hrest

/-- **The names of the addresses whose lookup succeeded**, each once and in the order in which they
come first. -/
theorem getDnsHostNamesByHostName_firstOccurrences (hostname : NString) {ips : List IP}
    (h : D.getIpAddrsByHostName hostname = .ok ips) :
    ∃ hostnames, D.getDnsHostNamesByHostName hostname = .ok hostnames ∧
      FirstOccurrences ((ips.mapIdx D.hostNameOf).filterMap nameOf) hostnames := by
  have hloop := collected_start.lookUpNames D 0 ips
  simp only [List.nil_append, Nat.zero_add] at hloop
  refine ⟨(D.lookUpNames 0 ips ⟨[], some []⟩).hostnames, ?_, ?_⟩
  · rw [getDnsHostNamesByHostName, h]
    rfl
  · rw [hloop.hostnames]
    exact firstOccurrences_distinct _

/-- A host with five addresses, one of them the loopback: the lookup of the second fails, the third
has no name, and the last has the name of the first. -/
def sample : Dns Unit ℕ where
  hostName := .ok (.ofString "localhost")
  hostEntry _ := .ok [1, 127, 2, 3, 4, 5]
  hostNameOf _ ip :=
    if ip = 2 then .error ()
    else .ok (some (.ofString (if ip = 3 then "" else if ip = 4 then "mail" else "www")))
  isLoopback ip := ip = 127

theorem getDnsHostNamesByHostName_firstOccurrences_sample :
    ∃ hostnames, sample.getDnsHostNamesByHostName none = .ok hostnames ∧
      FirstOccurrences (([1, 2, 3, 4, 5].mapIdx sample.hostNameOf).filterMap nameOf) hostnames :=
  sample.getDnsHostNamesByHostName_firstOccurrences none rfl

/-! ## The log -/

/-- `k` entries of the log, behind `logged` of them: the first exception ends it. -/
def logEntries (log : ℕ → Except ε Unit) (logged : ℕ) : ℕ → Except ε Unit
  | 0 => .ok ()
  | k + 1 => do
    log logged
    logEntries log (logged + 1) k

theorem logEntries_add (log : ℕ → Except ε Unit) (logged j k : ℕ) :
    logEntries log logged (j + k) =
      (do logEntries log logged j; logEntries log (logged + j) k) := by
  induction j generalizing logged with
  | zero =>
    rw [Nat.zero_add, Nat.add_zero]
    rfl
  | succ j ih =>
    rw [Nat.succ_add, logEntries, logEntries, ih (logged + 1), Nat.add_assoc, Nat.add_comm 1 j]
    cases log logged <;> rfl

theorem logEntries_eq_ok_iff (log : ℕ → Except ε Unit) (logged k : ℕ) :
    logEntries log logged k = .ok () ↔ ∀ i < k, log (logged + i) = .ok () := by
  induction k generalizing logged with
  | zero => exact iff_of_true rfl fun i hi => absurd hi (Nat.not_lt_zero i)
  | succ k ih =>
    rw [logEntries]
    constructor
    · intro h i hi
      cases hfirst : log logged with
      | error e =>
        rw [hfirst] at h
        cases h
      | ok u =>
        rw [hfirst, ok_bind, ih] at h
        cases i with
        | zero => exact hfirst
        | succ i =>
          rw [Nat.add_comm i, ← Nat.add_assoc]
          exact h i (by omega)
    · intro h
      rw [show log logged = .ok () from h 0 (by omega), ok_bind, ih]
      intro i hi
      rw [Nat.add_assoc, Nat.add_comm 1]
      exact h (i + 1) (by omega)

/-! ## The addresses -/

section

variable {φ : Type} [DecidableEq IP] (connect : ℕ → IP → Int → Connection ε)
  (parse : Utf16 → Except φ IP) (log : ℕ → Except ε Unit)

/-- `GetIpAddrsByHostName`, where an exception is handed to `LogStatic`, with the number of entries
logged. -/
def caughtIpAddrs (hostname : NString) (logged : ℕ) : Except ε (List IP × ℕ) :=
  match D.getIpAddrsByHostName hostname with
  | .ok ips => .ok (ips, logged)
  | .error _ => do
    log logged
    return ([], logged + 1)

/-- The addresses of the servers: the last two hosts may be missing. -/
def serverIps : Except ε (List IP × ℕ) := do
  let area23 ← D.getIpAddrsByHostName (some (.ofString "area23.at"))
  let paris ← D.getIpAddrsByHostName (some (.ofString "paris.area23.at"))
  let (virginia, logged) ← D.caughtIpAddrs log (some (.ofString "virginia.area23.at")) 0
  let (parisienne, logged) ← D.caughtIpAddrs log (some (.ofString "parisienne.area23.at")) logged
  return (area23 ++ paris ++ virginia ++ parisienne, logged)

/-- The body of the loop in `GetConnectedIpAddresses`, where the request has come to an end. -/
def addAddress (validAddrs : List IP) (logged : ℕ) (resp : Except (WebExn ε) Utf16) :
    Except ε (List IP × ℕ) :=
  match resp with
  | .error _ => do
    log logged
    return (validAddrs, logged + 1)
  | .ok resp =>
    match parse resp with
    | .error _ => do
      log logged
      return (validAddrs, logged + 1)
    | .ok clientIp =>
      .ok (if clientIp ∉ validAddrs then validAddrs ++ [clientIp] else validAddrs, logged)

/-- The loop over the servers, behind the requests to `n` of them. -/
def askServers (n : ℕ) : List IP → List IP → ℕ → Except ε (List IP × ℕ)
  | [], validAddrs, logged => .ok (validAddrs, logged)
  | serverIp :: serverIps, validAddrs, logged => do
    let (validAddrs, logged) ←
      addAddress parse log validAddrs logged (makeWebRequest (connect n serverIp 80))
    askServers (n + 1) serverIps validAddrs logged

/-- `GetConnectedIpAddresses`. -/
def getConnectedIpAddresses : Except ε (List IP) := do
  let (serverIps, logged) ← D.serverIps log
  let (validAddrs, _) ← askServers connect parse log 0 serverIps [] logged
  return validAddrs

/-- The address a request gives, if it can be read. -/
def addressOf : Except (WebExn ε) Utf16 → Option IP
  | .error _ => none
  | .ok resp => (parse resp).toOption

omit [DecidableEq IP] in
/-- The caller gets the address of the local endpoint, where the request answers with it. -/
theorem addressOf_endPoint {a p : Utf16} (hno : ¬ IsMapped a)
    (h : Answers parse a (clientAddress (some (endPoint a p)))) :
    addressOf parse (makeWebRequest (⟨.ok (some (endPoint a p)), .ok ()⟩ : Connection ε)) =
      (parse a).toOption := by
  obtain ⟨t, ht, -, hparse⟩ := h.other hno
  have hrequest : makeWebRequest (⟨.ok (some (endPoint a p)), .ok ()⟩ : Connection ε) = .ok t := by
    unfold makeWebRequest
    simp only [Except.mapError, ok_bind, ht]
    rfl
  rw [hrequest, addressOf, hparse]

/-- One request: an address that is new is appended, and everything else is logged. -/
theorem addAddress_eq (validAddrs : List IP) (logged : ℕ) (resp : Except (WebExn ε) Utf16) :
    addAddress parse log validAddrs logged resp =
      match addressOf parse resp with
      | none => do
        log logged
        return (validAddrs, logged + 1)
      | some clientIp => .ok (addNew validAddrs clientIp, logged) := by
  cases resp with
  | error x => rfl
  | ok resp =>
    rw [addAddress, addressOf]
    cases hparse : parse resp with
    | error x => rfl
    | ok clientIp => exact congrArg (fun vs => Except.ok (vs, logged)) (ite_not _ _ _)

/-- Whether a request comes to the log. -/
def fails (resp : Except (WebExn ε) Utf16) : Bool := (addressOf parse resp).isNone

/-- **The whole loop**, behind the answers of the servers asked before. -/
theorem askServers_eq (n : ℕ) (ips : List IP) (done answers : List (Except (WebExn ε) Utf16))
    (hanswers : (ips.mapIdx fun i ip => makeWebRequest (connect (n + i) ip 80)) = answers)
    (logged : ℕ) :
    askServers connect parse log n ips (distinct (done.filterMap (addressOf parse))) logged = (do
      logEntries log logged (answers.countP (fails parse))
      return (distinct ((done ++ answers).filterMap (addressOf parse)),
        logged + answers.countP (fails parse))) := by
  induction ips generalizing n done answers logged with
  | nil =>
    obtain rfl : [] = answers := hanswers
    rw [List.append_nil]
    rfl
  | cons ip ips ih =>
    rw [List.mapIdx_cons, Nat.add_zero] at hanswers
    simp only [← Nat.add_assoc, Nat.add_right_comm n _ 1] at hanswers
    subst hanswers
    let answer := makeWebRequest (connect n ip 80)
    have hrest := ih (n + 1) (done ++ [answer]) _ rfl
    rw [askServers, addAddress_eq, List.append_cons]
    cases haddr : addressOf parse answer with
    | none =>
      have hfails : fails parse answer = true := by rw [fails, haddr, Option.isNone_none]
      rw [distinct_filterMap_none haddr] at hrest
      rw [List.countP_cons_of_pos hfails, logEntries]
      simp only [bind_assoc, pure_bind, hrest, answer, Nat.add_assoc, Nat.add_comm 1]
    | some clientIp =>
      have hfails : ¬ fails parse answer = true := by simp [fails, haddr]
      rw [distinct_filterMap_some haddr] at hrest
      rw [List.countP_cons_of_neg hfails]
      exact hrest logged

omit [DecidableEq IP] in
/-- A host that may be missing, and the entry that says so. -/
theorem caughtIpAddrs_eq (hostname : NString) (logged : ℕ) :
    D.caughtIpAddrs log hostname logged = (do
      logEntries log logged (D.getIpAddrsByHostName hostname).toOption.isNone.toNat
      return ((D.getIpAddrsByHostName hostname).toOption.getD [],
        logged + (D.getIpAddrsByHostName hostname).toOption.isNone.toNat)) := by
  unfold caughtIpAddrs
  cases D.getIpAddrsByHostName hostname with
  | ok ips => rfl
  | error e =>
    show _ = (do (do log logged; Except.ok ()); return ([], logged + 1))
    rw [bind_assoc]
    rfl

/-- **The addresses the servers are reached from**, each once and in the order in which they come
first. The first two hosts must be found. An exception behind them ends the method only if the log
throws, which has an entry for each of the other two hosts that is missing and for each request that
gives no address. -/
theorem getConnectedIpAddresses_firstOccurrences {area23 paris : List IP}
    (harea23 : D.getIpAddrsByHostName (some (.ofString "area23.at")) = .ok area23)
    (hparis : D.getIpAddrsByHostName (some (.ofString "paris.area23.at")) = .ok paris) :
    let virginia := (D.getIpAddrsByHostName (some (.ofString "virginia.area23.at"))).toOption
    let parisienne := (D.getIpAddrsByHostName (some (.ofString "parisienne.area23.at"))).toOption
    let serverIps := area23 ++ paris ++ virginia.getD [] ++ parisienne.getD []
    let answers := serverIps.mapIdx fun n serverIp => makeWebRequest (connect n serverIp 80)
    let failures := virginia.isNone.toNat + parisienne.isNone.toNat +
      answers.countP fun answer => (addressOf parse answer).isNone
    ∃ validAddrs, FirstOccurrences (answers.filterMap (addressOf parse)) validAddrs ∧
      ∀ addrs, D.getConnectedIpAddresses connect parse log = .ok addrs ↔
        addrs = validAddrs ∧ ∀ n < failures, log n = .ok () := by
  intro virginia parisienne serverIps answers failures
  have hservers : D.serverIps log = (do
      logEntries log 0 virginia.isNone.toNat
      logEntries log virginia.isNone.toNat parisienne.isNone.toNat
      return (serverIps, virginia.isNone.toNat + parisienne.isNone.toNat)) := by
    rw [Dns.serverIps, harea23, hparis, ok_bind, ok_bind]
    simp only [caughtIpAddrs_eq, bind_assoc, pure_bind, Nat.zero_add]
    rfl
  have hloop := askServers_eq connect parse log 0 serverIps [] answers (by simp [answers])
    (virginia.isNone.toNat + parisienne.isNone.toNat)
  rw [List.nil_append, List.filterMap_nil, distinct_nil] at hloop
  have hall : D.getConnectedIpAddresses connect parse log = (do
      logEntries log 0 failures
      return distinct (answers.filterMap (addressOf parse))) := by
    rw [getConnectedIpAddresses, hservers, logEntries_add, logEntries_add]
    simp only [bind_assoc, pure_bind, Nat.zero_add, hloop]
    rfl
  refine ⟨_, firstOccurrences_distinct _, fun addrs => ?_⟩
  have hentries := logEntries_eq_ok_iff log 0 failures
  simp only [Nat.zero_add] at hentries
  rw [hall, ← hentries]
  cases logEntries log 0 failures with
  | error e => exact iff_of_false nofun fun h => nomatch h.2
  | ok u => exact ⟨fun h => ⟨(Except.ok.inj h).symm, rfl⟩, fun h => congrArg _ h.1.symm⟩

end

/-- Three hosts of two servers each; the third is not known. -/
def servers : Dns Unit Utf16 where
  hostName := .ok (.ofString "localhost")
  hostEntry hostname :=
    if hostname = .ofString "virginia.area23.at" then .error ()
    else .ok [.ofString "2001:db8::1", .ofString "2001:db8::2"]
  hostNameOf _ _ := .ok none
  isLoopback ip := ip = .ofString "::1"

/-- The second server does not answer; the other ones are reached from one address. -/
def fromOneAddress (n : ℕ) (_ : Utf16) (_ : Int) : Connection Unit where
  localEndPoint :=
    if n = 1 then .error ()
    else .ok (some (endPoint (.ofString "2001:db8::9") (decimal 80)))
  close := .ok ()

/-- A log that has room for two entries. -/
def twoEntries (n : ℕ) : Except Unit Unit := if n < 2 then .ok () else .error ()

/-- The entries of the log are that of the host and that of the server. -/
theorem getConnectedIpAddresses_firstOccurrences_servers :
    let two := [Utf16.ofString "2001:db8::1", Utf16.ofString "2001:db8::2"]
    ∃ validAddrs,
      servers.getConnectedIpAddresses fromOneAddress host twoEntries = .ok validAddrs ∧
        FirstOccurrences (((two ++ two ++ [] ++ two).mapIdx fun n serverIp =>
          makeWebRequest (fromOneAddress n serverIp 80)).filterMap (addressOf host)) validAddrs := by
  intro two
  obtain ⟨validAddrs, hfirst, hreturns⟩ :=
    servers.getConnectedIpAddresses_firstOccurrences fromOneAddress host twoEntries
      (show servers.getIpAddrsByHostName (some (.ofString "area23.at")) = .ok two from rfl)
      (show servers.getIpAddrsByHostName (some (.ofString "paris.area23.at")) = .ok two from rfl)
  exact ⟨validAddrs, (hreturns validAddrs).2 ⟨rfl, by decide +kernel⟩, hfirst⟩

end Dns

end Net

end Server6
