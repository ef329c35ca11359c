import Mathlib.Data.Bool.AllAny
import Server6.EnDeCoding.Strings
import Server6.Foundations.Replace

/-!
# The address a server is reached from

`MakeWebRequest` connects to a server and answers with the text of its local endpoint, which is
`[A]:P` for an IPv6 address `A` and a port `P`. Of an IPv4 address mapped to IPv6 it keeps the IPv4
text: where `::ffff:` occurs, wherever it does, every occurrence is deleted, the text is cut at its
last colon, and brackets are trimmed.

* `IsIPv4Text` and `IsIPv6Text` are the texts of addresses.
* `Answers` is what the caller relies on, and `clientAddress_answers_iff` is when it is so: an
  address that has the marker in it without being mapped is cut to pieces.
-/

namespace Server6

namespace Net

open EnDeCoding

/-! ## Address texts -/

def IsDigit (c : UInt16) : Prop := 48 ≤ c ∧ c ≤ 57

instance : DecidablePred IsDigit := fun _ => inferInstanceAs (Decidable (_ ∧ _))

def IsHexDigit (c : UInt16) : Prop := IsDigit c ∨ 65 ≤ c ∧ c ≤ 70 ∨ 97 ≤ c ∧ c ≤ 102

instance : DecidablePred IsHexDigit := fun _ => inferInstanceAs (Decidable (_ ∨ _))

/-- A number in decimal digits. -/
def decimal (n : ℕ) : Utf16 := (Nat.toDigits 10 n).map fun c => c.val.toUInt16

/-- Four numbers below 256, with dots between them. -/
def IsIPv4Text (t : Utf16) : Prop :=
  ∃ a < 256, ∃ b < 256, ∃ c < 256, ∃ d < 256,
    t = decimal a ++ 46 :: decimal b ++ 46 :: decimal c ++ 46 :: decimal d

/-- Sixteen bits: up to four hexadecimal digits. -/
def IsGroup (g : Utf16) : Prop := g ≠ [] ∧ g.length ≤ 4 ∧ ∀ c ∈ g, IsHexDigit c

theorem isGroup_iff (g : Utf16) :
    IsGroup g ↔ g ≠ [] ∧ g.length ≤ 4 ∧ (g.all fun c => IsHexDigit c) = true := by
  rw [List.all_iff_forall_prop]
  rfl

instance : DecidablePred IsGroup := fun g => decidable_of_iff _ (isGroup_iff g).symm

/-- `n` groups, of which the last two may be an IPv4 text. -/
inductive Groups : ℕ → List Utf16 → Prop
  | nil : Groups 0 []
  | group {n : ℕ} {g : Utf16} {gs : List Utf16} : IsGroup g → Groups n gs → Groups (n + 1) (g :: gs)
  | ipv4 {v : Utf16} : IsIPv4Text v → Groups 2 [v]

/-- Groups, with colons between them. -/
def joined (gs : List Utf16) : Utf16 := [58].intercalate gs

/-- The text of an IPv6 address: eight groups, or fewer with `::` once for groups of zeros, and the
number of its scope behind a percent sign. -/
inductive IsIPv6Text : Utf16 → Prop
  | full {gs : List Utf16} : Groups 8 gs → IsIPv6Text (joined gs)
  | compressed {n : ℕ} {front back : List Utf16} : (∀ g ∈ front, IsGroup g) → Groups n back →
      front.length + n < 8 → IsIPv6Text (joined front ++ 58 :: 58 :: joined back)
  | inScope {t : Utf16} {n : ℕ} : IsIPv6Text t → 37 ∉ t → n < 2 ^ 32 →
      IsIPv6Text (t ++ 37 :: decimal n)

/-- The text of a port number. -/
def IsPort (t : Utf16) : Prop := ∃ n < 65536, t = decimal n

/-- `IPEndPoint.ToString` of an IPv6 address. -/
def endPoint (address port : Utf16) : Utf16 := 91 :: (address ++ 93 :: 58 :: port)

theorem isDigit_decimal {n : ℕ} {c : UInt16} (hc : c ∈ decimal n) : IsDigit c := by
  obtain ⟨d, hd, rfl⟩ := List.mem_map.1 hc
  have hdigit := Nat.isDigit_of_mem_toDigits (by decide) (by decide) hd
  unfold Char.isDigit at hdigit
  rw [Bool.and_eq_true, decide_eq_true_eq, decide_eq_true_eq, ge_iff_le, UInt32.le_iff_toNat_le,
    UInt32.le_iff_toNat_le] at hdigit
  have hlow : '0'.val.toNat = 48 := rfl
  have hhigh : '9'.val.toNat = 57 := rfl
  unfold IsDigit
  rw [UInt16.le_iff_toNat_le, UInt16.le_iff_toNat_le, UInt32.toNat_toUInt16]
  have h48 : (48 : UInt16).toNat = 48 := rfl
  have h57 : (57 : UInt16).toNat = 57 := rfl
  omega

theorem IsIPv4Text.ne_nil {v : Utf16} (h : IsIPv4Text v) : v ≠ [] := by
  obtain ⟨a, -, b, -, c, -, d, -, rfl⟩ := h
  simp

theorem IsIPv4Text.digit_or_dot {v : Utf16} (h : IsIPv4Text v) {c : UInt16} (hc : c ∈ v) :
    IsDigit c ∨ c = 46 := by
  obtain ⟨n₁, -, n₂, -, n₃, -, n₄, -, rfl⟩ := h
  simp only [List.mem_append, List.mem_cons] at hc
  rcases hc with ((hc | rfl | hc) | rfl | hc) | rfl | hc
  · exact .inl (isDigit_decimal hc)
  · exact .inr rfl
  · exact .inl (isDigit_decimal hc)
  · exact .inr rfl
  · exact .inl (isDigit_decimal hc)
  · exact .inr rfl
  · exact .inl (isDigit_decimal hc)

theorem IsIPv4Text.colon_notMem {v : Utf16} (h : IsIPv4Text v) : (58 : UInt16) ∉ v :=
  fun hc => absurd (h.digit_or_dot hc) (by decide)

theorem IsPort.colon_notMem {p : Utf16} (h : IsPort p) : (58 : UInt16) ∉ p := by
  obtain ⟨n, -, rfl⟩ := h
  exact fun hc => absurd (isDigit_decimal hc) (by decide)

/-- What the text of an address consists of. -/
def AddressChar (c : UInt16) : Prop := IsHexDigit c ∨ c = 58 ∨ c = 46 ∨ c = 37

instance : DecidablePred AddressChar := fun _ => inferInstanceAs (Decidable (_ ∨ _))

theorem IsIPv4Text.addressChar {v : Utf16} (h : IsIPv4Text v) {c : UInt16} (hc : c ∈ v) :
    AddressChar c := by
  rcases h.digit_or_dot hc with hc | hc
  · exact .inl (.inl hc)
  · exact .inr (.inr (.inl hc))

theorem Groups.addressChar {n : ℕ} {gs : List Utf16} (h : Groups n gs) :
    ∀ g ∈ gs, ∀ c ∈ g, AddressChar c := by
  induction h with
  | nil => simp
  | group hg _ ih =>
    intro g' hg' c hc
    rcases List.mem_cons.1 hg' with rfl | hg'
    · exact .inl (hg.2.2 c hc)
    · exact ih g' hg' c hc
  | ipv4 hv =>
    intro g' hg' c hc
    rw [List.mem_singleton.1 hg'] at hc
    exact hv.addressChar hc

theorem addressChar_joined {gs : List Utf16} (h : ∀ g ∈ gs, ∀ c ∈ g, AddressChar c) :
    ∀ c ∈ joined gs, AddressChar c := by
  unfold joined
  induction gs with
  | nil => simp
  | cons g gs ih =>
    rw [List.forall_mem_cons] at h
    cases gs with
    | nil => simpa using h.1
    | cons g' gs =>
      intro c hc
      rw [List.intercalate_cons_cons, List.append_assoc, List.mem_append, List.mem_append,
        List.mem_singleton] at hc
      rcases hc with hc | rfl | hc
      · exact h.1 c hc
      · exact .inr (.inl rfl)
      · exact ih h.2 c hc

theorem IsIPv6Text.addressChar {a : Utf16} (h : IsIPv6Text a) : ∀ c ∈ a, AddressChar c := by
  induction h with
  | full hgs => exact addressChar_joined hgs.addressChar
  | compressed hfront hback _ =>
    intro c hc
    rw [List.mem_append, List.mem_cons, List.mem_cons] at hc
    rcases hc with hc | rfl | rfl | hc
    · exact addressChar_joined (fun g hg c hc => .inl ((hfront g hg).2.2 c hc)) c hc
    · exact .inr (.inl rfl)
    · exact .inr (.inl rfl)
    · exact addressChar_joined hback.addressChar c hc
  | inScope _ _ _ ih =>
    intro c hc
    rw [List.mem_append, List.mem_cons] at hc
    rcases hc with hc | rfl | hc
    · exact ih c hc
    · exact .inr (.inr (.inr rfl))
    · exact .inl (.inl (isDigit_decimal hc))

/-! ## The code -/

/-- What a mapped address begins with. -/
def marker : Utf16 := .ofString "::ffff:"

/-- The characters trimmed. -/
def brackets : Utf16 := .ofString "[\x7b()\x7d]"

/-- What `MakeWebRequest` makes of the text of the local endpoint. -/
def clientAddress (resp : NString) : Except CodecExn Utf16 :=
  match resp with
  | none => .ok []
  | some resp =>
    if marker <:+: resp then do
      let resp := replace marker [] resp
      let resp ← if 58 ∈ resp then
          let lastch := lastIndexOf resp 58
          substring resp 0 lastch
        else .ok resp
      return trimChars resp brackets
    else .ok resp

/-- What becomes of a connection: the text of its local endpoint once the request is written, and its
closing. -/
structure Connection (ε : Type) where
  localEndPoint : Except ε NString
  close : Except ε Unit

/-- An exception of the sockets or of the string functions. -/
inductive WebExn (ε : Type)
  | socket (exn : ε)
  | text (exn : CodecExn)

/-- `MakeWebRequest`, on a connection to the server. -/
def makeWebRequest {ε : Type} (tcpClient : Connection ε) : Except (WebExn ε) Utf16 := do
  let resp ← tcpClient.localEndPoint.mapError .socket
  let resp ← (clientAddress resp).mapError .text
  tcpClient.close.mapError .socket
  return resp

/-- An IPv4 address mapped to IPv6. -/
def IsMapped (address : Utf16) : Prop := ∃ v, IsIPv4Text v ∧ address = marker ++ v

/-- What is asked for of an address: the IPv4 text it is mapped from, or else a text with the whole
address in it, which the caller reads as that address. -/
structure Answers {ε IP : Type} (parse : Utf16 → Except ε IP) (address : Utf16)
    (resp : Except CodecExn Utf16) : Prop where
  mapped : ∀ v, IsIPv4Text v → address = marker ++ v → resp = .ok v
  other : ¬ IsMapped address → ∃ t, resp = .ok t ∧ address <:+: t ∧ parse t = parse address

/-! ## What it makes of the endpoint -/

variable {a p v : Utf16}

theorem marker_ne_nil : marker ≠ [] := by decide

theorem bracket_not_addressChar : ∀ c ∈ brackets, ¬ AddressChar c :=
  List.all_iff_forall_prop.1 (by decide)

theorem bracket_notMem_marker {c : UInt16} (hc : c ∈ brackets) : c ∉ marker := by
  have hmarker : ∀ d ∈ marker, AddressChar d := List.all_iff_forall_prop.1 (by decide)
  exact fun hd => bracket_not_addressChar c hc (hmarker c hd)

/-- The marker has three colons. -/
theorem not_marker_isInfix {t : Utf16} (h : t.count 58 < 3) : ¬ marker <:+: t := by
  intro hi
  have hle : marker.count 58 ≤ t.count 58 := hi.sublist.count_le 58
  have hthree : marker.count 58 = 3 := by decide
  omega

theorem not_marker_isInfix_port (hp : (58 : UInt16) ∉ p) : ¬ marker <:+: 58 :: p := by
  apply not_marker_isInfix
  rw [List.count_cons_self, List.count_eq_zero_of_not_mem hp]
  decide

/-- The marker is in the address, where it is in the endpoint. -/
theorem marker_isInfix_endPoint_iff (hp : (58 : UInt16) ∉ p) :
    marker <:+: endPoint a p ↔ marker <:+: a := by
  constructor
  · intro h
    rcases isInfix_append_cons_of_notMem (s := []) marker_ne_nil
      (bracket_notMem_marker (c := 91) (by decide)) h with h | h
    · exact absurd (List.infix_nil.1 h) marker_ne_nil
    · rcases isInfix_append_cons_of_notMem marker_ne_nil
        (bracket_notMem_marker (c := 93) (by decide)) h with h | h
      · exact h
      · exact absurd h (not_marker_isInfix_port hp)
  · intro h
    exact h.trans ⟨[91], 93 :: 58 :: p, by simp [endPoint]⟩

theorem clientAddress_of_not_marker (hp : (58 : UInt16) ∉ p) (h : ¬ marker <:+: a) :
    clientAddress (some (endPoint a p)) = .ok (endPoint a p) := by
  unfold clientAddress
  simp only
  rw [if_neg (mt (marker_isInfix_endPoint_iff hp).1 h)]

/-- The port is cut off; what is left of the address stands between the brackets. -/
theorem clientAddress_of_marker (hp : (58 : UInt16) ∉ p) (h : marker <:+: a) :
    clientAddress (some (endPoint a p)) =
      .ok (trimChars ([91] ++ replace marker [] a ++ [93]) brackets) := by
  have hopen : (91 : UInt16) ∉ marker := bracket_notMem_marker (by decide)
  have hclose : (93 : UInt16) ∉ marker := bracket_notMem_marker (by decide)
  have hreplace : replace marker [] (endPoint a p) =
      ([91] ++ replace marker [] a ++ [93]) ++ 58 :: p := by
    have hfirst := replace_append_cons_of_notMem marker_ne_nil hopen [] [] (a ++ 93 :: 58 :: p)
    rw [List.nil_append] at hfirst
    rw [endPoint, hfirst, replace_append_cons_of_notMem marker_ne_nil hclose,
      replace_eq_self (not_marker_isInfix_port hp)]
    simp
  unfold clientAddress
  simp only
  rw [if_pos ((marker_isInfix_endPoint_iff hp).2 h), hreplace, if_pos (by simp),
    lastIndexOf_append hp]
  have hcut := substring_of_le (s := ([91] ++ replace marker [] a ++ [93]) ++ 58 :: p) (i := 0)
    (n := ([91] ++ replace marker [] a ++ [93]).length) (by simp)
  rw [List.drop_zero, List.take_left] at hcut
  rw [show (0 : Int) = (0 : ℕ) from rfl, hcut]
  rfl

/-- A mapped address is unwrapped. -/
theorem clientAddress_mapped (hp : (58 : UInt16) ∉ p) (hv : IsIPv4Text v) :
    clientAddress (some (endPoint (marker ++ v) p)) = .ok v := by
  have hno : ¬ marker <:+: v :=
    not_marker_isInfix (by rw [List.count_eq_zero_of_not_mem hv.colon_notMem]; decide)
  rw [clientAddress_of_marker hp (List.prefix_append marker v).isInfix,
    replace_append marker_ne_nil, List.nil_append, replace_eq_self hno,
    trimChars_append (List.forall_mem_singleton.2 (by decide))
      (List.forall_mem_singleton.2 (by decide)) hv.ne_nil]
  exact fun c hc hb => bracket_not_addressChar c hb (hv.addressChar hc)

/-- What is answered for an address with the marker in it is too short to have the address in it. -/
theorem length_of_clientAddress {t : Utf16} (hp : (58 : UInt16) ∉ p) (h : marker <:+: a)
    (ht : clientAddress (some (endPoint a p)) = .ok t) : t.length < a.length := by
  rw [clientAddress_of_marker hp h] at ht
  obtain rfl := Except.ok.inj ht
  have hshort := (length_replace_nil_le marker_ne_nil a).2 h
  have htrim := length_trimChars_le ([91] ++ replace marker [] a ++ [93]) brackets
  have hmarker : marker.length = 7 := by decide
  rw [List.length_append, List.length_append, List.length_singleton, List.length_singleton] at htrim
  omega

/-- **When the caller gets the address**: it is mapped, or the marker is not in it. -/
theorem clientAddress_answers_iff {ε IP : Type} (parse : Utf16 → Except ε IP)
    (hparse : ∀ a p, IsIPv6Text a → IsPort p → parse (endPoint a p) = parse a)
    (ha : IsIPv6Text a) (hp : IsPort p) :
    Answers parse a (clientAddress (some (endPoint a p))) ↔ IsMapped a ∨ ¬ marker <:+: a := by
  have hcolon := hp.colon_notMem
  constructor
  · intro h
    by_cases hmapped : IsMapped a
    · exact .inl hmapped
    · right
      intro hmarker
      obtain ⟨t, ht, hwhole, -⟩ := h.other hmapped
      have hlt := length_of_clientAddress hcolon hmarker ht
      have hle := hwhole.length_le
      omega
  · rintro (⟨v, hv, rfl⟩ | hmarker)
    · refine ⟨fun w _ hw => ?_, fun hno => absurd ⟨v, hv, rfl⟩ hno⟩
      rw [clientAddress_mapped hcolon hv, List.append_cancel_left hw]
    · refine ⟨fun v _ hv => ?_, fun _ => ⟨_, clientAddress_of_not_marker hcolon hmarker, ?_, ?_⟩⟩
      · rw [hv] at hmarker
        exact absurd (List.prefix_append marker v).isInfix hmarker
      · exact ⟨[91], 93 :: 58 :: p, by simp [endPoint]⟩
      · exact hparse a p ha hp

/-- The address of an endpoint, or the text itself, which stands for the address here. -/
def host (t : Utf16) : Except CodecExn Utf16 :=
  .ok (if t.head? = some 91 then t.tail.takeWhile fun c => c ≠ 93 else t)

theorem host_endPoint (ha : ∀ c ∈ a, AddressChar c) (p : Utf16) : host (endPoint a p) = host a := by
  have hopen : a.head? ≠ some 91 := fun h =>
    absurd (ha 91 (List.mem_of_head? h)) (by decide)
  have hclose : ∀ c ∈ a, decide (c ≠ 93) = true := fun c hc =>
    decide_eq_true fun h => absurd (ha c hc) (by rw [h]; decide)
  unfold host
  rw [if_neg hopen, endPoint, List.head?_cons, if_pos rfl, List.tail_cons,
    List.takeWhile_append_of_pos hclose, List.takeWhile_cons_of_neg (by decide), List.append_nil]

/-- An address with the marker behind its first groups. -/
theorem isIPv6Text_documentation : IsIPv6Text (.ofString "2001:db8::ffff:1:2") := by
  have hgroup : ∀ g ∈ ["2001", "db8", "ffff", "1", "2"].map Utf16.ofString, IsGroup g := by decide
  have hback : Groups 3 (["ffff", "1", "2"].map Utf16.ofString) :=
    .group (hgroup _ (by decide)) (.group (hgroup _ (by decide)) (.group (hgroup _ (by decide)) .nil))
  show IsIPv6Text (joined (["2001", "db8"].map Utf16.ofString) ++
    58 :: 58 :: joined (["ffff", "1", "2"].map Utf16.ofString))
  exact .compressed (fun g hg => hgroup g (List.mem_append_left _ hg)) hback (by decide)

/-- An address with all its groups is in the answer, of a mapped one the answer is the IPv4 address. -/
theorem clientAddress_answers_full_mapped :
    Answers host (.ofString "2001:db8:0:0:0:ffff:0:1")
        (clientAddress (some (endPoint (.ofString "2001:db8:0:0:0:ffff:0:1") (decimal 443)))) ∧
      Answers host (.ofString "::ffff:192.168.1.10")
        (clientAddress (some (endPoint (.ofString "::ffff:192.168.1.10") (decimal 80)))) := by
  have hgroup : ∀ g ∈ ["2001", "db8", "0", "ffff", "1"].map Utf16.ofString, IsGroup g := by decide
  have hfull : IsIPv6Text
      (joined (["2001", "db8", "0", "0", "0", "ffff", "0", "1"].map Utf16.ofString)) :=
    .full (.group (hgroup _ (by decide)) (.group (hgroup _ (by decide)) (.group (hgroup _ (by decide))
      (.group (hgroup _ (by decide)) (.group (hgroup _ (by decide)) (.group (hgroup _ (by decide))
        (.group (hgroup _ (by decide)) (.group (hgroup _ (by decide)) .nil))))))))
  have hv : IsIPv4Text (.ofString "192.168.1.10") :=
    ⟨192, by decide, 168, by decide, 1, by decide, 10, by decide, rfl⟩
  have hmapped : IsIPv6Text
      (joined [] ++ 58 :: 58 :: joined [.ofString "ffff", .ofString "192.168.1.10"]) :=
    .compressed (fun g hg => absurd hg List.not_mem_nil) (.group (hgroup _ (by decide)) (.ipv4 hv))
      (by decide)
  constructor
  · exact (clientAddress_answers_iff host (fun _ p ha _ => host_endPoint ha.addressChar p)
      hfull ⟨443, by decide, rfl⟩).2 (.inr (by decide))
  · exact (clientAddress_answers_iff host (fun _ p ha _ => host_endPoint ha.addressChar p)
      hmapped ⟨80, by decide, rfl⟩).2 (.inl ⟨_, hv, rfl⟩)

/-- Of the address in the middle of which the marker occurs a text without it is left. -/
theorem not_answers_documentation :
    IsIPv6Text (.ofString "2001:db8::ffff:1:2") ∧ IsPort (decimal 80) ∧
      clientAddress (some (endPoint (.ofString "2001:db8::ffff:1:2") (decimal 80))) =
        .ok (.ofString "2001:db81:2") ∧
      ¬ ∃ parse : Utf16 → Except CodecExn Utf16, Answers parse (.ofString "2001:db8::ffff:1:2")
        (clientAddress (some (endPoint (.ofString "2001:db8::ffff:1:2") (decimal 80)))) := by
  have hresp : clientAddress (some (endPoint (.ofString "2001:db8::ffff:1:2") (decimal 80))) =
      .ok (.ofString "2001:db81:2") := by decide
  refine ⟨isIPv6Text_documentation, ⟨80, by decide, rfl⟩, hresp, ?_⟩
  rintro ⟨parse, h⟩
  have hunmapped : ¬ IsMapped (.ofString "2001:db8::ffff:1:2") := by
    rintro ⟨v, -, hv⟩
    have hmarker : marker <+: Utf16.ofString "2001:db8::ffff:1:2" := ⟨v, hv.symm⟩
    exact absurd hmarker (by decide)
  obtain ⟨t, ht, hwhole, -⟩ := h.other hunmapped
  rw [hresp] at ht
  obtain rfl := Except.ok.inj ht
  exact absurd hwhole (by decide)

end Net

end Server6
