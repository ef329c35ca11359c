import Mathlib.Data.Bool.AllAny
import Server6.EnDeCoding.Strings
import Server6.Foundations.Replace

/-!
# What `IsValidUue` accepts

The validator cuts a first line off that starts with `begin`, takes the line `end` off the end of the
text, and looks the rest up in the table of valid characters. It takes the line off with `Replace`,
which does not stop at the end of the text: where the text ends with the line, every line that
begins with `end` loses it (`isValidUue_iff`).

`isValidUue_language_iff` is when the validator accepts exactly the texts it is written for: unless a
second line begins with `end`.
-/

namespace Server6

namespace EnDeCoding

namespace Uu

/-! ## The code -/

/-- `ValidChars`. -/
def validChars : Utf16 :=
  .ofString "!\"#$%&'()*+,-./0123456789:;<=>?@ABCDEFGHIJKLMNOPQRSTUVWXYZ[\\]^_` \r\n"

/-- `"begin"`. -/
def beginWord : Utf16 := .ofString "begin"

/-- `"\nend"`, `"\nend\n"` and `"\nend\r\n"`. -/
def nlEnd : Utf16 := .ofString "\nend"
def nlEndNl : Utf16 := .ofString "\nend\n"
def nlEndCrNl : Utf16 := .ofString "\nend\r\n"

/-- The text without the first line, if that starts with `begin`. -/
def cutHeader (uuEncodedStr : Utf16) : Except CodecExn Utf16 :=
  if beginWord <+: uuEncodedStr then
    let firstNewLineIds := indexOf uuEncodedStr 10
    if -1 < firstNewLineIds then substringFrom uuEncodedStr firstNewLineIds
    else .ok uuEncodedStr
  else .ok uuEncodedStr

/-- The text without the lines `end`, if it ends with one. -/
def cutTrailer (uuEncodedStr : Utf16) : Utf16 :=
  if nlEnd <:+ uuEncodedStr ∨ nlEndNl <:+ uuEncodedStr ∨ nlEndCrNl <:+ uuEncodedStr then
    let uuEncodedStr := replace nlEndCrNl [10] uuEncodedStr
    let uuEncodedStr := replace nlEndNl [10] uuEncodedStr
    replace nlEnd [10] uuEncodedStr
  else uuEncodedStr

/-- `IsValidUue`. -/
def isValidUue (uuEncodedStr : NString) : Except CodecExn Bool :=
  match uuEncodedStr with
  | none => .error .nullReference
  | some uuEncodedStr => do
    let uuEncodedStr ← cutHeader uuEncodedStr
    validIn validChars (some (cutTrailer uuEncodedStr))

/-! ## Texts with lines that begin with `end` -/

/-- A text of valid characters, but for `n` lines that begin with `end`. -/
inductive Ended : Utf16 → ℕ → Prop
  | nil : Ended [] 0
  | char {c : UInt16} {t : Utf16} {n : ℕ} : c ∈ validChars → Ended t n → Ended (c :: t) n
  | line {t : Utf16} {n : ℕ} : Ended t n → Ended (nlEnd ++ t) (n + 1)

/-- A text that is valid once the lines are cut. -/
def Clean (t : Utf16) : Prop := ∃ n, Ended t n

/-- The table: ASCII up to the last capital letter and the six characters behind it, and the two
characters that end a line. -/
theorem mem_validChars_iff (c : UInt16) :
    c ∈ validChars ↔ 32 ≤ c.toNat ∧ c.toNat ≤ 96 ∨ c = 13 ∨ c = 10 := by
  have htable : validChars = (List.range' 33 64).map UInt16.ofNat ++ [32, 13, 10] := by decide
  have hrange : c ∈ (List.range' 33 64).map UInt16.ofNat ↔ 33 ≤ c.toNat ∧ c.toNat ≤ 96 := by
    rw [List.mem_map]
    constructor
    · rintro ⟨n, hn, rfl⟩
      rw [List.mem_range'_1] at hn
      rw [UInt16.toNat_ofNat_of_lt' (show n < 65536 by omega)]
      omega
    · intro hc
      exact ⟨c.toNat, List.mem_range'_1.2 (by omega), UInt16.ofNat_toNat⟩
  have hspace : c = 32 ↔ c.toNat = 32 := UInt16.toNat_inj.symm
  rw [htable, List.mem_append, hrange, List.mem_cons, List.mem_cons, List.mem_singleton, hspace,
    ← or_assoc]
  exact or_congr_left (by omega)

/-- The letters of the line are no valid characters. -/
theorem not_valid_letters : (101 : UInt16) ∉ validChars ∧ (110 : UInt16) ∉ validChars ∧
    (100 : UInt16) ∉ validChars := by
  simp only [mem_validChars_iff]
  decide

theorem newline_valid : (10 : UInt16) ∈ validChars := (mem_validChars_iff 10).2 (by decide)

theorem nlEnd_eq : nlEnd = [10, 101, 110, 100] := rfl

theorem clean_nil : Clean [] := ⟨0, .nil⟩

theorem Clean.char {c : UInt16} {t : Utf16} (hc : c ∈ validChars) (h : Clean t) : Clean (c :: t) :=
  h.imp fun _ => .char hc

/-- The letters of the line stand only in lines. -/
theorem not_clean_letter (t : Utf16) : ¬ Clean (101 :: t) := by
  rintro ⟨n, h⟩
  cases h with
  | char hc _ => exact not_valid_letters.1 hc

theorem clean_cons_iff {c : UInt16} (hc : c ≠ 10) (t : Utf16) :
    Clean (c :: t) ↔ c ∈ validChars ∧ Clean t := by
  constructor
  · rintro ⟨n, h⟩
    cases h with
    | char hvalid ht => exact ⟨hvalid, n, ht⟩
    | line _ => exact absurd rfl hc
  · rintro ⟨hvalid, ht⟩
    exact ht.char hvalid

theorem clean_nlEnd_iff (t : Utf16) : Clean (nlEnd ++ t) ↔ Clean t := by
  constructor
  · rintro ⟨n, h⟩
    cases h with
    | char _ ht => exact absurd ⟨_, ht⟩ (not_clean_letter (110 :: 100 :: t))
    | line ht => exact ⟨_, ht⟩
  · rintro ⟨n, h⟩
    exact ⟨n + 1, .line h⟩

/-- Valid characters in front change nothing. -/
theorem clean_append_iff {v : Utf16} (hv : ∀ c ∈ v, c ∈ validChars ∧ c ≠ 10) (t : Utf16) :
    Clean (v ++ t) ↔ Clean t := by
  induction v with
  | nil => exact Iff.rfl
  | cons c v ih =>
    rw [List.forall_mem_cons] at hv
    rw [List.cons_append, clean_cons_iff hv.1.2, ih hv.2]
    exact and_iff_right hv.1.1

theorem clean_newline_iff {t : Utf16} (ht : ¬ [101, 110, 100] <+: t) :
    Clean (10 :: t) ↔ Clean t := by
  constructor
  · rintro ⟨n, h⟩
    cases h with
    | char _ ht => exact ⟨n, ht⟩
    | line _ => exact absurd (List.prefix_append [101, 110, 100] _) ht
  · exact Clean.char newline_valid

/-! ## Replacing the lines -/

/-- A newline in front, where the text behind it is clean before and after replacing. -/
theorem clean_newline_replace_iff (w : Utf16) {t : Utf16}
    (ih : ∀ x : Utf16, x.length ≤ t.length →
      (Clean (replace (nlEnd ++ w) [10] x) ↔ Clean x)) :
    Clean (10 :: replace (nlEnd ++ w) [10] t) ↔ Clean (10 :: t) := by
  have hletters : (10 : UInt16) ∉ ([101, 110, 100] : Utf16) := by decide
  by_cases hend : [101, 110, 100] <+: t
  · obtain ⟨x, rfl⟩ := hend
    have hkeep := replace_append_of_notMem hletters ([101, 110, 100] ++ w) [10] x
    have hshort := ih x (List.sublist_append_right _ x).length_le
    show Clean (10 :: replace (10 :: ([101, 110, 100] ++ w)) [10] ([101, 110, 100] ++ x)) ↔
      Clean (nlEnd ++ x)
    rw [hkeep]
    exact (clean_nlEnd_iff _).trans (hshort.trans (clean_nlEnd_iff x).symm)
  · have hend' : ¬ [101, 110, 100] <+: replace (nlEnd ++ w) [10] t := fun h =>
      hend (isPrefix_of_replace hletters hletters h)
    rw [clean_newline_iff hend, clean_newline_iff hend']
    exact ih t (Nat.le_refl _)

/-- **Replacing a line with what ends it by a newline** makes no text clean that was not, and leaves
those clean that were. -/
theorem clean_replace_iff {w : Utf16} (hvalid : ∀ c ∈ w, c ∈ validChars ∧ c ≠ 10) (t : Utf16) :
    Clean (replace (nlEnd ++ (w ++ [10])) [10] t) ↔ Clean t := by
  induction hn : t.length using Nat.strongRecOn generalizing t with
  | _ n ih =>
    cases t with
    | nil => exact Iff.rfl
    | cons c t =>
      rw [List.length_cons] at hn
      by_cases hp : nlEnd ++ (w ++ [10]) <+: c :: t
      · obtain ⟨x, hx⟩ := hp
        have hlen := congrArg List.length hx
        rw [List.length_append, List.length_append, List.length_append, List.length_singleton,
          List.length_cons] at hlen
        have hsplit : nlEnd ++ (w ++ [10]) ++ x = nlEnd ++ (w ++ 10 :: x) := by simp
        rw [← hx, replace_append (by simp [nlEnd_eq]), hsplit, clean_nlEnd_iff,
          clean_append_iff hvalid]
        exact clean_newline_replace_iff _ fun y hy => ih y.length (by omega) y rfl
      · rw [replace_cons_of_not_here hp]
        by_cases hc : c = 10
        · subst hc
          exact clean_newline_replace_iff _ fun y hy => ih y.length (by omega) y rfl
        · rw [clean_cons_iff hc, clean_cons_iff hc, ih t.length (by omega) t rfl]

/-- What is left when every line has been replaced is valid exactly if the text was clean. -/
theorem forall_replace_iff (t : Utf16) :
    (∀ c ∈ replace nlEnd [10] t, c ∈ validChars) ↔ Clean t := by
  induction hn : t.length using Nat.strongRecOn generalizing t with
  | _ n ih =>
    cases t with
    | nil => exact iff_of_true (by simp) clean_nil
    | cons c t =>
      rw [List.length_cons] at hn
      by_cases hp : nlEnd <+: c :: t
      · obtain ⟨x, hx⟩ := hp
        have hlen := congrArg List.length hx
        rw [List.length_append, List.length_cons, nlEnd_eq] at hlen
        simp only [List.length_cons, List.length_nil] at hlen
        rw [← hx, replace_append (by decide), clean_nlEnd_iff, ← ih x.length (by omega) x rfl]
        simp [newline_valid]
      · rw [replace_cons_of_not_here hp, List.forall_mem_cons, ih t.length (by omega) t rfl]
        by_cases hc : c = 10
        · subst hc
          have hend : ¬ [101, 110, 100] <+: t := fun ⟨x, hx⟩ => hp ⟨x, by rw [← hx]; rfl⟩
          rw [clean_newline_iff hend]
          exact and_iff_right newline_valid
        · exact (clean_cons_iff hc t).symm

/-- The text ends with the line `end`. -/
def HasTrailer (t : Utf16) : Prop := nlEnd <:+ t ∨ nlEndNl <:+ t ∨ nlEndCrNl <:+ t

instance : DecidablePred HasTrailer := fun _ => inferInstanceAs (Decidable (_ ∨ _ ∨ _))

/-- What is valid has no line to be cut. -/
theorem ended_zero_iff (t : Utf16) : Ended t 0 ↔ ∀ c ∈ t, c ∈ validChars := by
  constructor
  · intro h
    induction t with
    | nil => simp
    | cons c t ih =>
      cases h with
      | char hc ht => exact List.forall_mem_cons.2 ⟨hc, ih ht⟩
  · intro h
    induction t with
    | nil => exact .nil
    | cons c t ih =>
      rw [List.forall_mem_cons] at h
      exact .char h.1 (ih h.2)

theorem forall_cutTrailer_iff (t : Utf16) :
    (∀ c ∈ cutTrailer t, c ∈ validChars) ↔ if HasTrailer t then Clean t else Ended t 0 := by
  have hcr : nlEndCrNl = nlEnd ++ ([13] ++ [10]) := rfl
  have hnl : nlEndNl = nlEnd ++ ([] ++ [10]) := rfl
  unfold cutTrailer
  show (∀ c ∈ (if HasTrailer t then _ else _), c ∈ validChars) ↔ _
  split_ifs
  · rw [forall_replace_iff, hnl, clean_replace_iff (by simp), hcr, clean_replace_iff]
    simp only [List.mem_singleton, forall_eq, mem_validChars_iff]
    decide
  · exact (ended_zero_iff t).symm

/-! ## The first line -/

/-- A first line that starts with `begin`, up to its newline, or none. -/
def IsHeader (header rest : Utf16) : Prop :=
  header = [] ∨ beginWord <+: header ∧ 10 ∉ header ∧ rest.head? = some 10

/-- The text from the newline of the first line on. -/
def behindHeader (s : Utf16) : Utf16 :=
  if beginWord <+: s ∧ 10 ∈ s then s.drop (s.idxOf 10) else s

theorem cutHeader_eq (s : Utf16) : cutHeader s = .ok (behindHeader s) := by
  unfold cutHeader behindHeader indexOf
  by_cases hbegin : beginWord <+: s
  · by_cases hnl : (10 : UInt16) ∈ s
    · simp only [if_pos hbegin, if_pos hnl]
      rw [if_pos (by omega), if_pos ⟨hbegin, hnl⟩]
      exact substringFrom_of_le (List.idxOf_lt_length_of_mem hnl).le
    · simp only [if_pos hbegin, if_neg hnl]
      rw [if_neg (by omega), if_neg fun h => hnl h.2]
  · rw [if_neg hbegin, if_neg fun h => hbegin h.1]

/-- The first newline, and the word in front of it. -/
theorem exists_firstLine {s : Utf16} (hbegin : beginWord <+: s) (hnl : 10 ∈ s) :
    ∃ header rest, s = header ++ 10 :: rest ∧ beginWord <+: header ∧ 10 ∉ header := by
  obtain ⟨header, rest, rfl, hno⟩ := List.eq_append_cons_of_mem hnl
  exact ⟨header, rest, rfl, isPrefix_of_isPrefix_append_cons (by decide) hbegin, hno⟩

theorem drop_idxOf {header : Utf16} (hno : 10 ∉ header) (rest : Utf16) :
    (header ++ 10 :: rest).drop ((header ++ 10 :: rest).idxOf 10) = 10 :: rest := by
  rw [List.idxOf_append_of_notMem hno, List.idxOf_cons_self, Nat.add_zero, List.drop_left]

/-- A header is cut where the code cuts it, in front of what does not start with `begin`. -/
theorem exists_header_iff {Q : Utf16 → Prop} (hQ : ∀ t, Q t → ¬ beginWord <+: t) (s : Utf16) :
    (∃ header rest, s = header ++ rest ∧ IsHeader header rest ∧ Q rest) ↔ Q (behindHeader s) := by
  unfold behindHeader
  constructor
  · rintro ⟨header, rest, rfl, rfl | ⟨hbegin, hno, hhead⟩, hrest⟩
    · rw [List.nil_append, if_neg fun h => hQ rest hrest h.1]
      exact hrest
    · obtain ⟨rest, rfl⟩ := List.head?_eq_some_iff.1 hhead
      rw [if_pos ⟨hbegin.trans (List.prefix_append _ _), by simp⟩, drop_idxOf hno]
      exact hrest
  · intro h
    split_ifs at h with hcut
    · obtain ⟨header, rest, rfl, hbegin, hno⟩ := exists_firstLine hcut.1 hcut.2
      rw [drop_idxOf hno] at h
      exact ⟨header, 10 :: rest, rfl, .inr ⟨hbegin, hno, rfl⟩, h⟩
    · exact ⟨[], s, rfl, .inl rfl, h⟩

/-! ## The language -/

/-- The letters of a line are counted by its number. -/
theorem Ended.count {t : Utf16} {n : ℕ} (h : Ended t n) :
    ∀ c ∈ [101, 110, 100], t.count c = n := by
  intro c hc
  have hletter : c ∉ validChars ∧ nlEnd.count c = 1 := by
    simp only [List.mem_cons, List.not_mem_nil, or_false] at hc
    rcases hc with rfl | rfl | rfl
    · exact ⟨not_valid_letters.1, by decide⟩
    · exact ⟨not_valid_letters.2.1, by decide⟩
    · exact ⟨not_valid_letters.2.2, by decide⟩
  induction h with
  | nil => rfl
  | @char d t n hd _ ih =>
    rw [List.count_cons_of_ne, ih]
    rintro rfl
    exact hletter.1 hd
  | line _ ih =>
    rw [List.count_append, ih, hletter.2, Nat.add_comm]

theorem Ended.eq {t : Utf16} {m n : ℕ} (hm : Ended t m) (hn : Ended t n) : m = n :=
  (hm.count 101 (by simp)).symm.trans (hn.count 101 (by simp))

theorem Ended.mem {t : Utf16} {n : ℕ} (h : Ended t n) :
    ∀ c ∈ t, c ∈ validChars ∨ c ∈ [101, 110, 100] := by
  induction h with
  | nil => simp
  | char hd _ ih => exact List.forall_mem_cons.2 ⟨.inl hd, ih⟩
  | line _ ih =>
    intro c hc
    rcases List.mem_append.1 hc with hc | hc
    · have hall : ∀ c ∈ nlEnd, c ∈ validChars ∨ c ∈ [101, 110, 100] :=
        List.all_iff_forall_prop.1 (by decide)
      exact hall c hc
    · exact ih c hc

theorem Ended.append {body t : Utf16} {n : ℕ} (hbody : ∀ c ∈ body, c ∈ validChars)
    (h : Ended t n) : Ended (body ++ t) n := by
  induction body with
  | nil => exact h
  | cons c body ih =>
    rw [List.forall_mem_cons] at hbody
    exact .char hbody.1 (ih hbody.2)

/-- The three forms of the line at the end. -/
def trailers : List Utf16 := [nlEnd, nlEndNl, nlEndCrNl]

/-- A body of valid characters and an optional line `end` behind it. -/
def IsBody (t : Utf16) : Prop :=
  ∃ body trailer, t = body ++ trailer ∧ (∀ c ∈ body, c ∈ validChars) ∧ trailer ∈ [] :: trailers

theorem hasTrailer_iff (t : Utf16) :
    HasTrailer t ↔ ∃ body, ∃ trailer ∈ trailers, t = body ++ trailer := by
  constructor
  · rintro (⟨body, rfl⟩ | ⟨body, rfl⟩ | ⟨body, rfl⟩)
    · exact ⟨body, nlEnd, by simp [trailers], rfl⟩
    · exact ⟨body, nlEndNl, by simp [trailers], rfl⟩
    · exact ⟨body, nlEndCrNl, by simp [trailers], rfl⟩
  · rintro ⟨body, trailer, htrailer, rfl⟩
    simp only [trailers, List.mem_cons, List.not_mem_nil, or_false] at htrailer
    rcases htrailer with rfl | rfl | rfl
    · exact .inl ⟨body, rfl⟩
    · exact .inr (.inl ⟨body, rfl⟩)
    · exact .inr (.inr ⟨body, rfl⟩)

theorem ended_trailer {trailer : Utf16} (h : trailer ∈ trailers) : Ended trailer 1 := by
  simp only [trailers, List.mem_cons, List.not_mem_nil, or_false] at h
  rcases h with rfl | rfl | rfl
  · exact .line .nil
  · exact .line (.char newline_valid .nil)
  · exact .line (.char ((mem_validChars_iff 13).2 (by decide)) (.char newline_valid .nil))

/-- **The bodies**: texts without a line `end`, or with one that is at the end. -/
theorem isBody_iff (t : Utf16) : IsBody t ↔ Ended t 0 ∨ HasTrailer t ∧ Ended t 1 := by
  constructor
  · rintro ⟨body, trailer, rfl, hbody, htrailer⟩
    rcases List.mem_cons.1 htrailer with rfl | htrailer
    · exact .inl (.append hbody .nil)
    · exact .inr ⟨(hasTrailer_iff _).2 ⟨body, trailer, htrailer, rfl⟩,
        .append hbody (ended_trailer htrailer)⟩
  · rintro (h | ⟨htrailer, h⟩)
    · exact ⟨t, [], (List.append_nil t).symm, (ended_zero_iff t).1 h, by simp⟩
    · obtain ⟨body, trailer, hmem, rfl⟩ := (hasTrailer_iff t).1 htrailer
      refine ⟨body, trailer, rfl, fun c hc => ?_, List.mem_cons_of_mem _ hmem⟩
      refine (h.mem c (List.mem_append_left _ hc)).resolve_right fun hletter => ?_
      -- the one line there is is the trailer
      have hall := h.count c hletter
      have hone := (ended_trailer hmem).count c hletter
      have hpos := List.count_pos_iff.2 hc
      rw [List.count_append] at hall
      omega

/-- What the validator is written to accept: an optional first line that starts with `begin`, a body,
and an optional line `end` at the very end. -/
def InLanguage (s : Utf16) : Prop :=
  ∃ header rest, s = header ++ rest ∧ IsHeader header rest ∧ IsBody rest

/-- Behind the header and in front of the line `end` more lines begin with `end`. -/
def Corrupted (s : Utf16) : Prop :=
  ∃ header rest, s = header ++ rest ∧ IsHeader header rest ∧ HasTrailer rest ∧
    ∃ n, 2 ≤ n ∧ Ended rest n

theorem not_begin_of_clean {t : Utf16} (h : Clean t) : ¬ beginWord <+: t := by
  rintro ⟨x, rfl⟩
  have hb := (clean_cons_iff (show (98 : UInt16) ≠ 10 by decide) _).1 h
  exact absurd ((mem_validChars_iff 98).1 hb.1) (by decide)

theorem inLanguage_iff (s : Utf16) : InLanguage s ↔ IsBody (behindHeader s) := by
  apply exists_header_iff
  intro t h
  apply not_begin_of_clean
  rcases (isBody_iff t).1 h with h | h
  · exact ⟨0, h⟩
  · exact ⟨1, h.2⟩

theorem corrupted_iff (s : Utf16) : Corrupted s ↔
    HasTrailer (behindHeader s) ∧ ∃ n, 2 ≤ n ∧ Ended (behindHeader s) n := by
  apply exists_header_iff
  rintro t ⟨-, n, -, h⟩
  exact not_begin_of_clean ⟨n, h⟩

/-- **What the validator accepts.** -/
theorem isValidUue_iff (s : Utf16) : isValidUue (some s) = .ok true ↔
    if HasTrailer (behindHeader s) then Clean (behindHeader s) else Ended (behindHeader s) 0 := by
  rw [← forall_cutTrailer_iff, ← validIn_eq_true_iff]
  unfold isValidUue
  simp only
  rw [cutHeader_eq, ok_bind]

/-- A corrupted text is accepted, and no text of the language. -/
theorem accepts_of_corrupted {s : Utf16} (h : Corrupted s) :
    isValidUue (some s) = .ok true ∧ ¬ InLanguage s := by
  obtain ⟨htrailer, n, hn, hended⟩ := (corrupted_iff s).1 h
  rw [isValidUue_iff, if_pos htrailer, inLanguage_iff, isBody_iff]
  refine ⟨⟨n, hended⟩, ?_⟩
  rintro (h | ⟨-, h⟩)
  · have heq := h.eq hended
    omega
  · have heq := h.eq hended
    omega

/-- **When the validator decides the language**: on every text but the corrupted ones. -/
theorem isValidUue_language_iff (s : Utf16) :
    (isValidUue (some s) = .ok true ↔ InLanguage s) ↔ ¬ Corrupted s := by
  constructor
  · intro h hcorrupted
    obtain ⟨haccepts, hout⟩ := accepts_of_corrupted hcorrupted
    exact hout (h.1 haccepts)
  · intro h
    rw [corrupted_iff] at h
    rw [isValidUue_iff, inLanguage_iff, isBody_iff]
    split_ifs with htrailer
    · constructor
      · rintro ⟨n, hended⟩
        have hn : n < 2 := Nat.lt_of_not_le fun hn => h ⟨htrailer, n, hn, hended⟩
        rcases Nat.le_one_iff_eq_zero_or_eq_one.1 (Nat.le_of_lt_succ hn) with rfl | rfl
        · exact .inl hended
        · exact .inr ⟨htrailer, hended⟩
      · rintro (hended | ⟨-, hended⟩)
        · exact ⟨0, hended⟩
        · exact ⟨1, hended⟩
    · exact ⟨.inl, fun h => h.resolve_right fun h => htrailer h.1⟩

/-- A second line `end` in the body. -/
theorem not_isValidUue_language : ¬ (isValidUue (some (.ofString "begin 644 f\n!A\nendB\nend")) =
    .ok true ↔ InLanguage (.ofString "begin 644 f\n!A\nendB\nend")) := by
  have hbody : Ended (.ofString "\n!A\nendB\nend") 2 :=
    .char newline_valid (.char ((mem_validChars_iff 33).2 (by decide))
      (.char ((mem_validChars_iff 65).2 (by decide))
        (.line (.char ((mem_validChars_iff 66).2 (by decide)) (.line .nil)))))
  obtain ⟨haccepts, hout⟩ := accepts_of_corrupted
    (s := .ofString "begin 644 f\n!A\nendB\nend")
    ⟨.ofString "begin 644 f", .ofString "\n!A\nendB\nend", by decide,
      .inr ⟨by decide, by decide, by decide⟩, by decide, 2, Nat.le_refl 2, hbody⟩
  exact fun h => hout (h.1 haccepts)

end Uu

end EnDeCoding

end Server6
