import Mathlib.Data.Bool.AllAny
import Server6.EnDeCoding.Strings
import Server6.Foundations.Replace
import Server6.Foundations.While

/-!
# Removing control characters

`Trim_Decrypted_Text` trims the control characters off both ends, deletes every NUL and then cuts the
control characters out of what is left, one after the other. The loop that cuts a character goes on
while its index is positive (`cutAll_spec`): a character in front stays, and with it every further
occurrence of it.

Trimming does not know NUL, so a control character behind leading NULs comes to the front
(`Uncovered`). `trimDecryptedText_eq_iff`: that is the only way to go wrong.
-/

namespace Server6

namespace DeEnCoder

open EnDeCoding

/-! ## The code -/

/-- The characters of `charList`. -/
def controlChars : Utf16 :=
  ((List.range' 1 31).map UInt16.ofNat).filter fun ch =>
    ch ≠ 11 ∧ ch ≠ 12 ∧ ch ≠ 9 ∧ ch ≠ 13 ∧ ch ≠ 10

/-- Cut the first occurrence of a character out. -/
def cut (ch : UInt16) (decryptedText : Utf16) : Except CodecExn Utf16 := do
  let ig := indexOf decryptedText ch
  let front ← substring decryptedText 0 ig
  let back ← substringFrom decryptedText (ig + 1)
  return front ++ back

theorem cut_eq {ch : UInt16} {decryptedText : Utf16} (h : ch ∈ decryptedText) :
    cut ch decryptedText = .ok (decryptedText.erase ch) := by
  have hlt := List.idxOf_lt_length_of_mem h
  have hfront := substring_of_le (s := decryptedText) (i := 0) (n := decryptedText.idxOf ch)
    (by omega)
  have hback := substringFrom_of_le (s := decryptedText) (i := decryptedText.idxOf ch + 1) hlt
  unfold cut indexOf
  rw [if_pos h]
  simp only
  rw [show ((0 : ℕ) : Int) = 0 from rfl] at hfront
  rw [hfront, ok_bind, show ((decryptedText.idxOf ch : ℕ) : Int) + 1 =
    ((decryptedText.idxOf ch + 1 : ℕ) : Int) from rfl, hback, ok_bind, List.drop_zero,
    List.erase_eq_eraseIdx_of_idxOf rfl, List.eraseIdx_eq_take_drop_succ]
  rfl

theorem length_cut (ch : UInt16) (s t : Utf16) (hmore : 0 < indexOf s ch) (h : cut ch s = .ok t) :
    t.length < s.length := by
  have hmem := (indexOf_pos_iff.1 hmore).1
  have hpos := List.length_pos_of_mem hmem
  rw [cut_eq hmem] at h
  rw [← Except.ok.inj h, List.length_erase_of_mem hmem]
  omega

/-- The loop over the occurrences of a character. -/
def cutAll (ch : UInt16) (decryptedText : Utf16) : Except CodecExn Utf16 :=
  whileLoop (fun s => 0 < indexOf s ch) (cut ch) List.length (length_cut ch) decryptedText

/-- `Trim_Decrypted_Text`. -/
def trimDecryptedText (decryptedText : NString) : Except CodecExn Utf16 :=
  match decryptedText with
  | none => .error .nullReference
  | some decryptedText =>
    let decryptedText := trimEndChars decryptedText controlChars
    let decryptedText := trimStartChars decryptedText controlChars
    let decryptedText := replace [0] [] decryptedText
    controlChars.foldlM (fun decryptedText ch => cutAll ch decryptedText) decryptedText

/-! ## The loops -/

/-- A character in front stops the loop at once. -/
theorem cutAll_front {ch : UInt16} {s : Utf16} (h : s.head? = some ch) : cutAll ch s = .ok s :=
  whileLoop_done fun hmore => (indexOf_pos_iff.1 hmore).2 h

/-- **The loop ends, and cuts every occurrence** of a character that is not in front. -/
theorem cutAll_spec {ch : UInt16} {s : Utf16} (h : s.head? ≠ some ch) :
    cutAll ch s = .ok (s.filter fun c => c ≠ ch) := by
  have herase : ∀ t : Utf16, ch ∈ t →
      (t.erase ch).filter (fun c => c ≠ ch) = t.filter fun c => c ≠ ch := by
    intro t ht
    obtain ⟨as, bs, -, heq, hcut⟩ := List.exists_erase_eq ht
    rw [hcut, heq, List.filter_append, List.filter_append, List.filter_cons_of_neg]
    simp
  -- cutting keeps the front, and everything but the character
  obtain ⟨t, ht, ⟨hhead, hfilter⟩, hdone⟩ : ∃ t, cutAll ch s = .ok t ∧
      (t.head? = s.head? ∧ (t.filter fun c => c ≠ ch) = s.filter fun c => c ≠ ch) ∧
      ¬ 0 < indexOf t ch := by
    refine whileLoop_spec ⟨rfl, rfl⟩ fun t ⟨hhead, hfilter⟩ hmore => ?_
    obtain ⟨hmem, hfront⟩ := indexOf_pos_iff.1 hmore
    refine ⟨_, cut_eq hmem, ?_, (herase t hmem).trans hfilter⟩
    rw [← hhead]
    cases t with
    | nil => rfl
    | cons c t =>
      have hc : c ≠ ch := fun hc => hfront (congrArg some hc)
      rw [List.erase_cons_tail (by simpa using hc)]
      rfl
  have hgone : ch ∉ t := by
    intro hmem
    exact hdone (indexOf_pos_iff.2 ⟨hmem, hhead ▸ h⟩)
  rw [ht, ← hfilter, List.filter_eq_self.2]
  intro c hc
  simpa using fun heq : c = ch => hgone (heq ▸ hc)

theorem head?_filter_of_head? {s : Utf16} {p : UInt16 → Bool} (h : ∀ c ∈ s.head?, p c = true) :
    (s.filter p).head? = s.head? := by
  cases s with
  | nil => rfl
  | cons c s => rw [List.filter_cons_of_pos (h c rfl)]; rfl

/-- **The loop over the characters** takes all of them out of a text that begins with none. -/
theorem foldlM_cutAll {chars s : Utf16} (h : ∀ c ∈ s.head?, c ∉ chars) :
    chars.foldlM (fun s ch => cutAll ch s) s = .ok (s.filter fun c => c ∉ chars) := by
  induction chars generalizing s with
  | nil => simp [Pure.pure, Except.pure]
  | cons ch chars ih =>
    have hfront : s.head? ≠ some ch := fun hs => h ch hs List.mem_cons_self
    have hhead : (s.filter fun c => c ≠ ch).head? = s.head? := by
      apply head?_filter_of_head?
      intro c hc
      simpa using fun heq : c = ch => hfront (heq ▸ hc)
    rw [List.foldlM_cons, cutAll_spec hfront, ok_bind, ih, List.filter_filter]
    · congr 1
      apply List.filter_congr
      intro c _
      simp [not_or, Bool.and_comm]
    · rw [hhead]
      exact fun c hc hmem => h c hc (List.mem_cons_of_mem _ hmem)

/-- What is in front stays there. -/
theorem foldlM_cutAll_front (chars : Utf16) {s : Utf16} {c : UInt16} (h : s.head? = some c) :
    ∃ t, chars.foldlM (fun s ch => cutAll ch s) s = .ok t ∧ t.head? = some c := by
  induction chars generalizing s with
  | nil => exact ⟨s, rfl, h⟩
  | cons ch chars ih =>
    rw [List.foldlM_cons]
    by_cases hc : c = ch
    · rw [cutAll_front (hc ▸ h), ok_bind]
      exact ih h
    · have hfront : s.head? ≠ some ch := by
        rw [h]
        simpa using hc
      rw [cutAll_spec hfront, ok_bind]
      apply ih
      rw [head?_filter_of_head?, h]
      intro d hd
      obtain rfl : c = d := Option.some.inj (h.symm.trans hd)
      simpa using hc

/-! ## The filter -/

/-- The characters the text is to keep: none below 32 but TAB, LF, VT, FF and CR. -/
def Kept (c : UInt16) : Prop := 32 ≤ c ∨ 9 ≤ c ∧ c ≤ 13

instance : DecidablePred Kept := fun _ => inferInstanceAs (Decidable (_ ∨ _))

theorem mem_controlChars_iff {c : UInt16} : c ∈ controlChars ↔ ¬ Kept c ∧ c ≠ 0 := by
  unfold Kept
  constructor
  · have hall : ∀ c ∈ controlChars, ¬ (32 ≤ c ∨ 9 ≤ c ∧ c ≤ 13) ∧ c ≠ 0 :=
      List.all_iff_forall_prop.1 (by decide)
    exact hall c
  · rintro ⟨hkept, hzero⟩
    rw [not_or, UInt16.not_le] at hkept
    have hlt : c.toNat < 32 := UInt16.lt_iff_toNat_lt.1 hkept.1
    rw [← UInt16.ofNat_toNat (x := c)] at hkept hzero ⊢
    generalize c.toNat = n at hlt hkept hzero ⊢
    revert hkept hzero
    decide +revert

/-- Behind control characters, and NULs behind them, comes a control character again; it is not one
that `TrimEnd` takes. -/
def Uncovered (s : Utf16) : Prop :=
  ∃ front nuls ch rest, s = front ++ nuls ++ ch :: rest ∧ (∀ c ∈ front, c ∈ controlChars) ∧
    nuls ≠ [] ∧ (∀ c ∈ nuls, c = 0) ∧ ch ∈ controlChars ∧ ∃ c ∈ rest, c ∉ controlChars

/-- The text when the loop over the characters begins. -/
def exposed (s : Utf16) : Utf16 :=
  replace [0] [] (trimStartChars (trimEndChars s controlChars) controlChars)

theorem trimDecryptedText_some (s : Utf16) :
    trimDecryptedText (some s) =
      controlChars.foldlM (fun s ch => cutAll ch s) (exposed s) := rfl

theorem exposed_eq (s : Utf16) : exposed s =
    (trimStartChars (trimEndChars s controlChars) controlChars).filter fun c => c ≠ 0 :=
  replace_singleton_nil 0 _

/-- What trimming takes off both ends. -/
theorem exists_trimmed (s : Utf16) : ∃ front back, s = front ++
    trimStartChars (trimEndChars s controlChars) controlChars ++ back ∧
    (∀ c ∈ front, c ∈ controlChars) ∧ ∀ c ∈ back, c ∈ controlChars := by
  refine ⟨(trimEndChars s controlChars).takeWhile fun c => controlChars.contains c,
    s.rtakeWhile fun c => controlChars.contains c, ?_, fun c hc => ?_, fun c hc => ?_⟩
  · rw [trimStartChars, List.takeWhile_append_dropWhile, trimEndChars,
      List.rdropWhile_append_rtakeWhile]
  · simpa using List.mem_takeWhile_imp hc
  · simpa using List.mem_rtakeWhile_imp hc

/-- A control character that has come to the front was behind NULs. -/
theorem uncovered_of_head? {s : Utf16} {ch : UInt16} (hhead : (exposed s).head? = some ch)
    (hch : ch ∈ controlChars) : Uncovered s := by
  obtain ⟨ts, hts⟩ := List.head?_eq_some_iff.1 hhead
  rw [exposed_eq] at hts
  obtain ⟨nuls, rest, hmid, hnuls, -, -⟩ := List.filter_eq_cons_iff.1 hts
  have hne : nuls ≠ [] := by
    rintro rfl
    rw [List.nil_append] at hmid
    exact notMem_of_head?_trimStartChars (congrArg List.head? hmid) hch
  obtain ⟨front, back, hs, hfront, -⟩ := exists_trimmed s
  -- the last character that trimming leaves is no control character
  have hend : trimEndChars s controlChars = (trimEndChars s controlChars).takeWhile
      (fun c => controlChars.contains c) ++ nuls ++ ch :: rest := by
    rw [List.append_assoc, ← hmid, trimStartChars, List.takeWhile_append_dropWhile]
  have hlast : ∀ c ∈ (trimEndChars s controlChars).getLast?, c ∉ controlChars := fun c =>
    notMem_of_getLast?_trimEndChars
  refine ⟨front, nuls, ch, rest ++ back, ?_, hfront, hne, ?_, hch, ?_⟩
  · rw [hmid] at hs
    rw [hs]
    simp
  · intro c hc
    simpa using hnuls c hc
  · rw [hend, List.getLast?_append_cons] at hlast
    cases rest with
    | nil => exact absurd hch (hlast ch rfl)
    | cons d rest =>
      have hmem : (d :: rest).getLast (List.cons_ne_nil d rest) ∈ d :: rest := List.getLast_mem _
      refine ⟨_, List.mem_append_left back hmem, hlast _ ?_⟩
      rw [List.getLast?_cons_cons, List.getLast?_eq_some_getLast (List.cons_ne_nil d rest)]
      rfl

theorem rdropWhile_append {p : UInt16 → Bool} (l : Utf16) {r : Utf16} (h : ∃ c ∈ r, p c = false) :
    (l ++ r).rdropWhile p = l ++ r.rdropWhile p := by
  have hne : ¬ (r.reverse.dropWhile p).isEmpty = true := by
    rw [List.isEmpty_iff, List.dropWhile_eq_nil_iff]
    obtain ⟨c, hc, hp⟩ := h
    intro hall
    rw [hall c (List.mem_reverse.2 hc)] at hp
    cases hp
  unfold List.rdropWhile
  rw [List.reverse_append, List.dropWhile_append, if_neg hne, List.reverse_append,
    List.reverse_reverse]

/-- A control character behind NULs comes to the front. -/
theorem head?_of_uncovered {s : Utf16} (h : Uncovered s) :
    ∃ ch ∈ controlChars, (exposed s).head? = some ch := by
  obtain ⟨front, nuls, ch, rest, rfl, hfront, hne, hnuls, hch, hrest⟩ := h
  have hend : trimEndChars (front ++ nuls ++ ch :: rest) controlChars =
      front ++ (nuls ++ ch :: trimEndChars rest controlChars) := by
    have hsplit : front ++ nuls ++ ch :: rest = (front ++ (nuls ++ [ch])) ++ rest := by simp
    rw [hsplit, trimEndChars, rdropWhile_append _ (by simpa using hrest)]
    simp [trimEndChars]
  have hstart : trimStartChars (front ++ (nuls ++ ch :: trimEndChars rest controlChars))
      controlChars = nuls ++ ch :: trimEndChars rest controlChars := by
    rw [trimStartChars, List.dropWhile_append_of_pos (by simpa using hfront)]
    obtain ⟨n, nuls, rfl⟩ := List.exists_cons_of_ne_nil hne
    rw [hnuls n List.mem_cons_self]
    rfl
  have hzero : ch ≠ 0 := (mem_controlChars_iff.1 hch).2
  refine ⟨ch, hch, ?_⟩
  rw [exposed_eq, hend, hstart, List.filter_append, List.filter_eq_nil_iff.2, List.nil_append,
    List.filter_cons_of_pos (by simpa using hzero)]
  · rfl
  · intro c hc
    simp [hnuls c hc]

/-- An uncovered control character stays. -/
theorem ne_filter_of_uncovered {s : Utf16} (h : Uncovered s) :
    trimDecryptedText (some s) ≠ .ok (s.filter fun c => Kept c) := by
  intro heq
  obtain ⟨ch, hch, hhead⟩ := head?_of_uncovered h
  obtain ⟨t, ht, hfront⟩ := foldlM_cutAll_front controlChars hhead
  rw [trimDecryptedText_some, ht, Except.ok.injEq] at heq
  rw [heq] at hfront
  have hmem := (List.mem_filter.1 (List.mem_of_head? hfront)).2
  exact (mem_controlChars_iff.1 hch).1 (by simpa using hmem)

/-- **When `Trim_Decrypted_Text` is the filter**: when it uncovers no control character. -/
theorem trimDecryptedText_eq_iff (s : Utf16) :
    trimDecryptedText (some s) = .ok (s.filter fun c => Kept c) ↔ ¬ Uncovered s := by
  constructor
  · exact fun heq huncovered => ne_filter_of_uncovered huncovered heq
  · intro hnot
    have hhead : ∀ c ∈ (exposed s).head?, c ∉ controlChars := fun c hc hmem =>
      hnot (uncovered_of_head? hc hmem)
    rw [trimDecryptedText_some, foldlM_cutAll hhead, exposed_eq, List.filter_filter]
    obtain ⟨front, back, hs, hfront, hback⟩ := exists_trimmed s
    have hdropped : ∀ t : Utf16, (∀ c ∈ t, c ∈ controlChars) → (t.filter fun c => Kept c) = [] := by
      intro t ht
      rw [List.filter_eq_nil_iff]
      intro c hc
      simpa using (mem_controlChars_iff.1 (ht c hc)).1
    conv_rhs => rw [hs]
    rw [List.filter_append, List.filter_append, hdropped front hfront, hdropped back hback,
      List.nil_append, List.append_nil]
    congr 1
    apply List.filter_congr
    intro c _
    have hzero : Kept c → c ≠ 0 := by
      rintro hkept rfl
      exact absurd hkept (by decide)
    have hiff : (c ∉ controlChars ∧ c ≠ 0) ↔ Kept c := by
      rw [mem_controlChars_iff, not_and_not_right]
      refine ⟨fun h => by_contra fun hkept => h.2 (h.1 hkept), fun hkept => ⟨?_, hzero hkept⟩⟩
      exact fun hno => absurd hkept hno
    rw [Bool.eq_iff_iff, Bool.and_eq_true, decide_eq_true_eq, decide_eq_true_eq,
      decide_eq_true_eq]
    exact hiff

/-- A NUL, a control character and a letter. -/
theorem not_trimDecryptedText :
    trimDecryptedText (some [0, 1, 65]) ≠ .ok ([0, 1, 65].filter fun c => Kept c) := by
  refine ne_filter_of_uncovered ⟨[], [0], 1, [65], rfl, ?_, ?_, ?_, ?_, ?_⟩
  · simp
  · simp
  · simp
  · decide
  · exact ⟨65, by simp, by decide⟩

end DeEnCoder

end Server6
