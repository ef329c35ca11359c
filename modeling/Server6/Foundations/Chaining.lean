import Mathlib.Logic.Function.Iterate
import Server6.Foundations.Memory

/-!
# Chained words

A chaining mode turns words into words one after the other and keeps a value between them (`chain`).
`chain_chain` is the rule by which one mode undoes another one: step by step, under a condition on the
kept value. `chainBack_chain` and `chain_chainBack` are the rules where one of them runs from behind.

`Chained` is what a program does that reads words at one address and writes at another one, or the
same, what the mode makes of them, with the kept value in a third place. `Chained.trans` composes two
such runs on consecutive words.
-/

namespace Server6

/-! ## Modes -/

section

variable {σ α β : Type} {f : σ → α → β × σ} {g : σ → β → α × σ} {s : σ}

/-- The words, each made from the one in its place and the value kept from those before. -/
def chain (f : σ → α → β × σ) : σ → List α → List β × σ
  | s, [] => ([], s)
  | s, x :: xs => ((f s x).1 :: (chain f (f s x).2 xs).1, (chain f (f s x).2 xs).2)

theorem chain_append (xs ys : List α) :
    chain f s (xs ++ ys) = ((chain f s xs).1 ++ (chain f (chain f s xs).2 ys).1,
      (chain f (chain f s xs).2 ys).2) := by
  induction xs generalizing s with
  | nil => rfl
  | cons x xs ih => rw [List.cons_append, chain, ih, chain, List.cons_append]

theorem length_chain (xs : List α) : (chain f s xs).1.length = xs.length := by
  induction xs generalizing s with
  | nil => rfl
  | cons x xs ih => rw [chain, List.length_cons, ih, List.length_cons]

/-- **One mode undoes another** if its step does, and both keep the same value. -/
theorem chain_chain {I : σ → Prop} {P : α → Prop}
    (h : ∀ s x, I s → P x → g s (f s x).1 = (x, (f s x).2) ∧ I (f s x).2) {xs : List α} (hs : I s)
    (hxs : ∀ x ∈ xs, P x) : chain g s (chain f s xs).1 = (xs, (chain f s xs).2) := by
  induction xs generalizing s with
  | nil => rfl
  | cons x xs ih =>
    obtain ⟨hstep, hkeep⟩ := h s x hs (hxs x List.mem_cons_self)
    rw [chain, chain, hstep, ih hkeep fun y hy => hxs y (List.mem_cons_of_mem _ hy)]

/-- What a mode makes of words, and what it keeps, is as each of its steps leaves it. -/
theorem forall_chain {I : σ → Prop} {P : α → Prop} {Q : β → Prop}
    (h : ∀ s x, I s → P x → Q (f s x).1 ∧ I (f s x).2) {xs : List α} (hs : I s)
    (hxs : ∀ x ∈ xs, P x) : (∀ y ∈ (chain f s xs).1, Q y) ∧ I (chain f s xs).2 := by
  induction xs generalizing s with
  | nil => exact ⟨fun y hy => absurd hy List.not_mem_nil, hs⟩
  | cons x xs ih =>
    obtain ⟨hword, hkeep⟩ := h s x hs (hxs x List.mem_cons_self)
    obtain ⟨hwords, hend⟩ := ih hkeep fun y hy => hxs y (List.mem_cons_of_mem _ hy)
    exact ⟨List.forall_mem_cons.2 ⟨hword, hwords⟩, hend⟩

end

/-! ## From behind -/

section

variable {σ τ α β : Type} {f : σ → α → β × σ} {g : τ → β → α × τ} {k : σ → τ} {s : σ}

/-- The words from the last one to the first one. -/
def chainBack (g : τ → β → α × τ) (t : τ) (ys : List β) : List α × τ :=
  ((chain g t ys.reverse).1.reverse, (chain g t ys.reverse).2)

theorem chainBack_append (t : τ) (ys : List β) (y : β) :
    chainBack g t (ys ++ [y]) =
      ((chainBack g (g t y).2 ys).1 ++ [(g t y).1], (chainBack g (g t y).2 ys).2) := by
  simp [chainBack, chain]

theorem chainBack_cons (t : τ) (y : β) (ys : List β) :
    chainBack g t (y :: ys) = ((g (chainBack g t ys).2 y).1 :: (chainBack g t ys).1,
      (g (chainBack g t ys).2 y).2) := by
  simp [chainBack, chain_append, chain]

theorem forall_chainBack {I : τ → Prop} {P : β → Prop} {Q : α → Prop}
    (h : ∀ t y, I t → P y → Q (g t y).1 ∧ I (g t y).2) {t : τ} {ys : List β} (ht : I t)
    (hys : ∀ y ∈ ys, P y) : (∀ x ∈ (chainBack g t ys).1, Q x) ∧ I (chainBack g t ys).2 := by
  obtain ⟨hwords, hend⟩ := forall_chain h ht fun y hy => hys y (List.mem_reverse.1 hy)
  exact ⟨fun x hx => hwords x (List.mem_reverse.1 hx), hend⟩

/-- **A mode from behind undoes a mode** if its step does, and gives back the value kept before; `k`
turns what one keeps into what the other one keeps. -/
theorem chainBack_chain {I : σ → Prop} {P : α → Prop}
    (h : ∀ s x, I s → P x → g (k (f s x).2) (f s x).1 = (x, k s) ∧ I (f s x).2) {xs : List α}
    (hs : I s) (hxs : ∀ x ∈ xs, P x) :
    chainBack g (k (chain f s xs).2) (chain f s xs).1 = (xs, k s) := by
  induction xs generalizing s with
  | nil => rfl
  | cons x xs ih =>
    obtain ⟨hstep, hkeep⟩ := h s x hs (hxs x List.mem_cons_self)
    rw [chain, chainBack_cons, ih hkeep fun y hy => hxs y (List.mem_cons_of_mem _ hy), hstep]

/-- **A mode undoes a mode from behind** in the same way. -/
theorem chain_chainBack {k : τ → σ} {I : τ → Prop} {P : β → Prop}
    (h : ∀ t y, I t → P y → f (k (g t y).2) (g t y).1 = (y, k t) ∧ I (g t y).2) {t : τ} {ys : List β}
    (ht : I t) (hys : ∀ y ∈ ys, P y) :
    chain f (k (chainBack g t ys).2) (chainBack g t ys).1 = (ys, k t) := by
  induction ys generalizing t with
  | nil => rfl
  | cons y ys ih =>
    have hrest : ∀ z ∈ ys, P z := fun z hz => hys z (List.mem_cons_of_mem _ hz)
    have hkeep : I (chainBack g t ys).2 :=
      (forall_chainBack (Q := fun _ => True) (fun t y ht hy => ⟨trivial, (h t y ht hy).2⟩) ht hrest).2
    rw [chainBack_cons, chain, (h _ y hkeep (hys y List.mem_cons_self)).1, ih ht hrest]

/-- Rounds that are undone one by one are undone together. -/
theorem iterate_iterate {γ δ : Type} {F : γ → γ} {G : δ → δ} {K : γ → δ} {I : γ → Prop}
    (h : ∀ p, I p → G (K (F p)) = K p ∧ I (F p)) (n : ℕ) {p : γ} (hp : I p) :
    G^[n] (K (F^[n] p)) = K p := by
  induction n generalizing p with
  | zero => rfl
  | succ n ih =>
    obtain ⟨hstep, hkeep⟩ := h p hp
    rw [Function.iterate_succ_apply F, Function.iterate_succ_apply' G, ih hkeep, hstep]

end

/-! ## Modes in memory -/

namespace Memory

/-- The kept value and the new word. -/
abbrev Step := List UInt8 → List UInt8 → List UInt8 × List UInt8

variable {f : Step} {m q n src dst iv : ℕ} {mem mem' mem'' : Memory}

/-- The `q` words of `m` bytes at `src`, chained with the value at `iv`, are at `dst`, the value kept is
at `iv`, and everything else is as it was. -/
structure Chained (f : Step) (m src dst iv q : ℕ) (mem mem' : Memory) : Prop where
  output : words mem' dst m q = (chain f (load mem iv m) (words mem src m q)).1
  kept : load mem' iv m = (chain f (load mem iv m) (words mem src m q)).2
  frame : ∀ a, (a < dst ∨ dst + m * q ≤ a) → (a < iv ∨ iv + m ≤ a) → mem' a = mem a

/-- The places of a run on `n` bytes: the words are written where they are read or apart from there, and
the kept value lies apart from both. -/
structure Places (m src dst iv n : ℕ) : Prop where
  words : dst = src ∨ Apart dst n src n
  source : Apart src n iv m
  target : Apart dst n iv m

theorem Places.take (h : Places m src dst iv (m * (q + n))) : Places m src dst iv (m * q) := by
  obtain ⟨hwords, hsource, htarget⟩ := h
  rw [Nat.mul_add] at hwords hsource htarget
  refine ⟨hwords.imp_right fun h => ?_, ?_, ?_⟩ <;> unfold Apart at * <;> omega

theorem Places.drop (h : Places m src dst iv (m * (q + n))) :
    Places m (src + m * q) (dst + m * q) iv (m * n) := by
  obtain ⟨hwords, hsource, htarget⟩ := h
  rw [Nat.mul_add] at hwords hsource htarget
  refine ⟨?_, ?_, ?_⟩
  · rcases hwords with rfl | hwords
    · exact .inl rfl
    · unfold Apart at *
      omega
  · unfold Apart at *
    omega
  · unfold Apart at *
    omega

theorem Places.head (h : Places m src dst iv (m * (q + 1))) : Places m src dst iv m := by
  rw [Nat.add_comm] at h
  have hhead := h.take
  rwa [Nat.mul_one] at hhead

theorem Places.tail (h : Places m src dst iv (m * (q + 1))) :
    Places m (src + m) (dst + m) iv (m * q) := by
  rw [Nat.add_comm] at h
  have htail := h.drop
  rwa [Nat.mul_one] at htail

theorem Chained.zero (f : Step) (m src dst iv : ℕ) (mem : Memory) :
    Chained f m src dst iv 0 mem mem := ⟨rfl, rfl, fun _ _ _ => rfl⟩

/-- **Two runs on consecutive words.** -/
theorem Chained.trans (hp : Places m src dst iv (m * (q + n))) (h : Chained f m src dst iv q mem mem')
    (h' : Chained f m (src + m * q) (dst + m * q) iv n mem' mem'') :
    Chained f m src dst iv (q + n) mem mem'' := by
  obtain ⟨hwords, hsource, htarget⟩ := hp
  rw [Nat.mul_add] at hwords hsource htarget
  -- the second part of the source is still there after the first run
  have hrest : words mem' (src + m * q) m n = words mem (src + m * q) m n := by
    refine words_congr fun a ha ha' => h.frame a ?_ ?_
    · rcases hwords with rfl | hwords | hwords
      · exact .inr ha
      · exact .inr (by omega)
      · exact .inl (by omega)
    · rcases hsource with hsource | hsource
      · exact .inl (by omega)
      · exact .inr (by omega)
  -- and the first part of the result after the second run
  have hdone : words mem'' dst m q = words mem' dst m q := by
    refine words_congr fun a ha ha' => h'.frame a (.inl ha') ?_
    rcases htarget with htarget | htarget
    · exact .inl (by omega)
    · exact .inr (by omega)
  have hout := h'.output
  have hkept := h'.kept
  rw [hrest, h.kept] at hout hkept
  refine ⟨?_, ?_, fun a ha ha' => ?_⟩
  · rw [words_add, words_add, chain_append, hdone, h.output, hout]
  · rw [words_add, chain_append, hkept]
  · rw [Nat.mul_add] at ha
    rw [h'.frame a (by omega) ha', h.frame a (by omega) ha']

/-- The run of a first word and then of the others. -/
theorem Chained.cons (hp : Places m src dst iv (m * (q + 1))) (h : Chained f m src dst iv 1 mem mem')
    (h' : Chained f m (src + m) (dst + m) iv q mem' mem'') :
    Chained f m src dst iv (q + 1) mem mem'' := by
  rw [Nat.add_comm q 1] at hp ⊢
  refine h.trans hp ?_
  rwa [Nat.mul_one]

/-- One word. -/
theorem chained_one (hout : load mem' dst m = (f (load mem iv m) (load mem src m)).1)
    (hkept : load mem' iv m = (f (load mem iv m) (load mem src m)).2)
    (hframe : ∀ a, (a < dst ∨ dst + m ≤ a) → (a < iv ∨ iv + m ≤ a) → mem' a = mem a) :
    Chained f m src dst iv 1 mem mem' := by
  refine ⟨?_, hkept, ?_⟩
  · rw [words_one, words_one, hout]
    rfl
  · rw [Nat.mul_one]
    exact hframe

/-- A run that leaves the kept value where it has found it, at `iv'`: in one of the words. -/
structure Advanced (f : Step) (m src dst iv iv' q : ℕ) (mem mem' : Memory) : Prop where
  output : words mem' dst m q = (chain f (load mem iv m) (words mem src m q)).1
  kept : load mem' iv' m = (chain f (load mem iv m) (words mem src m q)).2
  frame : ∀ a, (a < dst ∨ dst + m * q ≤ a) → mem' a = mem a

theorem advanced_one {iv' : ℕ} (hout : load mem' dst m = (f (load mem iv m) (load mem src m)).1)
    (hkept : load mem' iv' m = (f (load mem iv m) (load mem src m)).2)
    (hframe : ∀ a, (a < dst ∨ dst + m ≤ a) → mem' a = mem a) :
    Advanced f m src dst iv iv' 1 mem mem' := by
  refine ⟨?_, hkept, ?_⟩
  · rw [words_one, words_one, hout]
    rfl
  · rwa [Nat.mul_one]

/-- The run of a first word and then of the others. -/
theorem Advanced.cons {iv' iv'' : ℕ} (hp : dst = src ∨ Apart dst (m * (q + 1)) src (m * (q + 1)))
    (h : Advanced f m src dst iv iv' 1 mem mem')
    (h' : Advanced f m (src + m) (dst + m) iv' iv'' q mem' mem'') :
    Advanced f m src dst iv iv'' (q + 1) mem mem'' := by
  have hframe := h.frame
  rw [Nat.mul_one] at hframe
  rw [Nat.mul_succ] at hp
  have hrest : words mem' (src + m) m q = words mem (src + m) m q := by
    refine words_congr fun a ha ha' => hframe a ?_
    unfold Apart at hp
    omega
  have hdone : load mem'' dst m = load mem' dst m :=
    load_congr fun a ha ha' => h'.frame a (.inl ha')
  have hout := h.output
  rw [words_one, words_one] at hout
  have hkept := h.kept
  rw [words_one] at hkept
  refine ⟨?_, ?_, fun a ha => ?_⟩
  · rw [words, words, chain, hdone, (List.cons.inj hout).1, h'.output, hrest, hkept]
    rfl
  · rw [words, chain, h'.kept, hrest, hkept]
    rfl
  · rw [Nat.mul_succ] at ha
    rw [h'.frame a (by omega), hframe a (by omega)]

/-- The kept value is copied to its place. -/
theorem Advanced.chained {iv' : ℕ} (hp : Places m src dst iv (m * q))
    (h : Advanced f m src dst iv iv' q mem mem') :
    Chained f m src dst iv q mem (assign mem' iv (load mem' iv' m)) := by
  have htarget := hp.target
  refine ⟨?_, ?_, fun a ha ha' => ?_⟩
  · rw [← h.output]
    refine words_congr fun a ha ha' => assign_of_outside ?_
    rw [length_load]
    unfold Apart at htarget
    omega
  · rw [load_assign _ (length_load ..), h.kept]
  · rw [assign_of_outside (by rwa [length_load]), h.frame a ha]

/-- A run does the same where bytes apart from its places differ, and leaves these. -/
theorem Chained.congr {p : ℕ} (h : Chained f m src dst iv q mem mem'')
    (hsrc : Apart p n src (m * q)) (hdst : Apart p n dst (m * q)) (hiv : Apart p n iv m)
    (hsame : ∀ a, (a < p ∨ p + n ≤ a) → mem' a = mem a) :
    Chained f m src dst iv q mem' (assign mem'' p (load mem' p n)) := by
  have houtside : ∀ a, (a < p ∨ p + n ≤ a) → assign mem'' p (load mem' p n) a = mem'' a :=
    fun a ha => assign_of_outside (by rwa [length_load])
  unfold Apart at hsrc hdst hiv
  have hwords : words mem' src m q = words mem src m q :=
    words_congr fun a ha ha' => hsame a (by omega)
  have hload : load mem' iv m = load mem iv m := load_congr fun a ha ha' => hsame a (by omega)
  refine ⟨?_, ?_, fun a ha ha' => ?_⟩
  · rw [words_congr fun a ha ha' => houtside a (by omega), h.output, hload, hwords]
  · rw [load_congr fun a ha ha' => houtside a (by omega), h.kept, hload, hwords]
  · by_cases hp : p ≤ a ∧ a < p + n
    · exact assign_load_apply mem' mem'' hp
    · rw [houtside a (by omega), h.frame a ha ha', hsame a (by omega)]

/-- A run that may change `n` bytes from `p` on besides: it is one when these are put back. -/
def ChainedBut (p n : ℕ) (f : Step) (m src dst iv q : ℕ) (mem mem' : Memory) : Prop :=
  Chained f m src dst iv q mem (assign mem' p (load mem p n))

/-- The bytes from `p` on lie apart from all places. -/
structure Beside (p n m src dst iv len : ℕ) : Prop where
  source : Apart p n src len
  target : Apart p n dst len
  iv : Apart p n iv m

theorem Beside.take {p k l : ℕ} (h : Beside p k m src dst iv (n + l)) :
    Beside p k m src dst iv n := by
  obtain ⟨hsource, htarget, hiv⟩ := h
  refine ⟨?_, ?_, hiv⟩ <;> unfold Apart at * <;> omega

theorem Beside.drop {p k l : ℕ} (h : Beside p k m src dst iv (n + l)) :
    Beside p k m (src + n) (dst + n) iv l := by
  obtain ⟨hsource, htarget, hiv⟩ := h
  refine ⟨?_, ?_, hiv⟩ <;> unfold Apart at * <;> omega

theorem ChainedBut.zero (p n : ℕ) (f : Step) (m src dst iv : ℕ) (mem : Memory) :
    ChainedBut p n f m src dst iv 0 mem mem := by
  rw [ChainedBut, assign_load]
  exact Chained.zero ..

theorem ChainedBut.trans {p k : ℕ} (hp : Places m src dst iv (m * (q + n)))
    (hb : Beside p k m src dst iv (m * (q + n)))
    (h : ChainedBut p k f m src dst iv q mem mem')
    (h' : ChainedBut p k f m (src + m * q) (dst + m * q) iv n mem' mem'') :
    ChainedBut p k f m src dst iv (q + n) mem mem'' := by
  rw [Nat.mul_add] at hb
  have hrest := hb.drop
  have hnext : Chained f m (src + m * q) (dst + m * q) iv n (assign mem' p (load mem p k)) _ :=
    Chained.congr h' hrest.source hrest.target hrest.iv fun a ha =>
      assign_of_outside (by rwa [length_load])
  rw [load_assign _ (length_load ..), assign_assign _ _ (by simp)] at hnext
  exact Chained.trans hp h hnext

end Memory

end Server6
