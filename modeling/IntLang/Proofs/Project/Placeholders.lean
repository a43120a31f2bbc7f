import IntLang.Project.Template
import Mathlib.Data.List.Infix

/-!
# Placeholders

A text is filled from left to right: up to the first placeholder that means something it stays as it is,
the placeholder gives way to what it means, and behind it the same is done. Two placeholders never
overlap, so it does not matter how a text is cut.

* `Template.hole`: the placeholder of a word;
* `Template.hole_cases`: placeholders do not overlap;
* `Template.Filled`: a text and what becomes of it, for any meaning of the words;
* `Filled.unique`, `Filled.behind`: only one text becomes of it, and placeholders without a meaning
  are kept;
* **`fill_filled`**: every text is filled so, and by the name alone exactly if no other word with a
  meaning stands between double braces.
-/

namespace IntLang.Template

/-! ## Words between braces -/

def IsWord (word : String) : Prop := word ≠ "" ∧ ∀ c ∈ word.toList, isWordChar c = true

instance (word : String) : Decidable (IsWord word) :=
  decidable_of_iff (word ≠ "" ∧ word.toList.all isWordChar = true) (by rw [IsWord, List.all_eq_true])

/-- A word between double braces. -/
def hole (word : String) : List Char := '\x7b' :: '\x7b' :: (word.toList ++ ['\x7d', '\x7d'])

variable {word other text name : String} {s front mid rest out : List Char} {c : Char}

theorem hole_ne_nil (word : String) : hole word ≠ [] := List.cons_ne_nil _ _

theorem IsWord.toList_ne_nil (h : IsWord word) : word.toList ≠ [] :=
  fun hn => h.1 (String.toList_eq_nil_iff.mp hn)

/-- No part of a word is a brace. -/
theorem IsWord.ne_brace (h : IsWord word) (hc : c ∈ word.toList) : c ≠ '\x7b' ∧ c ≠ '\x7d' := by
  have hw := h.2 c hc
  constructor
  all_goals
    rintro rfl
    exact absurd hw (by decide)

/-- A word ends where its placeholder closes. -/
theorem IsWord.takeWhile (h : IsWord word) (s : List Char) :
    (word.toList ++ '\x7d' :: s).takeWhile isWordChar = word.toList := by
  rw [List.takeWhile_append_of_pos h.2, List.takeWhile_cons_of_neg (by decide), List.append_nil]

/-- The placeholder at the front of a text is the only one there. -/
theorem eq_of_hole_append {t : List Char} (hw : IsWord word) (ho : IsWord other)
    (h : hole word ++ s = hole other ++ t) : word = other ∧ s = t := by
  simp only [hole, List.cons_append, List.cons.injEq, true_and, List.append_assoc,
    List.nil_append] at h
  have same : word.toList = other.toList := by
    rw [← hw.takeWhile ('\x7d' :: s), h, ho.takeWhile]
  rw [same] at h
  have rest := List.append_cancel_left h
  simp only [List.cons.injEq, true_and] at rest
  exact ⟨String.toList_inj.mp same, rest⟩

/-- Behind its first brace, no two opening braces stand in a placeholder, not even at its end. -/
theorem IsWord.brace_cons_append_ne (h : IsWord word) {more t u : List Char}
    (hm : '\x7b' :: (word.toList ++ ['\x7d', '\x7d']) = mid ++ '\x7b' :: more)
    (ht : '\x7b' :: t = more ++ u) : False := by
  have closed (hc : '\x7b' ∈ word.toList ++ ['\x7d', '\x7d']) : False := by
    obtain hc | hc := List.mem_append.mp hc
    · exact (h.ne_brace hc).1 rfl
    · exact absurd hc (by decide)
  cases mid with
  | cons c mid =>
    obtain ⟨-, hm⟩ := List.cons.inj hm
    exact closed (hm ▸ List.mem_append_right mid List.mem_cons_self)
  | nil =>
    obtain ⟨-, hm⟩ := List.cons.inj hm
    subst hm
    obtain ⟨c, cs, hw⟩ := List.exists_cons_of_ne_nil h.toList_ne_nil
    rw [hw] at ht closed
    obtain ⟨rfl, -⟩ := List.cons.inj ht
    exact closed List.mem_cons_self

/-- **A placeholder that starts in front of another ends in front of it.** -/
theorem hole_front (hw : IsWord word) (hm : mid ≠ []) (h : hole word <+: mid ++ (hole other ++ rest)) :
    hole word <+: mid := by
  obtain ⟨t, h⟩ := h
  obtain ⟨more, hmid, -⟩ | ⟨more, hmid, ht⟩ := List.append_eq_append_iff.mp h
  · exact ⟨more, hmid.symm⟩
  · obtain ⟨c, mid, rfl⟩ := List.exists_cons_of_ne_nil hm
    rw [hole, List.cons_append, List.cons_append] at ht
    cases more with
    | nil => exact ⟨[], by rw [hmid, List.append_nil, List.append_nil]⟩
    | cons d more =>
      obtain ⟨rfl, opening⟩ := List.cons.inj ht
      exact (hw.brace_cons_append_ne (List.cons.inj hmid).2 opening).elim

/-- **Placeholders do not overlap**: one stands in front of another, or behind it, or is the same. -/
theorem hole_cases (hw : IsWord word) (ho : IsWord other)
    (h : hole word <:+: front ++ (hole other ++ rest)) :
    hole word <:+: front ∨ word = other ∨ hole word <:+: rest := by
  obtain ⟨a, b, h⟩ := h
  rw [List.append_assoc] at h
  obtain ⟨mid, rfl, hm⟩ | ⟨mid, rfl, hm⟩ := List.append_eq_append_iff.mp h
  · by_cases hn : mid = []
    · subst hn
      exact .inr (.inl (eq_of_hole_append hw ho hm).1)
    · exact .inl ((hole_front hw hn ⟨b, hm⟩).isInfix.trans (List.suffix_append a mid).isInfix)
  · by_cases hn : mid = []
    · subst hn
      exact .inr (.inl (eq_of_hole_append ho hw hm).1.symm)
    · obtain ⟨more, rfl⟩ := hole_front ho hn ⟨rest, hm⟩
      rw [List.append_assoc] at hm
      rw [List.append_cancel_left hm]
      exact .inr (.inr (List.infix_append' more (hole word) b))

/-! ## Filled texts -/

/-- No placeholder of a word with a meaning. -/
def Free (meaning : String → Option String) (s : List Char) : Prop :=
  ∀ word, IsWord word → meaning word ≠ none → ¬ hole word <:+: s

/-- A text and what becomes of it. -/
inductive Filled (meaning : String → Option String) : List Char → List Char → Prop
  | rest {s : List Char} (h : Free meaning s) : Filled meaning s s
  | hole {front rest out : List Char} {word text : String} (hf : Free meaning front)
    (hw : IsWord word) (hm : meaning word = some text) (h : Filled meaning rest out) :
    Filled meaning (front ++ (hole word ++ rest)) (front ++ (text.toList ++ out))

theorem free_nil (meaning : String → Option String) : Free meaning [] :=
  fun word _ _ hi => hole_ne_nil word (List.infix_nil.mp hi)

/-- Without two opening braces in a row there is no placeholder. -/
theorem free_of_noBraces (h : ¬ ['\x7b', '\x7b'] <:+: s) (meaning : String → Option String) :
    Free meaning s :=
  fun _ _ _ hi => h ((List.prefix_append ['\x7b', '\x7b'] _).isInfix.trans hi)

section Meaning

variable {meaning : String → Option String}

theorem Free.mono (h : Free meaning s) (hs : mid <:+: s) : Free meaning mid :=
  fun word hw hm hi => h word hw hm (hi.trans hs)

theorem not_free_hole (hw : IsWord word) (hm : meaning word ≠ none) (front rest : List Char) :
    ¬ Free meaning (front ++ (hole word ++ rest)) :=
  fun h => h word hw hm (List.append_assoc front _ rest ▸ List.infix_append front (hole word) rest)

theorem Free.cons (h : Free meaning s)
    (hc : ∀ word, IsWord word → meaning word ≠ none → ¬ hole word <+: c :: s) : Free meaning (c :: s) := by
  intro word hw hm hi
  obtain hp | hi := List.infix_cons_iff.mp hi
  · exact hc word hw hm hp
  · exact h word hw hm hi

/-- A placeholder without a meaning is as good as none. -/
theorem Free.append_hole (hf : Free meaning front) (hw : IsWord word) (hm : meaning word = none)
    (hr : Free meaning rest) : Free meaning (front ++ (hole word ++ rest)) := by
  intro other ho hmo hi
  obtain hi | rfl | hi := hole_cases ho hw hi
  · exact hf other ho hmo hi
  · exact hmo hm
  · exact hr other ho hmo hi

/-- A placeholder with a meaning does not start in front of where it may. -/
theorem Free.eq_nil (hf : Free meaning (front ++ mid)) (hw : IsWord word) (hm : meaning word ≠ none)
    (h : hole word <+: mid ++ (hole other ++ rest)) : mid = [] := by
  by_contra hn
  exact hf word hw hm ((hole_front hw hn h).isInfix.trans (List.suffix_append front mid).isInfix)

/-- The first placeholder with a meaning is at one place. -/
theorem Free.eq_of_append (hf : Free meaning front) (hw : IsWord word) (hm : meaning word ≠ none)
    {front' rest' : List Char} (hf' : Free meaning front') (ho : IsWord other)
    (hmo : meaning other ≠ none)
    (h : front ++ (hole word ++ rest) = front' ++ (hole other ++ rest')) :
    front = front' ∧ word = other ∧ rest = rest' := by
  have same : front = front' := by
    obtain ⟨mid, rfl, ht⟩ | ⟨mid, rfl, ht⟩ := List.append_eq_append_iff.mp h
    · rw [hf'.eq_nil hw hm ⟨rest, ht⟩, List.append_nil]
    · rw [hf.eq_nil ho hmo ⟨rest', ht⟩, List.append_nil]
  rw [same] at h
  exact ⟨same, eq_of_hole_append hw ho (List.append_cancel_left h)⟩

/-- **There is only one way to fill a text.** -/
theorem Filled.unique {out' : List Char} (h : Filled meaning s out) (h' : Filled meaning s out') :
    out = out' := by
  induction h generalizing out' with
  | rest hs =>
    cases h' with
    | rest => rfl
    | hole _ hw hm _ => exact absurd hs (not_free_hole hw (by simp [hm]) _ _)
  | @hole front rest out word text hf hw hm h ih =>
    generalize hs : front ++ (Template.hole word ++ rest) = s at h'
    cases h' with
    | rest hs' => exact absurd (hs ▸ hs') (not_free_hole hw (by simp [hm]) _ _)
    | @hole front' rest' out' other text' hf' ho hmo h' =>
      obtain ⟨rfl, rfl, rfl⟩ := hf.eq_of_append hw (by simp [hm]) hf' ho (by simp [hmo]) hs
      rw [ih h', Option.some.inj (hm.symm.trans hmo)]

/-- **A placeholder without a meaning is kept**, whatever becomes of the text behind it. -/
theorem Filled.behind (h : Filled meaning s out) (hf : Free meaning front) (hw : IsWord word)
    (hm : meaning word = none) :
    Filled meaning (front ++ (Template.hole word ++ s)) (front ++ (Template.hole word ++ out)) := by
  cases h with
  | rest hs => exact .rest (hf.append_hole hw hm hs)
  | @hole more rest out other text hmore ho hmo h =>
    have filled := Filled.hole (hf.append_hole hw hm hmore) ho hmo h
    simpa only [List.append_assoc] using filled

/-- A character that starts no placeholder with a meaning is kept. -/
theorem Filled.cons (h : Filled meaning s out)
    (hc : ∀ word, IsWord word → meaning word ≠ none → ¬ Template.hole word <+: c :: s) :
    Filled meaning (c :: s) (c :: out) := by
  cases h with
  | rest hs => exact .rest (hs.cons hc)
  | @hole front rest out word text hf hw hm h =>
    refine .hole (hf.cons fun other ho hmo hp => hc other ho hmo ?_) hw hm h
    exact hp.trans (List.prefix_append (c :: front) (Template.hole word ++ rest))

end Meaning

/-! ## Filling from left to right -/

theorem placeholder?_eq_some {w : List Char} :
    placeholder? s = some w ↔ IsWord (String.ofList w) ∧ hole (String.ofList w) <+: s := by
  constructor
  · intro h
    unfold placeholder? at h
    split at h
    · next s =>
      dsimp only at h
      split at h
      · next hw =>
        obtain rfl := Option.some.inj h
        obtain ⟨hn, ht⟩ := hw
        have whole : s = s.takeWhile isWordChar ++ s.drop (s.takeWhile isWordChar).length :=
          (List.prefix_iff_eq_append.mp (List.takeWhile_prefix isWordChar)).symm
        have closed := List.take_append_drop 2 (s.drop (s.takeWhile isWordChar).length)
        rw [ht] at closed
        refine ⟨⟨by simpa using hn, fun c hc => ?_⟩,
          (s.drop (s.takeWhile isWordChar).length).drop 2, ?_⟩
        · rw [String.toList_ofList] at hc
          exact List.all_eq_true.mp List.all_takeWhile c hc
        · conv_rhs => rw [whole, ← closed]
          simp only [hole, String.toList_ofList, List.cons_append, List.append_assoc, List.nil_append]
      · cases h
    · cases h
  · rintro ⟨hw, t, rfl⟩
    have word : (w ++ '\x7d' :: '\x7d' :: t).takeWhile isWordChar = w := by
      have taken := hw.takeWhile ('\x7d' :: t)
      rwa [String.toList_ofList] at taken
    have hn : w ≠ [] := by simpa using hw.toList_ne_nil
    simp only [hole, String.toList_ofList, List.cons_append, List.append_assoc, List.nil_append,
      placeholder?, word]
    rw [if_pos ⟨hn, by rw [List.drop_left]; rfl⟩]

theorem fillChars_skip (name : String) (skip : Nat) (s : List Char) :
    fillChars name skip s = fillChars name 0 (s.drop skip) := by
  induction s generalizing skip with
  | nil => rw [List.drop_nil, fillChars, fillChars]
  | cons c s ih =>
    cases skip with
    | zero => rfl
    | succ skip => rw [fillChars, ih, List.drop_succ_cons]

theorem fillChars_hole (hw : IsWord word) (hm : meaning? name word = some text) (s : List Char) :
    fillChars name 0 (hole word ++ s) = text.toList ++ fillChars name 0 s := by
  have hp : placeholder? (hole word ++ s) = some word.toList :=
    placeholder?_eq_some.mpr (by simpa using hw)
  have behind : (hole word ++ s).tail.drop (word.toList.length + 3) = s := by
    rw [List.drop_tail, show word.toList.length + 3 + 1 = (hole word).length by simp [hole],
      List.drop_left]
  have front : hole word ++ s = '\x7b' :: (hole word ++ s).tail := rfl
  rw [front] at hp ⊢
  rw [fillChars, hp]
  simp only [String.ofList_toList, hm]
  rw [fillChars_skip, behind]

theorem fillChars_cons (hc : ∀ word, IsWord word → meaning? name word ≠ none → ¬ hole word <+: c :: s) :
    fillChars name 0 (c :: s) = c :: fillChars name 0 s := by
  rw [fillChars]
  split
  · rfl
  · next w hp =>
    obtain ⟨hw, hi⟩ := placeholder?_eq_some.mp hp
    split
    · rfl
    · next hm => exact absurd hi (hc _ hw (by simp [hm]))

/-- **Every text is filled.** -/
theorem filled_fillChars (name : String) (s : List Char) :
    Filled (meaning? name) s (fillChars name 0 s) := by
  induction hn : s.length using Nat.strong_induction_on generalizing s with
  | _ n ih =>
    by_cases hs : ∃ word, IsWord word ∧ meaning? name word ≠ none ∧ hole word <+: s
    · obtain ⟨word, hw, hm, rest, rfl⟩ := hs
      obtain ⟨text, hm⟩ := Option.ne_none_iff_exists'.mp hm
      rw [fillChars_hole hw hm]
      have shorter : rest.length < n := by
        simp only [← hn, hole, List.length_append, List.length_cons]
        omega
      exact .hole (free_nil _) hw hm (ih _ shorter rest rfl)
    · simp only [not_exists, not_and] at hs
      cases s with
      | nil => exact .rest (free_nil _)
      | cons c s =>
        rw [fillChars_cons hs]
        exact (ih s.length (by simp [← hn]) s rfl).cons hs

theorem fill_of_filled (h : Filled (meaning? name) text.toList out) : fill name text = String.ofList out := by
  rw [fill, h.unique (filled_fillChars name text.toList)]

/-! ## The name alone -/

/-- The name means itself, and no other word means anything. -/
def named? (name : String) (word : String) : Option String :=
  if word = "name" then some name else none

def builtin? (word : String) : Option String := builtins.lookup word

theorem length_hole_lt (h : builtin? word = some text) : (hole word).length < text.toList.length := by
  have all : ∀ entry ∈ builtins, (hole entry.1).length < entry.2.toList.length := by
    refine List.forall_mem_append.mpr ⟨by decide, List.forall_mem_map.mpr fun word _ => ?_⟩
    have front : "function ".toList.length = 9 := by decide
    simp only [hole, String.toList_append, List.length_append, List.length_cons, front, List.length_nil]
    omega
  obtain ⟨front, rest, he, -⟩ := List.lookup_eq_some_iff.mp h
  exact all (word, text) (he ▸ List.mem_append_right front List.mem_cons_self)

theorem meaning?_of_named {word : String} (h : named? name word = some text) :
    meaning? name word = some text ∧ builtin? word = none := by
  unfold named? at h
  split at h
  · next hw =>
    subst hw
    exact ⟨h, by decide⟩
  · cases h

theorem meaning?_eq_some (h : meaning? name word = some text) :
    named? name word = some text ∨ named? name word = none ∧ builtin? word = some text := by
  unfold meaning? at h
  unfold named?
  by_cases hw : word = "name"
  · rw [if_pos hw] at h ⊢
    exact .inl h
  · rw [if_neg hw] at h ⊢
    exact .inr ⟨rfl, h⟩

theorem Free.of_meaning? (h : Free (meaning? name) s) : Free (named? name) s ∧ Free builtin? s := by
  refine ⟨fun word hw hm => h word hw ?_, fun word hw hm => h word hw ?_⟩
  · obtain ⟨text, hm⟩ := Option.ne_none_iff_exists'.mp hm
    simp [(meaning?_of_named hm).1]
  · unfold meaning?
    split
    · exact Option.some_ne_none name
    · exact hm

/-- **What the name alone makes of a text** is as long as what becomes of it exactly if no other
placeholder with a meaning is there. -/
theorem Filled.named (h : Filled (meaning? name) s out) :
    ∃ kept, Filled (named? name) s kept ∧ kept.length ≤ out.length ∧
      (kept.length = out.length → Free builtin? s) ∧ (Free builtin? s → kept = out) := by
  induction h with
  | rest hs =>
    obtain ⟨hn, hb⟩ := hs.of_meaning?
    exact ⟨_, .rest hn, le_rfl, fun _ => hb, fun _ => rfl⟩
  | @hole front rest out word text hf hw hm h ih =>
    obtain ⟨kept, hk, hle, hfree, heq⟩ := ih
    obtain ⟨hfn, hfb⟩ := hf.of_meaning?
    obtain hn | ⟨hn, hb⟩ := meaning?_eq_some hm
    · refine ⟨_, .hole hfn hw hn hk, by simp [hle], fun hl => ?_, fun hb => ?_⟩
      · exact hfb.append_hole hw (meaning?_of_named hn).2 (hfree (by simpa using hl))
      · rw [heq (hb.mono ?_)]
        exact ((List.suffix_append _ rest).trans (List.suffix_append front _)).isInfix
    -- a word that the name does not explain is kept by the one and replaced by a longer text by the other
    · have shorter : (front ++ (Template.hole word ++ kept)).length <
          (front ++ (text.toList ++ out)).length := by
        have := length_hole_lt hb
        simp only [List.length_append]
        omega
      refine ⟨_, hk.behind hfn hw hn, shorter.le, fun hl => absurd hl shorter.ne, fun hfree => ?_⟩
      exact absurd hfree (not_free_hole hw (by simp [hb]) _ _)

/-- **Every text is filled with what its words mean**, and with the name alone exactly if no other word
with a meaning stands between double braces in it. -/
theorem fill_filled (name text : String) :
    (∀ out, Filled (meaning? name) text.toList out ↔ out = (fill name text).toList) ∧
      (Filled (named? name) text.toList (fill name text).toList ↔ Free builtin? text.toList) := by
  have filled := filled_fillChars name text.toList
  have out : (fill name text).toList = fillChars name 0 text.toList := by
    rw [fill, String.toList_ofList]
  rw [← out] at filled
  obtain ⟨kept, hk, -, hfree, heq⟩ := filled.named
  refine ⟨fun out => ⟨fun h => h.unique filled, fun h => h ▸ filled⟩, fun h => ?_, fun h => ?_⟩
  · exact hfree (by rw [hk.unique h])
  · rw [← heq h]
    exact hk

/-- A word that no project means is filled all the same. -/
theorem not_filled_constructor :
    let text := "\x7b\x7bconstructor\x7d\x7d"
    fill "demo" text = "function Object() \x7b [native code] \x7d" ∧
      Filled (named? "demo") text.toList text.toList ∧
      ¬ Filled (named? "demo") text.toList (fill "demo" text).toList := by
  intro text
  have filled : fill "demo" text = "function Object() \x7b [native code] \x7d" := by decide +kernel
  have kept : Filled (named? "demo") text.toList text.toList := by
    refine .rest fun word _ hm hi => ?_
    by_cases hw : word = "name"
    · subst hw
      exact absurd hi (by decide)
    · exact hm (if_neg hw)
  refine ⟨filled, kept, fun h => ?_⟩
  have same := h.unique kept
  rw [filled] at same
  exact absurd same (by decide)

end IntLang.Template
