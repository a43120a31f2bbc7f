import IntLang.Proofs.Scanning.Layout
import IntLang.Proofs.Scanning.Tiles

/-!
# The longest lexeme

The lexemes of the language are words, runs of digits, operators, punctuation and strings. Which of them
stands in front of the scanner is decided by the first unit; how far it reaches is not: `=` may go on to
`==`, and a name, a number or a string takes what it can.

* `IsLexeme`: the lexical grammar, with the kind of every lexeme;
* `Longest`: the longest lexeme at the front of a text, which is unique;
* `NoLexeme`: an unknown unit, or a string that is not closed on its line;
* `judged_read`: what is read at the front of a text is its longest lexeme, or there is none;
* **`next_longest`**: behind trivia, a pull delivers the longest lexeme, and fails exactly if there is
  none or if it is a number that is refused.
-/

namespace IntLang

open CodeUnit

/-! ## The lexical grammar -/

/-- What follows the opening quote of a string, up to the closing one. A backslash takes the next unit
with it. -/
inductive StringRest : UnitText → Prop
  | quote : StringRest [unit '"']
  | plain {u : CodeUnit} {us : UnitText} (hu : u ∉ [unit '"', unit '\\', unit '\n'])
    (h : StringRest us) : StringRest (u :: us)
  | escaped {u : CodeUnit} {us : UnitText} (hu : u ≠ unit '\n') (h : StringRest us) :
    StringRest (unit '\\' :: u :: us)

def keywords : List (UnitText × TokenKind) :=
  [("int", .int), ("print", .print), ("if", .ifWord), ("else", .elseWord)]

/-- Operators and punctuation. -/
def symbols : List (UnitText × TokenKind) :=
  [("==", .eq), ("!=", .ne), ("<=", .le), (">=", .ge), ("=", .assign), ("<", .lt), (">", .gt),
    ("+", .plus), ("-", .minus), ("*", .star), ("/", .slash), (";", .semi), ("(", .lparen),
    (")", .rparen), ("\x7b", .lbrace), ("\x7d", .rbrace)]

/-- **The lexemes of the language**, with their kinds. -/
inductive IsLexeme : TokenKind → UnitText → Prop
  | keyword {kind : TokenKind} {value : UnitText} (h : (value, kind) ∈ keywords) : IsLexeme kind value
  | name {u : CodeUnit} {us : UnitText} (hu : isWordStart u = true)
    (hus : ∀ v ∈ us, isWordPart v = true) (hk : ∀ kind, (u :: us, kind) ∉ keywords) :
    IsLexeme .ident (u :: us)
  | number {us : UnitText} (hne : us ≠ []) (hd : ∀ u ∈ us, isDigit u = true) : IsLexeme .number us
  | symbol {kind : TokenKind} {value : UnitText} (h : (value, kind) ∈ symbols) : IsLexeme kind value
  | string {us : UnitText} (h : StringRest us) : IsLexeme .string (unit '"' :: us)

variable {u v : CodeUnit} {us vs text value value' : UnitText} {kind kind' : TokenKind}

/-! ## The first unit -/

theorem keyword_spec (h : (u :: us, kind) ∈ keywords) :
    isWordStart u = true ∧ (∀ v ∈ us, isWordPart v = true) ∧ wordKind (u :: us) = kind := by
  have all : ∀ k ∈ keywords, k.1.head?.any isWordStart = true ∧ k.1.tail.all isWordPart = true ∧
      wordKind k.1 = k.2 := by decide
  obtain ⟨hu, hp, hk⟩ := all _ h
  exact ⟨hu, List.all_eq_true.mp hp, hk⟩

theorem symbol_spec (h : (u :: us, kind) ∈ symbols) :
    u ≠ unit '"' ∧ isDigit u = false ∧ isWordStart u = false ∧ us.length ≤ 1 := by
  have all : ∀ s ∈ symbols, s.1.head? ≠ some (unit '"') ∧ s.1.head?.any isDigit = false ∧
      s.1.head?.any isWordStart = false ∧ s.1.length ≤ 2 := by decide
  obtain ⟨hq, hd, hw, hl⟩ := all _ h
  exact ⟨fun hu => hq (congrArg some hu), hd, hw, Nat.le_of_succ_le_succ hl⟩

theorem wordKind_eq_ident (h : ∀ kind, (value, kind) ∉ keywords) : wordKind value = .ident := by
  have hne {name : UnitText} {kind : TokenKind} (hm : (name, kind) ∈ keywords) : value ≠ name :=
    fun he => h kind (he ▸ hm)
  have hi : (Text.units "int", TokenKind.int) ∈ keywords := by decide
  have hp : (Text.units "print", TokenKind.print) ∈ keywords := by decide
  have hif : (Text.units "if", TokenKind.ifWord) ∈ keywords := by decide
  have he : (Text.units "else", TokenKind.elseWord) ∈ keywords := by decide
  rw [wordKind, if_neg (hne hi), if_neg (hne hp), if_neg (hne hif), if_neg (hne he)]

namespace IsLexeme

theorem ne_nil (h : IsLexeme kind value) : value ≠ [] := by
  have all : ∀ s ∈ keywords ++ symbols, s.1 ≠ [] := by decide
  cases h with
  | keyword h => exact all _ (List.mem_append_left symbols h)
  | symbol h => exact all _ (List.mem_append_right keywords h)
  | number hne _ => exact hne
  | _ => exact List.cons_ne_nil _ _

/-- A run of parts of a word is a word. -/
theorem word (hu : isWordStart u = true) (hus : ∀ v ∈ us, isWordPart v = true) :
    IsLexeme (wordKind (u :: us)) (u :: us) := by
  by_cases hk : ∃ kind, (u :: us, kind) ∈ keywords
  · obtain ⟨kind, hk⟩ := hk
    rw [(keyword_spec hk).2.2]
    exact .keyword hk
  · rw [not_exists] at hk
    rw [wordKind_eq_ident hk]
    exact .name hu hus hk

theorem of_quote (h : IsLexeme kind (unit '"' :: us)) : kind = .string ∧ StringRest us := by
  cases h with
  | keyword h => exact absurd (keyword_spec h).1 (by decide)
  | name hu => exact absurd hu (by decide)
  | number _ hd => exact absurd (hd _ List.mem_cons_self) (by decide)
  | symbol h => exact absurd rfl (symbol_spec h).1
  | string h => exact ⟨rfl, h⟩

theorem of_digit (hd : isDigit u = true) (h : IsLexeme kind (u :: us)) :
    kind = .number ∧ ∀ v ∈ us, isDigit v = true := by
  have apart (hu : isWordStart u = true) : False := by simp [isDigit_eq_false hu] at hd
  cases h with
  | keyword h => exact (apart (keyword_spec h).1).elim
  | name hu => exact (apart hu).elim
  | number _ hus => exact ⟨rfl, fun v hv => hus v (List.mem_cons_of_mem u hv)⟩
  | symbol h => simp [(symbol_spec h).2.1] at hd
  | string => exact absurd hd (by decide)

theorem of_wordStart (hw : isWordStart u = true) (h : IsLexeme kind (u :: us)) :
    kind = wordKind (u :: us) ∧ ∀ v ∈ us, isWordPart v = true := by
  cases h with
  | keyword h => exact ⟨(keyword_spec h).2.2.symm, (keyword_spec h).2.1⟩
  | name _ hus hk => exact ⟨(wordKind_eq_ident hk).symm, hus⟩
  | number _ hd =>
    have digit := hd u List.mem_cons_self
    simp [isDigit_eq_false hw] at digit
  | symbol h => simp [(symbol_spec h).2.2.1] at hw
  | string => exact absurd hw (by decide)

theorem of_symbol (hq : u ≠ unit '"') (hd : isDigit u = false) (hw : isWordStart u = false)
    (h : IsLexeme kind (u :: us)) : (u :: us, kind) ∈ symbols := by
  cases h with
  | keyword h => simp [(keyword_spec h).1] at hw
  | name hu => simp [hu] at hw
  | number _ hus => simp [hus u List.mem_cons_self] at hd
  | symbol h => exact h
  | string => exact absurd rfl hq

/-- A text is a lexeme of one kind at most. -/
theorem kind_eq (h : IsLexeme kind value) (h' : IsLexeme kind' value) : kind = kind' := by
  obtain ⟨u, us, rfl⟩ := List.exists_cons_of_ne_nil h.ne_nil
  by_cases hq : u = unit '"'
  · subst hq
    rw [h.of_quote.1, h'.of_quote.1]
  by_cases hd : isDigit u = true
  · rw [(h.of_digit hd).1, (h'.of_digit hd).1]
  by_cases hw : isWordStart u = true
  · rw [(h.of_wordStart hw).1, (h'.of_wordStart hw).1]
  · have all : ∀ s ∈ symbols, ∀ s' ∈ symbols, s.1 = s'.1 → s.2 = s'.2 := by decide
    have hd := Bool.eq_false_iff.mpr hd
    have hw := Bool.eq_false_iff.mpr hw
    exact all _ (h.of_symbol hq hd hw) _ (h'.of_symbol hq hd hw) rfl

end IsLexeme

/-! ## Strings -/

/-- A string that is not closed before the next line feed or the end, behind its opening quote. -/
inductive Unclosed : UnitText → Prop
  | ends : Unclosed []
  | lineFeed {us : UnitText} : Unclosed (unit '\n' :: us)
  | plain {u : CodeUnit} {us : UnitText} (hu : u ∉ [unit '"', unit '\\', unit '\n'])
    (h : Unclosed us) : Unclosed (u :: us)
  | escaped {u : CodeUnit} {us : UnitText} (hu : u ≠ unit '\n') (h : Unclosed us) :
    Unclosed (unit '\\' :: u :: us)
  | cut {us : UnitText} (hu : ∀ u ∈ us.head?, u = unit '\n') : Unclosed (unit '\\' :: us)

theorem stringBody_plain (hu : u ∉ [unit '"', unit '\\', unit '\n']) (us : UnitText) :
    stringBody false (u :: us) = ((stringBody false us).1 + 1, (stringBody false us).2) := by
  simp only [List.mem_cons, List.not_mem_nil, or_false, not_or] at hu
  rw [stringBody, if_neg hu.2.2, if_neg fun h => hu.1 h.1, beq_false_of_ne hu.2.1]
  rfl

theorem stringBody_escaped (hu : u ≠ unit '\n') (us : UnitText) :
    stringBody false (unit '\\' :: u :: us) =
      ((stringBody false us).1 + 2, (stringBody false us).2) := by
  rw [stringBody, if_neg (by decide), if_neg (by decide), stringBody, if_neg hu, if_neg (by simp)]
  rfl

/-- A whole string is read whole, whatever follows it. -/
theorem StringRest.stringBody_append (h : StringRest us) (vs : UnitText) :
    stringBody false (us ++ vs) = (us.length, true) := by
  induction h with
  | quote => rfl
  | plain hu _ ih => rw [List.cons_append, stringBody_plain hu, ih, List.length_cons]
  | escaped hu _ ih =>
    rw [List.cons_append, List.cons_append, stringBody_escaped hu, ih, List.length_cons, List.length_cons]

theorem StringRest.stringBody_eq (h : StringRest us) : stringBody false us = (us.length, true) := by
  have whole := h.stringBody_append []
  rwa [List.append_nil] at whole

theorem Unclosed.not_closed (h : Unclosed us) : (stringBody false us).2 = false := by
  induction h with
  | ends => rfl
  | lineFeed => rfl
  | plain hu _ ih => rw [stringBody_plain hu, ih]
  | escaped hu _ ih => rw [stringBody_escaped hu, ih]
  | @cut us hu =>
    cases us with
    | nil => rfl
    | cons u us => rw [hu u rfl]; rfl

/-- A string is closed once. -/
theorem StringRest.eq_nil_of_append (h : StringRest us) (h' : StringRest (us ++ vs)) : vs = [] := by
  have whole := h'.stringBody_eq
  rw [h.stringBody_append] at whole
  have same : us.length = (us ++ vs).length := congrArg Prod.fst whole
  rw [List.length_append] at same
  exact List.length_eq_zero_iff.mp (Nat.left_eq_add.mp same)

theorem StringRest.not_unclosed (h : StringRest us) (vs : UnitText) : ¬ Unclosed (us ++ vs) := by
  intro unclosed
  have closed := unclosed.not_closed
  rw [h.stringBody_append] at closed
  cases closed

theorem mem_or_special (u : CodeUnit) :
    u = unit '\n' ∨ u = unit '"' ∨ u = unit '\\' ∨ u ∉ [unit '"', unit '\\', unit '\n'] := by
  simp only [List.mem_cons, List.not_mem_nil, or_false]
  tauto

/-- **Behind a quote a string is closed**, or it is not. -/
theorem exists_stringRest_or_unclosed (us : UnitText) :
    (∃ body, StringRest body ∧ body <+: us) ∨ Unclosed us := by
  induction us using List.twoStepInduction with
  | nil => exact .inr .ends
  | singleton u =>
    obtain rfl | rfl | rfl | hu := mem_or_special u
    · exact .inr .lineFeed
    · exact .inl ⟨[unit '"'], .quote, List.prefix_rfl⟩
    · exact .inr (.cut (by rintro _ ⟨⟩))
    · exact .inr (.plain hu .ends)
  | cons_cons u v us ih ihs =>
    obtain rfl | rfl | rfl | hu := mem_or_special u
    · exact .inr .lineFeed
    · exact .inl ⟨[unit '"'], .quote, ⟨v :: us, rfl⟩⟩
    · by_cases hn : v = unit '\n'
      · subst hn
        exact .inr (.cut (by rintro _ ⟨⟩; rfl))
      · refine ih.imp ?_ (.escaped hn)
        rintro ⟨body, h, hp⟩
        exact ⟨_, .escaped hn h, List.cons_prefix_cons.mpr ⟨rfl, List.cons_prefix_cons.mpr ⟨rfl, hp⟩⟩⟩
    · refine (ihs v).imp ?_ (.plain hu)
      rintro ⟨body, h, hp⟩
      exact ⟨_, .plain hu h, List.cons_prefix_cons.mpr ⟨rfl, hp⟩⟩

/-- Without a quote in its middle, a string ends with the next quote, or that one is escaped, or the line
ends first. -/
theorem stringRest_or_unclosed (us : UnitText) (hq : unit '"' ∉ us) (hv : Unclosed vs) :
    StringRest (us ++ [unit '"']) ∨ Unclosed (us ++ unit '"' :: vs) := by
  induction us using List.twoStepInduction with
  | nil => exact .inl .quote
  | singleton u =>
    obtain rfl | rfl | rfl | hu := mem_or_special u
    · exact .inr .lineFeed
    · exact absurd List.mem_cons_self hq
    · exact .inr (.escaped (by decide) hv)
    · exact .inl (.plain hu .quote)
  | cons_cons u v us ih ihs =>
    have hvs : unit '"' ∉ v :: us := fun hm => hq (List.mem_cons_of_mem u hm)
    have hus : unit '"' ∉ us := fun hm => hvs (List.mem_cons_of_mem v hm)
    obtain rfl | rfl | rfl | hu := mem_or_special u
    · exact .inr .lineFeed
    · exact absurd List.mem_cons_self hq
    · by_cases hn : v = unit '\n'
      · subst hn
        exact .inr (.cut (by rintro _ ⟨⟩; rfl))
      · exact (ih hus).imp (.escaped hn) (.escaped hn)
    · exact (ihs v hvs).imp (.plain hu) (.plain hu)

/-! ## The longest lexeme -/

/-- The longest lexeme at the front of a text. -/
structure Longest (text : UnitText) (kind : TokenKind) (value : UnitText) : Prop where
  lexeme : IsLexeme kind value
  front : value <+: text
  longest : ∀ kind' value', IsLexeme kind' value' → value' <+: text → value'.length ≤ value.length

theorem Longest.unique (h : Longest text kind value) (h' : Longest text kind' value') :
    kind = kind' ∧ value = value' := by
  have hl : value.length = value'.length :=
    Nat.le_antisymm (h'.longest _ _ h.lexeme h.front) (h.longest _ _ h'.lexeme h'.front)
  have same : value = value' := (List.prefix_of_prefix_length_le h.front h'.front hl.le).eq_of_length hl
  exact ⟨h.lexeme.kind_eq (same ▸ h'.lexeme), same⟩

/-- A number that goes on as a word, or is too large. -/
def BadNumber (text : UnitText) (kind : TokenKind) (value : UnitText) : Prop :=
  kind = .number ∧
    ((∃ u ∈ (text.drop value.length).head?, isWordStart u = true) ∨ maxNumber < Text.numeral value)

/-- A text that starts with an unknown unit, or with a string that is not closed. -/
inductive NoLexeme : UnitText → Prop
  | unknown {u : CodeUnit} {us : UnitText} (hq : u ≠ unit '"') (hd : isDigit u = false)
    (hw : isWordStart u = false) (hs : ∀ s ∈ symbols, ¬ s.1 <+: u :: us) : NoLexeme (u :: us)
  | unclosed {us : UnitText} (h : Unclosed us) : NoLexeme (unit '"' :: us)

/-- What a lexeme that was read tells of its text. -/
inductive Judged (text : UnitText) : Lexeme → Prop
  | token {kind : TokenKind} {value : UnitText} (h : Longest text kind value)
    (hr : ¬ BadNumber text kind value) : Judged text ⟨kind, value.length, none⟩
  | refused {kind kind' : TokenKind} {value : UnitText} {n : Nat} {d : Detail}
    (h : Longest text kind value) (hr : BadNumber text kind value) : Judged text ⟨kind', n, some d⟩
  | none {kind : TokenKind} {n : Nat} {d : Detail} (h : NoLexeme text) : Judged text ⟨kind, n, some d⟩

/-- A lexeme that goes on as long as units are of a class is the longest, if no other goes further. -/
theorem longest_takeWhile {p : CodeUnit → Bool} (h : IsLexeme kind (text.takeWhile p))
    (hp : ∀ kind' value', IsLexeme kind' value' → value' <+: text → ∀ u ∈ value', p u = true) :
    Longest text kind (text.takeWhile p) := by
  refine ⟨h, List.takeWhile_prefix p, fun kind' value' h' hf => ?_⟩
  have hv := hp kind' value' h' hf
  obtain ⟨rest, rfl⟩ := hf
  rw [List.takeWhile_append_of_pos hv, List.length_append]
  exact Nat.le_add_right _ _

/-- A lexeme at the front of a text starts as the text does. -/
theorem IsLexeme.exists_cons (h : IsLexeme kind value) (hf : value <+: u :: us) :
    ∃ vs, value = u :: vs ∧ vs <+: us := by
  obtain ⟨v, vs, rfl⟩ := List.exists_cons_of_ne_nil h.ne_nil
  obtain ⟨rfl, front⟩ := List.cons_prefix_cons.mp hf
  exact ⟨vs, rfl, front⟩

theorem judged_readString (us : UnitText) : Judged (unit '"' :: us) (Lexeme.readString us) := by
  unfold Lexeme.readString
  obtain ⟨body, h, rest, rfl⟩ | h := exists_stringRest_or_unclosed us
  · rw [h.stringBody_append]
    have longest : Longest (unit '"' :: (body ++ rest)) .string (unit '"' :: body) := by
      refine ⟨.string h, ⟨rest, rfl⟩, fun kind' value' h' hf => ?_⟩
      obtain ⟨other, rfl, front⟩ := h'.exists_cons hf
      obtain ⟨more, rfl⟩ | ⟨more, rfl⟩ :=
        List.prefix_or_prefix_of_prefix front (List.prefix_append body rest)
      · simp
      · rw [h.eq_nil_of_append h'.of_quote.2, List.append_nil]
    exact .token longest (by simp [BadNumber])
  · dsimp only
    rw [h.not_closed]
    exact .none (.unclosed h)

theorem judged_readNumber (hd : isDigit u = true) (us : UnitText) :
    Judged (u :: us) (Lexeme.readNumber (u :: us)) := by
  have longest : Longest (u :: us) .number ((u :: us).takeWhile isDigit) := by
    refine longest_takeWhile (.number (by simp [hd]) (List.all_eq_true.mp List.all_takeWhile)) ?_
    intro kind' value' h' hf
    obtain ⟨vs, rfl, -⟩ := h'.exists_cons hf
    exact List.forall_mem_cons.mpr ⟨hd, (h'.of_digit hd).2⟩
  have behind : (u :: us).drop ((u :: us).takeWhile isDigit).length =
      (u :: us).dropWhile isDigit := by
    have dropped := @List.drop_left _ ((u :: us).takeWhile isDigit) ((u :: us).dropWhile isDigit)
    rwa [List.takeWhile_append_dropWhile] at dropped
  unfold Lexeme.readNumber
  dsimp only
  split
  · next hw =>
    rw [Option.any_eq_true] at hw
    exact .refused longest ⟨rfl, .inl (behind ▸ hw)⟩
  · next hw =>
    rw [Option.any_eq_true] at hw
    split
    · next hn => exact .refused longest ⟨rfl, .inr hn⟩
    · next hn => exact .token longest fun hr => hr.2.elim (fun h => hw (behind ▸ h)) hn

theorem judged_readWord (hw : isWordStart u = true) (us : UnitText) :
    Judged (u :: us) (Lexeme.readWord (u :: us)) := by
  have hp : isWordPart u = true := by rw [isWordPart, hw, Bool.true_or]
  have hus : (u :: us).takeWhile isWordPart = u :: us.takeWhile isWordPart :=
    List.takeWhile_cons_of_pos hp
  refine .token (longest_takeWhile ?_ ?_) fun hr => ?_
  · rw [hus]
    exact .word hw (List.all_eq_true.mp List.all_takeWhile)
  · intro kind' value' h' hf
    obtain ⟨vs, rfl, -⟩ := h'.exists_cons hf
    exact List.forall_mem_cons.mpr ⟨hp, (h'.of_wordStart hw).2⟩
  · have kind := wordKind_mem ((u :: us).takeWhile isWordPart)
    rw [hr.1] at kind
    exact absurd kind (by decide)

theorem or_of_ite_eq_some {p : Prop} [Decidable p] {rest : Option TokenKind}
    (h : (if p then some kind' else rest) = some kind) : p ∧ kind' = kind ∨ rest = some kind := by
  split at h
  · next hp => exact .inl ⟨hp, Option.some.inj h⟩
  · exact .inr h

theorem mem_symbols_of_pairKind? (h : pairKind? u v = some kind) : ([u, v], kind) ∈ symbols := by
  unfold pairKind? at h
  split at h
  · cases h
  next hv =>
  obtain rfl := not_not.mp hv
  repeat
    obtain ⟨rfl, rfl⟩ | h := or_of_ite_eq_some h
    · decide
  cases h

theorem mem_symbols_of_singleKind? (h : singleKind? u = some kind) : ([u], kind) ∈ symbols := by
  unfold singleKind? at h
  repeat
    obtain ⟨rfl, rfl⟩ | h := or_of_ite_eq_some h
    · decide
  cases h

/-- A symbol at the front of a text is found in one of the two tables. -/
theorem symbol_front (h : (u :: vs, kind) ∈ symbols) (hf : vs <+: us) :
    us.head?.bind (pairKind? u) = some kind ∨ vs = [] ∧ singleKind? u = some kind := by
  have all : ∀ s ∈ symbols, (s.1.head?.bind fun u => s.1.tail.head?.bind (pairKind? u)) = some s.2 ∨
      s.1.tail = [] ∧ s.1.head?.bind singleKind? = some s.2 := by
    decide
  refine (all _ h).imp_left fun (hk : vs.head?.bind (pairKind? u) = some kind) => ?_
  obtain ⟨v, hv, hk⟩ := Option.bind_eq_some_iff.mp hk
  obtain ⟨vs, rfl⟩ := List.head?_eq_some_iff.mp hv
  obtain ⟨rest, rfl⟩ := hf
  exact hk

theorem judged_readSymbol (hq : u ≠ unit '"') (hd : isDigit u = false) (hw : isWordStart u = false)
    (us : UnitText) : Judged (u :: us) (Lexeme.readSymbol u us) := by
  have kinds : ∀ s ∈ symbols, s.2 ≠ .number := by decide
  unfold Lexeme.readSymbol
  split
  · next kind hk =>
    obtain ⟨v, hv, hk⟩ := Option.bind_eq_some_iff.mp hk
    obtain ⟨us, rfl⟩ := List.head?_eq_some_iff.mp hv
    have hm := mem_symbols_of_pairKind? hk
    have longest : Longest (u :: v :: us) kind [u, v] := by
      refine ⟨.symbol hm, ⟨us, rfl⟩, fun kind' value' h' hf => ?_⟩
      obtain ⟨vs, rfl, -⟩ := h'.exists_cons hf
      exact Nat.succ_le_succ (symbol_spec (h'.of_symbol hq hd hw)).2.2.2
    exact .token longest fun hr => kinds _ hm hr.1
  next hpair =>
  split
  · next kind hk =>
    have hm := mem_symbols_of_singleKind? hk
    -- a longer symbol would have been found among the pairs
    have longest : Longest (u :: us) kind [u] := by
      refine ⟨.symbol hm, ⟨us, rfl⟩, fun kind' value' h' hf => ?_⟩
      obtain ⟨vs, rfl, front⟩ := h'.exists_cons hf
      obtain hp | ⟨rfl, -⟩ := symbol_front (h'.of_symbol hq hd hw) front
      · rw [hpair] at hp
        cases hp
      · rfl
    exact .token longest fun hr => kinds _ hm hr.1
  · next hsingle =>
    refine .none (.unknown hq hd hw ?_)
    rintro ⟨value, kind⟩ hs hf
    obtain ⟨vs, rfl, front⟩ := (IsLexeme.symbol hs).exists_cons hf
    obtain hp | ⟨-, hp⟩ := symbol_front hs front
    · rw [hpair] at hp
      cases hp
    · rw [hsingle] at hp
      cases hp

/-- **What is read at the front of a text** is its longest lexeme, refused or not, or there is none. -/
theorem judged_read (u : CodeUnit) (us : UnitText) : Judged (u :: us) (Lexeme.read u us) := by
  unfold Lexeme.read
  split
  · next hq => exact hq ▸ judged_readString us
  next hq =>
  split
  · next hd => exact judged_readNumber hd us
  next hd =>
  split
  · next hw => exact judged_readWord hw us
  · next hw =>
    exact judged_readSymbol hq (Bool.eq_false_iff.mpr hd) (Bool.eq_false_iff.mpr hw) us

theorem noLexeme_iff (hne : text ≠ []) :
    NoLexeme text ↔ ∀ kind value, IsLexeme kind value → ¬ value <+: text := by
  constructor
  · intro h kind value hv hf
    cases h with
    | unknown hq hd hw hs =>
      obtain ⟨vs, rfl, -⟩ := hv.exists_cons hf
      exact hs _ (hv.of_symbol hq hd hw) hf
    | unclosed h =>
      obtain ⟨vs, rfl, rest, rfl⟩ := hv.exists_cons hf
      exact hv.of_quote.2.not_unclosed rest h
  · intro h
    obtain ⟨u, us, rfl⟩ := List.exists_cons_of_ne_nil hne
    generalize hl : Lexeme.read u us = l
    cases hl ▸ judged_read u us with
    | token hv _ => exact absurd hv.front (h _ _ hv.lexeme)
    | refused hv _ => exact absurd hv.front (h _ _ hv.lexeme)
    | none hn => exact hn

/-! ## Pulls -/

/-- Neither a blank nor a comment stands at the front of the text. -/
def Bare (text : UnitText) : Prop :=
  (∀ u ∈ text.head?, u ∉ [unit ' ', unit '\t', unit '\r', unit '\n']) ∧ ¬ [unit '/', unit '/'] <+: text

theorem bare_of_triviaLength (h : triviaLength false text = 0) : Bare text := by
  cases text with
  | nil => exact ⟨by rintro _ ⟨⟩, by simp⟩
  | cons u us =>
    rw [triviaLength, if_neg Bool.false_ne_true] at h
    split at h
    · cases h
    next hu =>
    split at h
    · cases h
    next hc =>
    constructor
    · rintro _ ⟨⟩ hm
      exact hu (isTrivial_of_mem hm)
    · intro hp
      obtain ⟨rfl, rest, rfl⟩ := List.cons_prefix_cons.mp hp
      exact hc ⟨rfl, rfl⟩

theorem Longest.not_noLexeme (h : Longest text kind value) : ¬ NoLexeme text := by
  intro hn
  have hne : text ≠ [] := by
    rintro rfl
    exact h.lexeme.ne_nil (List.prefix_nil.mp h.front)
  exact (noLexeme_iff hne).mp hn _ _ h.lexeme h.front

namespace Cursor

/-- **What a pull delivers from a text**, which is not empty. -/
theorem take_longest {c : Cursor} (hne : c.rest ≠ []) :
    (∀ t, c.take.1 = .ok t ↔
        Longest c.rest t.kind t.value ∧ ¬ BadNumber c.rest t.kind t.value ∧ t.pos = c.pos) ∧
      ((∃ e, c.take.1 = .error e) ↔
        NoLexeme c.rest ∨ ∃ kind value, Longest c.rest kind value ∧ BadNumber c.rest kind value) := by
  obtain ⟨u, us, hc⟩ := List.exists_cons_of_ne_nil hne
  have judged := judged_read u us
  simp only [take, hc]
  generalize Lexeme.read u us = l at judged
  cases judged with
  | @token kind value h hr =>
    have token : c.token ⟨kind, value.length, none⟩ = ⟨kind, value, c.pos⟩ := by
      rw [Cursor.token, hc, ← List.prefix_iff_eq_take.mp h.front]
    refine ⟨fun t => ⟨?_, ?_⟩, iff_of_false (by simp) ?_⟩
    · intro ht
      rw [token] at ht
      cases ht
      exact ⟨h, hr, rfl⟩
    · rintro ⟨h', -, hp⟩
      obtain ⟨hk, hv⟩ := h.unique h'
      rw [token, hk, hv, ← hp]
    · rintro (hn | ⟨kind', value', h', hr'⟩)
      · exact h.not_noLexeme hn
      · obtain ⟨rfl, rfl⟩ := h.unique h'
        exact hr hr'
  | @refused kind kind' value n d h hr =>
    refine ⟨fun t => iff_of_false (by simp) ?_, iff_of_true ⟨_, rfl⟩ (.inr ⟨kind, value, h, hr⟩)⟩
    rintro ⟨h', hr', -⟩
    obtain ⟨hk, hv⟩ := h.unique h'
    exact hr' (hk ▸ hv ▸ hr)
  | none hn =>
    refine ⟨fun t => iff_of_false (by simp) ?_, iff_of_true ⟨_, rfl⟩ (.inl hn)⟩
    rintro ⟨h', -⟩
    exact h'.not_noLexeme hn

end Cursor

/-- **The scanner takes the longest lexeme.** In front of it stand blanks and comments, all of them. A
pull delivers it as a token of its kind, and fails exactly if there is none, since a unit is unknown or
a string is not closed on its line, or if it is a number that is refused. -/
theorem next_longest (c : Cursor) :
    ∃ gap text, c.rest = gap ++ text ∧ Trivia text gap ∧ Bare text ∧
      (text = [] → c.next.1 = .ok ⟨.eof, [], c.pos.advance gap⟩) ∧
      (text ≠ [] →
        (∀ t, c.next.1 = .ok t ↔ Longest text t.kind t.value ∧ ¬ BadNumber text t.kind t.value ∧
          t.pos = c.pos.advance gap) ∧
        ((∃ e, c.next.1 = .error e) ↔ (∀ kind value, IsLexeme kind value → ¬ value <+: text) ∨
          ∃ kind value, Longest text kind value ∧ BadNumber text kind value) ∧
        ((∀ kind value, IsLexeme kind value → ¬ value <+: text) ↔ NoLexeme text)) := by
  refine ⟨c.rest.take (triviaLength false c.rest), c.skipTrivia.rest,
    (List.take_append_drop _ _).symm, (trivia_take c.rest).1,
    bare_of_triviaLength (triviaLength_drop c.rest).1, fun hn => ?_, fun hne => ?_⟩
  · rw [Cursor.next, Cursor.take, hn]
    rfl
  · obtain ⟨tokens, errors⟩ := Cursor.take_longest hne
    exact ⟨tokens, errors.trans (or_congr_left (noLexeme_iff hne)), (noLexeme_iff hne).symm⟩

end IntLang
