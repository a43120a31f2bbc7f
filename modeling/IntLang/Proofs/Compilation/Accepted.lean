import IntLang.Compilation
import IntLang.Proofs.CUnit.RoundTrip
import IntLang.Proofs.Scanning.LineFeed
import IntLang.Proofs.Syntax.Declarations
import IntLang.Proofs.Syntax.Grammar
import IntLang.Proofs.Syntax.Scanned

/-!
# What a compilation comes to

A source is accepted or refused with an error of its own: what is parsed from a text is well-formed, and
well-formed programs have a rule for every node.

* `Quoted`: one literal in double quotes, unit by unit; `isLiteral_iff_quoted`: it is what is
  scanned as one;
* `Compilation.Sound`: what the result of an accepted source promises;
* `exists_scans_of_parse`: a program that is read takes the whole text;
* **`compile_sound`**: every compilation ends in a sound result or in an error of the source.
-/

namespace IntLang

open CodeUnit

/-! ## Literals -/

/-- What follows an opening quote, up to the closing one. A backslash takes the next unit with it. -/
inductive Closing : UnitText → Prop
  | quote : Closing [unit '"']
  | plain {u : CodeUnit} {us : UnitText} (hu : u ∉ [unit '"', unit '\\', unit '\n']) (h : Closing us) :
    Closing (u :: us)
  | escaped {u : CodeUnit} {us : UnitText} (hu : u ≠ unit '\n') (h : Closing us) :
    Closing (unit '\\' :: u :: us)

/-- One literal in double quotes. -/
def Quoted (text : UnitText) : Prop := ∃ us, text = unit '"' :: us ∧ Closing us

/-- A unit that ends no string is one step on. -/
theorem stringBody_cons {escaped : Bool} {u : CodeUnit} (hn : u ≠ unit '\n')
    (hq : ¬ (u = unit '"' ∧ escaped = false)) (us : UnitText) :
    stringBody escaped (u :: us) = ((stringBody (!escaped && u == unit '\\') us).1 + 1,
      (stringBody (!escaped && u == unit '\\') us).2) := by
  rw [stringBody, if_neg hn, if_neg (by simpa using hq)]

/-- What is left of a closed string, in front of a unit and behind a backslash. -/
theorem closing_of_stringBody {us : UnitText} {escaped : Bool}
    (h : stringBody escaped us = (us.length, true)) :
    if escaped then ∃ u us', us = u :: us' ∧ u ≠ unit '\n' ∧ Closing us' else Closing us := by
  induction us generalizing escaped with
  | nil => cases h
  | cons u us ih =>
    by_cases hn : u = unit '\n'
    · rw [stringBody, if_pos hn] at h
      cases h
    by_cases hq : u = unit '"' ∧ escaped = false
    · obtain ⟨rfl, rfl⟩ := hq
      have hlen : 1 = (unit '"' :: us).length := congrArg Prod.fst h
      obtain rfl : us = [] := List.length_eq_zero_iff.mp (Nat.succ.inj hlen.symm)
      exact .quote
    · rw [stringBody_cons hn hq] at h
      obtain ⟨hl, hc⟩ := Prod.mk.inj h
      have ih := ih (Prod.ext (Nat.succ.inj hl) hc)
      cases escaped with
      | true => exact ⟨u, us, rfl, hn, ih⟩
      | false =>
        by_cases hb : u = unit '\\'
        · subst hb
          obtain ⟨v, us, rfl, hv, hus⟩ := ih
          exact .escaped hv hus
        · rw [beq_false_of_ne hb] at ih
          refine .plain ?_ ih
          simp only [List.mem_cons, List.not_mem_nil, or_false, not_or]
          exact ⟨fun h => hq ⟨h, rfl⟩, hb, hn⟩

theorem stringBody_of_closing {us : UnitText} (h : Closing us) :
    stringBody false us = (us.length, true) := by
  induction h with
  | quote => rfl
  | @plain u us hu _ ih =>
    simp only [List.mem_cons, List.not_mem_nil, or_false, not_or] at hu
    rw [stringBody_cons hu.2.2 fun h => hu.1 h.1, beq_false_of_ne hu.2.1, Bool.and_false, ih,
      List.length_cons]
  | @escaped u us hu _ ih =>
    have stroke : (!false && unit '\\' == unit '\\') = true := rfl
    rw [stringBody_cons (by decide) (by decide), stroke, stringBody_cons hu (by simp), Bool.not_true,
      Bool.false_and, ih, List.length_cons, List.length_cons]

/-- **One literal in double quotes** is what is scanned as one. -/
theorem isLiteral_iff_quoted {text : UnitText} : IsLiteral text ↔ Quoted text := by
  rw [isLiteral_iff]
  constructor
  · rintro ⟨body, rfl, hb⟩
    exact ⟨body, rfl, closing_of_stringBody hb⟩
  · rintro ⟨us, rfl, h⟩
    exact ⟨us, rfl, stringBody_of_closing h⟩

/-! ## Results -/

mutual

def Node.texts : Node → List UnitText
  | .printText text => [text]
  | .branch _ yes none => Program.texts yes
  | .branch _ yes (some no) => Program.texts yes ++ Program.texts no
  | .block statements => Program.texts statements
  | _ => []

/-- The texts that are printed. -/
def Program.texts : List Node → List UnitText
  | [] => []
  | node :: nodes => node.texts ++ Program.texts nodes

end

theorem quoted_of_areStatements {nodes : List Node} (h : AreStatements nodes) :
    ∀ text ∈ Program.texts nodes, Quoted text := by
  refine @AreStatements.rec (fun node _ => ∀ text ∈ node.texts, Quoted text)
    (fun nodes _ => ∀ text ∈ Program.texts nodes, Quoted text)
    ?declare ?initial ?print ?printText ?branch ?branchElse ?bare ?nil ?cons nodes h
  case declare | initial | print | nil => simp [Node.texts, Program.texts]
  case printText =>
    intro text ht
    simpa [Node.texts] using isLiteral_iff_quoted.mp ht
  case branch => exact fun _ _ ihy => by simpa [Node.texts] using ihy
  case branchElse =>
    exact fun _ _ _ ihy ihn => by simpa [Node.texts, or_imp, forall_and] using ⟨ihy, ihn⟩
  case bare =>
    intro value hv
    cases hv <;> simp [Node.texts]
  case cons =>
    exact fun _ _ ih ihs => by simpa [Program.texts, or_imp, forall_and] using ⟨ih, ihs⟩

/-- What the result of an accepted source promises. -/
structure Compilation.Sound (source : UnitText) (scope : Scope) (c : Compilation) : Prop where
  /-- Every node is in its place, every number in range, every name an identifier. -/
  statements : AreStatements c.program
  texts : ∀ text ∈ Program.texts c.program, Quoted text
  /-- A name that is used was known at the start or is declared before. -/
  uses : ∀ before name after, Program.events c.program = before ++ .uses name :: after →
    name ∈ scope.names ∨ .declares name ∈ before
  declares : (scope.names ++ Program.declares c.program).Nodup
  symbols : c.symbols = scope.names ++ Program.declares c.program
  /-- The program's names in the order of the source. -/
  order : ∃ words, Text.words source = .ok words ∧
    Program.declares c.program = declarations words

/-- A use that is not refused finds its name among those known at the start and those declared since. -/
theorem known_of_replay {before after : List NameEvent} {name : UnitText} {s s' : Scope}
    (h : NameCheck.replay Scope.apply s (before ++ .uses name :: after) = (none, s')) :
    name ∈ s.names ∨ .declares name ∈ before := by
  rw [List.append_cons, List.append_assoc] at h
  obtain ⟨s₁, hs, h⟩ := NameCheck.replay_append_none.mp h
  obtain ⟨s₂, hu, -⟩ := NameCheck.replay_append_none.mp h
  have hm := (Scope.apply_uses.mp (NameCheck.replay_singleton.mp hu)).1
  rw [(NameCheck.replay_names hs).1, List.mem_append, List.mem_filterMap] at hm
  refine hm.imp_right ?_
  rintro ⟨_ | _, he, hd⟩ <;> cases hd
  exact he

/-- **A program that is read takes the whole text.** -/
theorem exists_scans_of_parse {us : UnitText} {nodes : Program} {s s' : Scope}
    (h : parse (.ofText us) s = (.ok nodes, s')) :
    ∃ ws, Scans us ws ∧ MakesProgram ws nodes ∧ nodes.walk s = (none, s') := by
  obtain ⟨rest, hy⟩ := exists_yields_of_parse (congrArg Prod.fst h)
  obtain ⟨ts, hp, hm, hs⟩ := Parse.took_program _ _ _ hy
  rw [h] at hs
  obtain ⟨htiles, -, -⟩ := Cursor.tiles_pulls (.start us) [] rfl
  have hp : (Cursor.start us).pulls.1 = ts.map .ok ++ rest := hp
  rw [hp] at htiles
  obtain rfl : rest = [] := by
    obtain hr | ⟨t, rest, rfl, hk⟩ := Parse.rest_statements _ _ _ hy
    · exact hr
    · -- no token of a text is the end of input
      have hts : ts.map Except.ok ++ .ok t :: rest = (ts ++ [t]).map Except.ok ++ rest := by simp
      rw [hts] at htiles
      exact absurd (hk.elim id id) (htiles.kind_ne_eof t (by simp))
  rw [List.append_nil] at hp
  exact ⟨_, scans_of_pulls hp, hm, hs⟩

/-- What an accepted source goes through. -/
theorem exists_program_of_compile {source : UnitText} {scope scope' : Scope} {c : Compilation}
    (h : compile source scope = (.ok c, scope')) :
    parse (.ofText source) scope = (.ok c.program, scope') ∧
      c.symbols = scope'.names ∧ c.tree = c.program.draw ∧ CUnit.ofProgram c.program = .ok c.code := by
  unfold compile at h
  split at h
  · next program s hp =>
    obtain ⟨hc, rfl⟩ := Prod.mk.inj h
    unfold Compilation.ofProgram at hc
    split at hc
    · next code hcode =>
      cases hc
      exact ⟨hp, rfl, rfl, hcode⟩
    · cases hc
  · cases h

theorem sound_of_compile {source : UnitText} {scope scope' : Scope} {c : Compilation}
    (h : compile source scope = (.ok c, scope')) : c.Sound source scope := by
  obtain ⟨hp, hsym, -⟩ := exists_program_of_compile h
  obtain ⟨hst, hw⟩ := wellFormed_of_parse hp
  obtain ⟨ws, hscans, hm, -⟩ := exists_scans_of_parse hp
  have hn : scope'.names = scope.names ++ Program.declares c.program := (NameCheck.replay_names hw).1
  refine ⟨hst, quoted_of_areStatements hst, ?_, hn ▸ scope'.nodup, hsym.trans hn,
    ws, hscans.words, (declarations_of_makesProgram hm).symm⟩
  intro before name after he
  rw [Program.walk, he] at hw
  exact known_of_replay hw

/-- No program that is read from a text has a node without a rule. -/
theorem compile_ne_noRule (source : UnitText) (scope : Scope) (e : NoRule) :
    (compile source scope).1 ≠ .error (.noRule e) := by
  unfold compile
  split
  · next program s hp =>
    obtain ⟨lines, hl, -⟩ := CUnit.spells_body (wellFormed_of_parse hp).1
    rw [Compilation.ofProgram, CUnit.ofProgram, hl]
    rintro ⟨⟩
  · rintro ⟨⟩

theorem compile_ends (source : UnitText) (scope : Scope) :
    (∃ c, (compile source scope).1 = .ok c) ∨ ∃ e, (compile source scope).1 = .error (.source e) := by
  cases h : (compile source scope).1 with
  | ok c => exact .inl ⟨c, rfl⟩
  | error failure =>
    cases failure with
    | source e => exact .inr ⟨e, rfl⟩
    | noRule e => exact absurd h (compile_ne_noRule source scope e)

/-- **Every compilation ends in a sound result or in an error of the source**, in any scope; an attempt
at a source always has a result. -/
theorem compile_sound (source : UnitText) (scope : Scope) :
    ((∃ c, (compile source scope).1 = .ok c ∧ c.Sound source scope) ∨
      ∃ e, (compile source scope).1 = .error (.source e)) ∧ ∃ result, attempt source = .ok result := by
  constructor
  · obtain ⟨c, hc⟩ | he := compile_ends source scope
    · exact .inl ⟨c, hc, sound_of_compile (Prod.ext hc rfl)⟩
    · exact .inr he
  · unfold attempt
    obtain ⟨c, hc⟩ | ⟨e, he⟩ := compile_ends source .empty
    · rw [hc]
      exact ⟨_, rfl⟩
    · rw [he]
      exact ⟨_, rfl⟩

end IntLang
