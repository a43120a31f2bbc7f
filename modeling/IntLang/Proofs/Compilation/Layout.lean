import IntLang.Proofs.Compilation.Accepted
import IntLang.Proofs.Scanning.Layout
import IntLang.Proofs.Syntax.Places

/-!
# Layout does not matter to a compilation

A text and any layout of its tokens are compiled alike. All that differs are the places in errors.

* `SameResult`: the same result, or the same error about a token with the same word;
* **`compile_layout`**: a text and a layout of it, in any scope.
-/

namespace IntLang

open CodeUnit

/-- The same result in every part, or the same error of the source but for the place of its token. -/
inductive SameResult :
    Except CompileFailure Compilation → Except CompileFailure Compilation → Prop
  | ok (c : Compilation) : SameResult (.ok c) (.ok c)
  | refused {e e' : CompileError} (h : e.Alike e') :
    SameResult (.error (.source e)) (.error (.source e'))

/-- Whatever the text, the token at its end has the same word. -/
theorem word_last_ofText (us : UnitText) : (TokenSource.ofText us).last.word = ⟨.eof, []⟩ := by
  obtain ⟨-, -, hlast⟩ := Cursor.tiles_pulls (.start us) [] rfl
  rw [show (TokenSource.ofText us).last = _ from hlast]
  rfl

/-- Texts of the same words are compiled alike. -/
theorem sameResult_of_alike {source source' : String} {scope : Scope}
    (h : Pulls.Alike (TokenSource.ofText (Text.units source)).pulls
      (TokenSource.ofText (Text.units source')).pulls) :
    SameResult (compile source scope).1 (compile source' scope).1 ∧
      (compile source scope).2 = (compile source' scope).2 := by
  have hl := (word_last_ofText (Text.units source)).trans (word_last_ofText (Text.units source')).symm
  obtain ⟨hout, hscope⟩ := parse_alike hl h scope
  rcases hp : parse (.ofText (Text.units source)) scope with ⟨outcome, s⟩
  rcases hp' : parse (.ofText (Text.units source')) scope with ⟨outcome', s'⟩
  rw [hp, hp'] at hout hscope
  cases hscope
  cases hout with
  | ok program =>
    have hc : compile source scope = compile source' scope := by rw [compile, compile, hp, hp']
    rw [← hc]
    refine ⟨?_, rfl⟩
    cases hr : (compile source scope).1 with
    | ok c => exact .ok c
    | error failure =>
      cases failure with
      | source e => exact .refused (.refl e)
      | noRule e => exact absurd hr (compile_ne_noRule source scope e)
  | error he =>
    rw [compile, compile, hp, hp']
    exact ⟨.refused he, rfl⟩

/-- **A text and a layout of its tokens are compiled alike**, and leave the same scope. -/
theorem compile_layout {source source' : String} {tokens : List Token}
    (h : lex (Text.units source) = .ok tokens)
    (h' : Layout (tokens.dropLast.map Token.value) (Text.units source')) (scope : Scope) :
    SameResult (compile source scope).1 (compile source' scope).1 ∧
      (compile source scope).2 = (compile source' scope).2 := by
  obtain ⟨ts, last, hp, rfl⟩ := lex_eq_ok.mp h
  have hpulls : (Cursor.start (Text.units source)).pulls.1 = ts.map .ok ++ [] := by
    rw [hp, List.append_nil]
  have hws : ∀ w ∈ ts.map Token.word, Rescans w := by
    simpa using rescans_of_pulls hpulls
  have hlayout : Layout ((ts.map Token.word).map Word.value) (Text.units source') := by
    rw [List.dropLast_concat] at h'
    rwa [List.map_map]
  obtain ⟨ts', last', htext, hw, -⟩ := (scans_layout hws hlayout).pulls_ofText
  refine sameResult_of_alike ?_
  rw [htext, TokenSource.ofText, hp]
  exact Pulls.alike_of_words hw.symm

/-- A comment in front and one at the end of the text, and a blank of every kind. -/
theorem compile_layout_comments : ∃ tokens : List Token,
    lex (Text.units "a=1;") = .ok tokens ∧
      Layout (tokens.dropLast.map Token.value) (Text.units "//b\na\t=\r1 ;\n//") ∧
      SameResult (compile "a=1;" .empty).1 (compile "//b\na\t=\r1 ;\n//" .empty).1 ∧
      (compile "a=1;" .empty).2 = (compile "//b\na\t=\r1 ;\n//" .empty).2 := by
  have hlex : lex (Text.units "a=1;") = .ok [⟨.ident, [unit 'a'], ⟨1, 1⟩⟩,
      ⟨.assign, [unit '='], ⟨1, 2⟩⟩, ⟨.number, [unit '1'], ⟨1, 3⟩⟩, ⟨.semi, [unit ';'], ⟨1, 4⟩⟩,
      ⟨.eof, [], ⟨1, 5⟩⟩] := by
    decide +kernel
  have hend : Spaced [] [unit '\n', unit '/', unit '/'] :=
    .last (.blank (by decide) (@Trivia.comment [] [] [] (by simp) (by simp) .nil)) (blanked_cons rfl)
  have hlayout : Layout [[unit 'a'], [unit '='], [unit '1'], [unit ';']]
      (Text.units "//b\na\t=\r1 ;\n//") := by
    have hrest : Spaced [[unit '='], [unit '1'], [unit ';']]
        [unit '\t', unit '=', unit '\r', unit '1', unit ' ', unit ';', unit '\n', unit '/', unit '/'] :=
      .blank (by decide) (.blank (by decide) (.blank (by decide) hend))
    exact @Layout.values (unit '/' :: unit '/' :: [unit 'b'] ++ [unit '\n']) [unit 'a'] _ _
      (.comment (by decide) (by rintro _ ⟨⟩; rfl) (.blank (by decide) .nil)) hrest
  exact ⟨_, hlex, hlayout, compile_layout hlex hlayout .empty⟩

end IntLang
