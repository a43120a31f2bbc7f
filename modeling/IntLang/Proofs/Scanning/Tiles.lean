import IntLang.Proofs.Scanning.Lexemes
import Mathlib.Data.List.DropRight

/-!
# Scanning tiles the text

Pull by pull, a text is cut into trivia and the texts of tokens. A faulty token has its text like any
other, so nothing is lost where scanning goes on behind an error.

* `Position.behind`: the place behind a text, by its line feeds;
* `Trivia`: blanks and comments;
* `Cursor.exists_token`: what one pull takes off the front;
* `Cursor.pull_pulls`, `TokenSource.pull_eq`: any number of pulls are the steps up to the end of the
  text, and then its end token again and again;
* `TokenSource.pull_ofText`: a parser that pulls from a text gets the same;
* **`exists_tiles`**: the steps tile the text, and `lex` is made of them.
-/

namespace IntLang

open CodeUnit

/-! ## Places -/

/-- The place behind the start of a text: a line for each line feed, and a column for each unit behind
the last of them. -/
def Position.behind (us : UnitText) : Position :=
  ⟨1 + us.count (unit '\n'), 1 + (us.rtakeWhile (· ≠ unit '\n')).length⟩

theorem Position.step_behind (us : UnitText) (u : CodeUnit) :
    (behind us).step u = behind (us ++ [u]) := by
  by_cases hu : u = unit '\n'
  · have hp : ¬ decide (u ≠ unit '\n') = true := by simp [hu]
    rw [step, if_pos hu, behind, behind, List.count_append, List.rtakeWhile_concat, if_neg hp, hu,
      List.count_singleton_self]
    simp only [Position.mk.injEq, List.length_nil]
    omega
  · have hp : decide (u ≠ unit '\n') = true := decide_eq_true hu
    rw [step, if_neg hu, behind, behind, List.count_append, List.rtakeWhile_concat, if_pos hp,
      List.count_singleton, beq_false_of_ne hu, if_neg Bool.false_ne_true]
    simp only [Position.mk.injEq, List.length_append, List.length_singleton]
    omega

theorem Position.advance_behind (us vs : UnitText) : (behind us).advance vs = behind (us ++ vs) := by
  induction vs generalizing us with
  | nil => rw [advance_nil, List.append_nil]
  | cons v vs ih =>
    change ((behind us).step v).advance vs = _
    rw [step_behind, ih, List.append_assoc, List.singleton_append]

/-! ## Trivia -/

/-- Blanks and comments in front of a text. A comment ends in front of a line feed or where everything
ends. -/
inductive Trivia (text : UnitText) : UnitText → Prop
  | nil : Trivia text []
  | blank {u : CodeUnit} {us : UnitText} (hu : u ∈ [unit ' ', unit '\t', unit '\r', unit '\n'])
    (h : Trivia text us) : Trivia text (u :: us)
  | comment {body us : UnitText} (hb : unit '\n' ∉ body)
    (he : ∀ u ∈ (us ++ text).head?, u = unit '\n') (h : Trivia text us) :
    Trivia text (unit '/' :: unit '/' :: body ++ us)

/-- The rest of a comment, and trivia behind it. -/
def CommentRest (text us : UnitText) : Prop :=
  ∃ body vs, us = body ++ vs ∧ unit '\n' ∉ body ∧ (∀ u ∈ (vs ++ text).head?, u = unit '\n') ∧
    Trivia text vs

section

variable {text us : UnitText}

theorem CommentRest.cons {u : CodeUnit} (hu : u ≠ unit '\n') (h : CommentRest text us) :
    CommentRest text (u :: us) := by
  obtain ⟨body, vs, rfl, hb, he, hv⟩ := h
  exact ⟨u :: body, vs, rfl, List.not_mem_cons_of_ne_of_not_mem hu.symm hb, he, hv⟩

theorem Trivia.lineFeed (h : Trivia text us) : CommentRest text (unit '\n' :: us) := by
  refine ⟨[], unit '\n' :: us, rfl, List.not_mem_nil, ?_, .blank (by simp) h⟩
  rintro _ ⟨⟩
  rfl

/-- The second stroke is part of the comment, since it is no line feed. -/
theorem CommentRest.trivia (h : CommentRest text (unit '/' :: us)) :
    Trivia text (unit '/' :: unit '/' :: us) := by
  obtain ⟨_ | ⟨u, body⟩, vs, hus, hb, he, hv⟩ := h
  · rw [List.nil_append] at hus
    rw [← hus] at he
    exact absurd (he _ rfl) (by decide)
  · obtain ⟨rfl, rfl⟩ := List.cons.inj hus
    exact .comment (fun h => hb (List.mem_cons_of_mem _ h)) he hv

end

/-- What is skipped is trivia, and inside a comment the rest of it and trivia. -/
theorem trivia_take (us : UnitText) :
    Trivia (us.drop (triviaLength false us)) (us.take (triviaLength false us)) ∧
      CommentRest (us.drop (triviaLength true us)) (us.take (triviaLength true us)) := by
  induction us with
  | nil => exact ⟨.nil, [], [], rfl, List.not_mem_nil, by rintro _ ⟨⟩, .nil⟩
  | cons u us ih =>
    obtain ⟨ih, ihc⟩ := ih
    constructor
    · rw [triviaLength, if_neg Bool.false_ne_true]
      split
      · next hu =>
        simp only [isTrivial, Bool.or_eq_true, beq_iff_eq] at hu
        exact .blank (by simp only [List.mem_cons, List.not_mem_nil]; tauto) ih
      split
      · next hc =>
        obtain ⟨rfl, hs⟩ := hc
        obtain ⟨us, rfl⟩ := List.head?_eq_some_iff.mp hs
        rw [triviaLength, if_pos rfl] at ihc ⊢
        exact ihc.trivia
      · exact .nil
    · rw [triviaLength, if_pos rfl]
      by_cases hu : u = unit '\n'
      · rw [hu, bne_self_eq_false]
        exact ih.lineFeed
      · rw [bne_iff_ne.mpr hu]
        exact ihc.cons hu

/-! ## Steps -/

/-- The step delivers the token, or the error that it is none. -/
def Pull.Shows (pull : Pull) (t : Token) : Prop :=
  pull = .ok t ∨ ∃ d, pull = .error (.unexpected t (some d))

/-- The steps tile a text that stands behind another one: trivia and the texts of the tokens take turns,
up to the end. -/
inductive Tiles : UnitText → UnitText → List Pull → Prop
  | last {before gap : UnitText} (hg : Trivia [] gap) : Tiles before gap []
  | step {before gap rest : UnitText} {pull : Pull} {steps : List Pull} {t : Token}
    (hg : Trivia (t.value ++ rest) gap) (ht : pull.Shows t) (hk : t.kind ≠ .eof) (hv : t.value ≠ [])
    (hp : t.pos = .behind (before ++ gap)) (h : Tiles (before ++ gap ++ t.value) rest steps) :
    Tiles before (gap ++ t.value ++ rest) (pull :: steps)

/-- No step delivers the end of input. -/
theorem Tiles.kind_ne_eof {before text : UnitText} {ts : List Token} {more : List Pull}
    (h : Tiles before text (ts.map .ok ++ more)) : ∀ t ∈ ts, t.kind ≠ .eof := by
  induction ts generalizing before text with
  | nil => exact List.forall_mem_nil _
  | cons t ts ih =>
    cases h with
    | step hg ht hk hv hp h =>
      refine List.forall_mem_cons.mpr ⟨?_, ih h⟩
      obtain ht | ⟨d, ht⟩ := ht <;> cases ht
      exact hk

namespace Cursor

/-- While text is left behind trivia, a pull takes the text of a token off it. -/
theorem exists_token {c : Cursor} (h : c.skipTrivia.rest ≠ []) :
    ∃ t : Token, c.next.1.Shows t ∧ t.kind ≠ .eof ∧ t.value ≠ [] ∧ t.pos = c.skipTrivia.pos ∧
      c.skipTrivia.rest = t.value ++ c.next.2.rest ∧
      c.next.2.pos = c.skipTrivia.pos.advance t.value := by
  obtain ⟨u, us, hc⟩ := List.exists_cons_of_ne_nil h
  have hn : c.next = c.skipTrivia.take := rfl
  simp only [take, hc] at hn
  have hl := Lexeme.length_pos u us
  refine ⟨c.skipTrivia.token (Lexeme.read u us), ?_, Lexeme.kind_read u us, ?_, rfl, ?_, ?_⟩
  · rw [hn]
    cases (Lexeme.read u us).fault with
    | none => exact .inl rfl
    | some d => exact .inr ⟨d, rfl⟩
  · rw [token, hc, ne_eq, List.take_eq_nil_iff]
    rintro (h | h)
    · omega
    · cases h
  · rw [hn]
    exact (List.take_append_drop _ _).symm
  · rw [hn]
    rfl

theorem tiles_pulls (c : Cursor) (before : UnitText) (hb : c.pos = .behind before) :
    Tiles before c.rest c.pulls.1 ∧ c.pulls.1.length ≤ c.rest.length ∧
      c.pulls.2 = ⟨.eof, [], .behind (before ++ c.rest)⟩ := by
  have hrest : c.rest.take (triviaLength false c.rest) ++ c.skipTrivia.rest = c.rest :=
    List.take_append_drop _ _
  have hgap : Trivia c.skipTrivia.rest (c.rest.take (triviaLength false c.rest)) :=
    (trivia_take c.rest).1
  have hpos : c.skipTrivia.pos = .behind (before ++ c.rest.take (triviaLength false c.rest)) := by
    rw [skipTrivia, skip, hb, Position.advance_behind]
  generalize c.rest.take (triviaLength false c.rest) = gap at hrest hgap hpos
  rw [pulls]
  split
  · next h =>
    rw [h] at hgap
    rw [h, List.append_nil] at hrest
    rw [← hrest]
    exact ⟨.last hgap, Nat.zero_le _, by rw [endToken, hpos]⟩
  · next h =>
    obtain ⟨t, ht, hk, hv, hp, hr, hn⟩ := exists_token h
    rw [hpos, Position.advance_behind] at hn
    have hlt := next_length_lt h
    obtain ⟨htiles, hlen, hlast⟩ := tiles_pulls c.next.2 _ hn
    rw [hr] at hrest hgap
    rw [← List.append_assoc] at hrest
    refine ⟨?_, Nat.lt_of_le_of_lt hlen hlt, ?_⟩
    · rw [← hrest]
      exact .step hgap ht hk hv (hp.trans hpos) htiles
    · rw [hlast, ← hrest]
      simp only [List.append_assoc]
termination_by c.rest.length

end Cursor

/-! ## Any number of pulls -/

/-- Behind the last of its pulls, a source delivers its end token again and again. -/
theorem TokenSource.pull_eq (s : TokenSource) (n : Nat) :
    s.pull n = s.pulls.take n ++ List.replicate (n - s.pulls.length) (.ok s.last) := by
  induction n generalizing s with
  | zero => simp [pull]
  | succ n ih =>
    obtain ⟨_ | ⟨pull, pulls⟩, last⟩ := s
    · rw [TokenSource.pull, ih]
      simp [next, peek, List.replicate_succ]
    · rw [TokenSource.pull, ih]
      simp [next, peek]

theorem Cursor.pull_pulls (c : Cursor) (n : Nat) :
    (TokenSource.mk c.pulls.1 c.pulls.2).pull n = c.pull n := by
  induction n generalizing c with
  | zero => rfl
  | succ n ih =>
    rw [pull, TokenSource.pull, ← ih]
    by_cases h : c.skipTrivia.rest = []
    · -- the end token is delivered where it stands, and stays there
      have hn : c.next = (.ok c.skipTrivia.endToken, c.skipTrivia) := by
        rw [next, take, h]
      have hs : c.skipTrivia.skipTrivia = c.skipTrivia := by
        rw [skipTrivia, h]
        exact skip_zero _
      rw [hn, pulls_congr hs, pulls, dif_pos h]
      rfl
    · rw [pulls.eq_1 c, dif_neg h]
      rfl

/-- A text delivers what its scanning delivers. -/
theorem TokenSource.pull_ofText (source : UnitText) (n : Nat) :
    (ofText source).pull n = (Cursor.start source).pull n := Cursor.pull_pulls _ n

/-! ## A whole text -/

/-- **Scanning tiles the text.** The text is trivia and the texts of the steps' tokens in turn, each token
at its place. There are at most as many steps as units, and behind them every pull delivers the end
token, which stands at the end of the text. `lex` gives the steps and the end token, or the first
error among the steps. -/
theorem exists_tiles (source : UnitText) :
    ∃ steps : List Pull, Tiles [] source steps ∧ steps.length ≤ source.length ∧
      (∀ n, (Cursor.start source).pull n =
        steps.take n ++ List.replicate (n - steps.length) (.ok ⟨.eof, [], .behind source⟩)) ∧
      (∀ tokens : List Token, steps = tokens.map .ok →
        lex source = .ok (tokens ++ [⟨.eof, [], .behind source⟩])) ∧
      ∀ (tokens : List Token) (e : CompileError) (more : List Pull),
        steps = tokens.map .ok ++ .error e :: more → lex source = .error e := by
  obtain ⟨htiles, hlen, hlast⟩ := Cursor.tiles_pulls (.start source) [] rfl
  refine ⟨_, htiles, hlen, fun n => ?_, fun tokens h => ?_, fun tokens e more h => ?_⟩
  · rw [← Cursor.pull_pulls, TokenSource.pull_eq, hlast]
    rfl
  · exact lex_eq_ok.mpr ⟨tokens, _, Prod.ext h hlast, rfl⟩
  · exact lex_eq_error h

end IntLang
