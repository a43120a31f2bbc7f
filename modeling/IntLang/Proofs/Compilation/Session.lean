import IntLang.Proofs.CUnit.Misplaced
import IntLang.Proofs.Compilation.Accepted
import IntLang.Proofs.Names.SinglePass
import IntLang.Proofs.Syntax.Failure
import IntLang.Proofs.Syntax.Front
import IntLang.Proofs.Syntax.Places

/-!
# Sessions

The sources of a session share one scope, to which each of them appends its names. Sources that are
accepted one after another may as well be compiled in one go, with line feeds between them.

* `Extends`: what a step does to the names;
* `exists_scans_joined`: the words of the joined sources, in the order of the steps;
* `refused_joined`: the last source may be refused for a name;
* **`session_laws`**: the steps of a session, and one compilation in their place.
-/

namespace IntLang

open CUnit (mainLines)

/-! ## Steps -/

/-- The scope behind a session. -/
def behind (sources : List UnitText) (scope : Scope) : Scope :=
  sources.foldl (fun s source => (compile source s).2) scope

/-- What a step does to the names: it appends those of its program, or where it fails, those of the
declarations that are complete in the tokens taken by then. If the syntax is not to blame, a walk of the
program is refused with the same names. -/
inductive Extends (source : TokenSource) (s s' : Scope) : Except CompileFailure Compilation → Prop
  | accepted {c : Compilation} (h : s'.names = s.names ++ Program.declares c.program) :
    Extends source s s' (.ok c)
  | stopped {e : CompileError} (ts : List Token) (rest : List Pull)
    (hp : source.pulls = ts.map .ok ++ rest)
    (hn : s'.names = s.names ++ declarations (ts.map Token.word))
    (h : Stuck Scope.apply source.last s' rest (ts.map Token.word) e)
    (hw : ∀ program : Program, source.read = .ok program → program.walk s = (some e, s')) :
    Extends source s s' (.error (.source e))

theorem parse_of_compile_error {source : UnitText} {scope scope' : Scope} {e : CompileError}
    (h : compile source scope = (.error (.source e), scope')) :
    parse (.ofText source) scope = (.error e, scope') := by
  unfold compile at h
  split at h
  · next program s hp =>
    have hc := (Prod.mk.inj h).1
    unfold Compilation.ofProgram at hc
    split at hc <;> cases hc
  · next e' s hp =>
    cases h
    exact hp

theorem compile_of_parse {source code : UnitText} {scope scope' : Scope} {program : Program}
    (hp : parse (.ofText source) scope = (.ok program, scope'))
    (hcode : CUnit.ofProgram program = .ok code) :
    compile source scope = (.ok ⟨program, scope'.names, program.draw, code⟩, scope') := by
  rw [compile, hp]
  simp only [Compilation.ofProgram, hcode]

theorem extends_compile (source : UnitText) (scope : Scope) :
    Extends (.ofText source) scope (compile source scope).2 (compile source scope).1 := by
  obtain ⟨c, hc⟩ | ⟨e, he⟩ := compile_ends source scope
  · have h : compile source scope = (.ok c, (compile source scope).2) := Prod.ext hc rfl
    obtain ⟨-, hsym, -⟩ := exists_program_of_compile h
    rw [hc]
    exact .accepted (hsym.symm.trans (sound_of_compile h).symbols)
  · have hp := parse_of_compile_error (Prod.ext he rfl)
    obtain ⟨ts, rest, hpulls, hn, hstuck⟩ := stopped_of_parse hp
    rw [he]
    refine .stopped ts rest hpulls hn hstuck fun program hread => ?_
    rw [parse_of_read hread] at hp
    split at hp
    · cases hp
    · next refusal s hw =>
      cases hp
      exact hw

theorem session_append (sources more : List UnitText) (scope : Scope) :
    session (sources ++ more) scope = session sources scope ++ session more (behind sources scope) := by
  induction sources generalizing scope with
  | nil => rfl
  | cons source sources ih =>
    rw [List.cons_append, session, session, ih]
    rfl

/-! ## Joined sources -/

/-- Sources with line feeds between them. -/
abbrev joined (sources : List UnitText) : UnitText := [unit '\n'].intercalate sources

theorem joined_singleton (source : UnitText) : joined [source] = source := List.intercalate_singleton

theorem joined_cons (source next : UnitText) (more : List UnitText) :
    joined (source :: next :: more) = source ++ unit '\n' :: joined (next :: more) := by
  rw [joined, List.intercalate_cons_cons, List.append_assoc]
  rfl

theorem joined_concat {sources : List UnitText} (h : sources ≠ []) (source : UnitText) :
    joined (sources ++ [source]) = joined sources ++ unit '\n' :: source := by
  induction sources with
  | nil => exact absurd rfl h
  | cons first sources ih =>
    cases sources with
    | nil => rw [List.singleton_append, joined_cons, joined_singleton, joined_singleton]
    | cons next more =>
      rw [List.cons_append, List.cons_append, joined_cons, ← List.cons_append,
        ih (List.cons_ne_nil next more), joined_cons, List.append_assoc, List.cons_append]

/-- **Accepted sources, joined, are the words of their programs in a row.** -/
theorem exists_scans_joined : ∀ {sources : List UnitText} {scope : Scope} {cs : List Compilation},
    (session sources scope).map Prod.fst = cs.map .ok →
      ∃ ws, Scans (joined sources) ws ∧
        MakesProgram ws (cs.flatMap Compilation.program) ∧
        Program.walk (cs.flatMap Compilation.program) scope = (none, behind sources scope)
  | [], scope, cs, h => by
    obtain rfl := List.map_eq_nil_iff.mp h.symm
    exact ⟨[], .nil, .nil, rfl⟩
  | source :: sources, scope, cs, h => by
    obtain ⟨c, cs, rfl, hc, hcs⟩ := List.map_eq_cons_iff.mp h.symm
    obtain ⟨hp, -, -⟩ := exists_program_of_compile (Prod.ext hc.symm rfl)
    obtain ⟨ws, hscans, hm, hw⟩ := exists_scans_of_parse hp
    obtain ⟨ws', hscans', hm', hw'⟩ := exists_scans_joined hcs.symm
    refine ⟨ws ++ ws', ?_, hm.append hm', ?_⟩
    · cases sources with
      | nil =>
        obtain rfl := List.map_eq_nil_iff.mp hcs
        cases hm'
        rw [List.append_nil, joined_singleton]
        exact hscans
      | cons next more =>
        rw [joined_cons]
        exact hscans.lineFeed hscans'
    · rw [List.flatMap_cons, Program.walk, Program.events_append]
      exact NameCheck.replay_append_none.mpr ⟨_, hw, hw'⟩

/-! ## Lines -/

/-- The lines of a program that is read are those between head and return of its unit. -/
theorem exists_lines_of_parse {source : UnitText} {scope scope' : Scope} {program : Program}
    {lines : List UnitText}
    (h : parse (.ofText source) scope = (.ok program, scope'))
    (hl : CUnit.body program = .ok lines) :
    CUnit.ofProgram program = .ok (CUnit.text (CUnit.frame lines)) ∧
      mainLines (CUnit.text (CUnit.frame lines)) = lines.map CUnit.indent := by
  obtain ⟨lines', hl', hspell⟩ := CUnit.spells_body (wellFormed_of_parse h).1
  obtain rfl := Except.ok.inj (hl.symm.trans hl')
  refine ⟨?_, CUnit.mainLines_text_frame (CUnit.noFeed_of_forall₂ hspell)⟩
  rw [CUnit.ofProgram, hl]
  rfl

theorem mainLines_of_compile {source : UnitText} {scope scope' : Scope} {c : Compilation}
    (h : compile source scope = (.ok c, scope')) :
    ∃ lines, CUnit.body c.program = .ok lines ∧ mainLines c.code = lines.map CUnit.indent := by
  obtain ⟨hp, -, -, hcode⟩ := exists_program_of_compile h
  obtain ⟨lines, hl, -⟩ := CUnit.spells_body (wellFormed_of_parse hp).1
  obtain ⟨hc, hm⟩ := exists_lines_of_parse hp hl
  obtain hc := Except.ok.inj (hcode.symm.trans hc)
  exact ⟨lines, hl, hc ▸ hm⟩

theorem exists_lines_of_session {sources : List UnitText} {scope : Scope} {cs : List Compilation}
    (h : (session sources scope).map Prod.fst = cs.map .ok) :
    ∃ lines, CUnit.body (cs.flatMap Compilation.program) = .ok lines ∧
      cs.flatMap (fun c => mainLines c.code) = lines.map CUnit.indent := by
  induction sources generalizing scope cs with
  | nil =>
    obtain rfl := List.map_eq_nil_iff.mp h.symm
    exact ⟨[], rfl, rfl⟩
  | cons source sources ih =>
    obtain ⟨c, cs, rfl, hc, hcs⟩ := List.map_eq_cons_iff.mp h.symm
    obtain ⟨lines, hl, hm⟩ := mainLines_of_compile (Prod.ext hc.symm rfl)
    obtain ⟨lines', hl', hm'⟩ := ih hcs.symm
    refine ⟨lines ++ lines', ?_, ?_⟩
    · rw [List.flatMap_cons, CUnit.body_append, hl, hl']
      rfl
    · rw [List.flatMap_cons, hm, hm', List.map_append]

/-! ## One compilation in place of many -/

/-- Accepted sources are accepted joined. -/
theorem accepted_joined {sources : List UnitText} {scope : Scope} {cs : List Compilation}
    (h : (session sources scope).map Prod.fst = cs.map .ok) :
    ∃ c, compile (joined sources) scope = (.ok c, behind sources scope) ∧
      c.program = cs.flatMap Compilation.program ∧ c.symbols = (behind sources scope).names ∧
      mainLines c.code = cs.flatMap fun c => mainLines c.code := by
  obtain ⟨ws, hscans, hm, hw⟩ := exists_scans_joined h
  obtain ⟨lines, hl, hlines⟩ := exists_lines_of_session h
  have hp := parse_of_scans hscans hm hw
  obtain ⟨hcode, hmain⟩ := exists_lines_of_parse hp hl
  exact ⟨_, compile_of_parse hp hcode, rfl, rfl, hmain.trans hlines.symm⟩

/-- A text's lexical errors are about its tokens. -/
theorem Tiles.unexpected {before text : UnitText} {steps : List Pull} (h : Tiles before text steps) :
    ∀ e, .error e ∈ steps → ∃ t d, e = .unexpected t d := by
  induction h with
  | last => simp
  | step hg ht hk hv hp h ih =>
    intro e he
    obtain rfl | he := List.mem_cons.mp he
    · obtain ht | ⟨d, ht⟩ := ht <;> cases ht
      exact ⟨_, _, rfl⟩
    · exact ih e he

theorem Parse.NoElse.alike {last last' : Token} {pulls pulls' : List Pull}
    (hl : last.word = last'.word) (h : Pulls.Alike pulls pulls') (hn : NoElse last pulls) :
    NoElse last' pulls' := by
  obtain ⟨t, ht, hk⟩ := hn
  have ha := h.peek hl
  rw [ht] at ha
  rcases hp : TokenSource.peek last' pulls' with e | t'
  · rw [hp] at ha
    cases ha
  · rw [hp] at ha
    cases ha with
    | token hw => exact ⟨t', hp, Token.kind_eq_of_word hw ▸ hk⟩

theorem parse_eq_error {source : TokenSource} {scope scope' : Scope} {e : CompileError} :
    parse source scope = (.error e, scope') ↔
      (Parse.program Scope.apply source.last source.pulls).Fails scope e scope' := by
  unfold parse Reading.Fails
  rcases Parse.program Scope.apply source.last source.pulls scope with ⟨s, e₁ | ⟨a, rest⟩⟩
  · simp [Except.map, and_comm]
  · simp [Except.map]

/-- A text that is refused for a name is refused for it behind any program, in the scope which that
leaves. -/
theorem parse_lineFeed_of_refused {us vs : UnitText} {ws : List Word} {nodes : Program}
    {s s₁ s' : Scope} {e : CompileError} (hu : Scans us ws) (hm : MakesProgram ws nodes)
    (hw : nodes.walk s = (none, s₁)) (he : ∀ t d, e ≠ .unexpected t d)
    (h : parse (.ofText vs) s₁ = (.error e, s')) :
    parse (.ofText (us ++ unit '\n' :: vs)) s = (.error e, s') := by
  obtain ⟨ts, source, htext, rfl, ha, hl⟩ := hu.pulls_lineFeed vs
  obtain ⟨htiles, -, -⟩ := Cursor.tiles_pulls (.start vs) [] rfl
  have hn := Parse.noElse_of_refused htiles.unexpected he (parse_eq_error.mp h)
  obtain ⟨hout, hscope⟩ := parse_alike hl ha s₁
  have hsame : parse source s₁ = (.error e, s') := by
    rw [h] at hout hscope
    refine Prod.ext ?_ hscope.symm
    -- a refused name is the same error wherever it stands
    generalize (parse source s₁).1 = outcome at hout
    cases hout with
    | error h =>
      cases h with
      | unexpected _ d => exact absurd rfl (he _ d)
      | duplicate | undeclared => rfl
  rw [htext]
  exact parse_eq_error.mpr
    (Parse.fails_behind hm hw (hn.alike hl ha) (parse_eq_error.mp hsame))

/-- Sources of which the last one is refused for a name are refused for it joined. -/
theorem refused_joined {sources : List UnitText} {scope : Scope} {cs : List Compilation}
    {e : CompileError} (he : ∀ t d, e ≠ .unexpected t d)
    (h : (session sources scope).map Prod.fst = cs.map .ok ++ [.error (.source e)]) :
    compile (joined sources) scope = (.error (.source e), behind sources scope) := by
  obtain rfl | ⟨front, source, rfl⟩ := List.eq_nil_or_concat sources
  · exact absurd h.symm (by simp [session])
  rw [List.concat_eq_append] at h ⊢
  rw [session_append, List.map_append] at h
  obtain ⟨hfront, hlast⟩ := List.append_inj' h rfl
  have hp := parse_of_compile_error (Prod.ext (List.cons.inj hlast).1 rfl)
  rw [behind, List.foldl_append]
  suffices hj : parse (.ofText (joined (front ++ [source]))) scope =
      (.error e, (compile source (behind front scope)).2) by
    rw [compile, hj]
    rfl
  by_cases hne : front = []
  · subst hne
    rw [List.nil_append, joined_singleton]
    exact hp
  · obtain ⟨ws, hscans, hm, hw⟩ := exists_scans_joined hfront
    rw [joined_concat hne]
    exact parse_lineFeed_of_refused hscans hm hw he hp

/-- **Sessions.** Every step starts from the scope that the steps before it left, and appends to it the
names of its program, or where it fails, those of the declarations complete by then; no name is there
twice. If all sources are accepted, so are they joined by line feeds: with their statements and lines
one after the other, and with the names of the session. If only the last one fails, and it is refused
for a name, they are refused joined, for the same name and with the same names left. -/
theorem session_laws (sources : List UnitText) (scope : Scope) :
    (∀ front source more, sources = front ++ source :: more →
      let known := behind front scope
      let step := compile source known
      session sources scope = session front scope ++ step :: session more step.2 ∧
        Extends (.ofText source) known step.2 step.1 ∧ step.2.names.Nodup) ∧
    (∀ cs : List Compilation, (session sources scope).map Prod.fst = cs.map .ok →
      ∃ c, compile (joined sources) scope = (.ok c, behind sources scope) ∧
        c.program = cs.flatMap Compilation.program ∧ c.symbols = (behind sources scope).names ∧
        mainLines c.code = cs.flatMap fun c => mainLines c.code) ∧
    ∀ (cs : List Compilation) (e : CompileError),
      (∃ name, e = .duplicate name ∨ e = .undeclared name) →
      (session sources scope).map Prod.fst = cs.map .ok ++ [.error (.source e)] →
        compile (joined sources) scope = (.error (.source e), behind sources scope) := by
  refine ⟨?_, fun cs h => accepted_joined h, ?_⟩
  · rintro front source more rfl
    exact ⟨session_append front (source :: more) scope, extends_compile _ _, Scope.nodup _⟩
  · rintro cs e ⟨name, he⟩ h
    refine refused_joined ?_ h
    rintro t d rfl
    simp at he

end IntLang
