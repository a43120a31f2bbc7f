import IntLang.Proofs.Compilation.Session
import IntLang.Proofs.Scanning.Layout
import IntLang.Proofs.Text.Control

/-!
# Messages of one line

A message quotes tokens and names of the source. No token reaches over a line feed, so whatever the
source holds, the message about its first error stands on one line.

* `Cursor.notMem_value`: no pull of a text shows a token with a line feed in it;
* `lacks_message_of_shown`: a message holds no control character that no token holds;
* **`notMem_message_of_compile`**: nor does a message.
-/

namespace IntLang

open CodeUnit
open TokenSource (peek)

/-! ## Tokens -/

theorem Lexeme.notMem_take {u : CodeUnit} (hu : u ≠ unit '\n') (us : UnitText) :
    unit '\n' ∉ (u :: us).take (read u us).length := by
  by_cases hm : unit '\n' ∈ us
  -- what stands behind the first line feed has no say
  · obtain ⟨front, rest, rfl, hf⟩ := List.eq_append_cons_of_mem hm
    have hl := length_read_le u front
    rw [read_lineFeed, ← List.cons_append, List.take_append_of_le_length hl]
    exact fun h => (List.not_mem_cons_of_ne_of_not_mem hu.symm hf) (List.mem_of_mem_take h)
  · exact fun h => (List.not_mem_cons_of_ne_of_not_mem hu.symm hm) (List.mem_of_mem_take h)

namespace Cursor

variable {c : Cursor} {t : Token}

/-- Trivia ends in front of something else. -/
theorem ne_lineFeed {u : CodeUnit} {us : UnitText} (h : c.skipTrivia.rest = u :: us) :
    u ≠ unit '\n' := by
  rintro rfl
  have bare := (triviaLength_drop c.rest).1
  rw [show c.rest.drop (triviaLength false c.rest) = unit '\n' :: us from h] at bare
  cases bare

theorem notMem_next (h : c.skipTrivia.rest ≠ []) (ht : c.next.1.Shows t) : unit '\n' ∉ t.value := by
  obtain ⟨u, us, hc⟩ := List.exists_cons_of_ne_nil h
  have token : t = c.skipTrivia.token (Lexeme.read u us) := by
    have hn : c.next = c.skipTrivia.take := rfl
    rw [hn, take, hc] at ht
    dsimp only at ht
    cases hf : (Lexeme.read u us).fault with
    | none =>
      rw [hf] at ht
      obtain ht | ⟨d, ht⟩ := ht <;> cases ht
      rfl
    | some d =>
      rw [hf] at ht
      obtain ht | ⟨d, ht⟩ := ht <;> cases ht
      rfl
  rw [token, Cursor.token, hc]
  exact Lexeme.notMem_take (ne_lineFeed hc) us

/-- **No pull of a text shows a token that reaches over a line feed.** -/
theorem notMem_value (c : Cursor) : ∀ pull ∈ c.pulls.1, pull.Shows t → unit '\n' ∉ t.value := by
  rw [pulls]
  split
  · exact List.forall_mem_nil _
  · next h =>
    have hlt := next_length_lt h
    exact List.forall_mem_cons.mpr ⟨notMem_next h, notMem_value c.next.2⟩
termination_by c.rest.length

end Cursor

/-! ## Messages -/

namespace CompileError

open Text (IsControl Lacks Printable)

theorem printable_spelling (kind : TokenKind) : Printable kind.spelling := by
  cases kind <;> decide

theorem printable_detail (d : Detail) : Printable d.text := by
  cases d with
  | expected kind =>
    rw [Detail.text, Printable, String.toList_append, List.forall_mem_append]
    exact ⟨(by decide +kernel : Printable "expected "), printable_spelling kind⟩
  | _ => decide

variable {x : Char} {t : Token} {s s' : Scope} {name : UnitText} {e : CompileError}

theorem lacks_found (hx : IsControl x) (h : unit x ∉ t.value) : Lacks x (found t) := by
  have text : Lacks x t.text := Text.lacks_ofUnits hx h
  unfold found
  split
  · exact hx.lacks (by decide +kernel)
  · exact text
  · exact hx.quoted text (by decide +kernel) (by decide +kernel)

theorem lacks_unexpected (hx : IsControl x) (h : unit x ∉ t.value) (d : Option Detail) :
    Lacks x (unexpected t d).message := by
  have place : Lacks x ("Parse error: unexpected " ++ found t ++ " at line " ++ toString t.pos.line ++
      ", col " ++ toString t.pos.col) :=
    (((((hx.lacks (by decide +kernel)).append (lacks_found hx h)).append (hx.lacks (by decide +kernel))).append
      (hx.lacks (Text.printable_int _))).append (hx.lacks (by decide +kernel))).append
      (hx.lacks (Text.printable_int _))
  unfold message
  cases d with
  | none => exact place.append (hx.lacks (by decide +kernel))
  | some d => exact place.append ((hx.lacks (by decide +kernel)).append (hx.lacks (printable_detail d)))

/-- A name that is refused is declared twice or not at all. -/
theorem of_apply_error {event : NameEvent} (hn : event = .declares name ∨ event = .uses name)
    (he : Scope.apply s event = .error e) : e = .duplicate name ∨ e = .undeclared name := by
  obtain rfl | rfl := hn
  · rw [Scope.apply, Scope.declare] at he
    split at he
    · exact .inl (Except.error.inj he).symm
    · cases he
  · rw [Scope.apply, Scope.require] at he
    split at he
    · cases he
    · exact .inr (Except.error.inj he).symm

/-- A message about a name quotes it. -/
theorem lacks_name (hx : IsControl x) {event : NameEvent}
    (hn : event = .declares name ∨ event = .uses name) (h : unit x ∉ name)
    (he : Scope.apply s event = .error e) : Lacks x e.message := by
  have shown : Lacks x (Text.ofUnits name) := Text.lacks_ofUnits hx h
  obtain rfl | rfl := of_apply_error hn he
  · exact hx.quoted shown (by decide +kernel) (by decide +kernel)
  · exact hx.quoted shown (by decide +kernel) (by decide +kernel)

end CompileError

/-! ## Sources -/

variable {us : UnitText} {scope scope' : Scope} {e : CompileError}

/-- Every pull of a text shows a token. -/
theorem Tiles.shows {before text : UnitText} {steps : List Pull} (h : Tiles before text steps) :
    ∀ pull ∈ steps, ∃ t, pull.Shows t := by
  induction h with
  | last => exact List.forall_mem_nil _
  | step hg ht hk hv hp h ih => exact List.forall_mem_cons.mpr ⟨⟨_, ht⟩, ih⟩

/-- The words of a source are shown by its pulls. -/
theorem notMem_word_of_shown {x : Char} {ts : List Token} {rest : List Pull}
    (shown : ∀ pull ∈ (Cursor.start us).pulls.1, ∀ t, pull.Shows t → unit x ∉ t.value)
    (hp : (Cursor.start us).pulls.1 = ts.map .ok ++ rest) :
    ∀ w ∈ ts.map Token.word, unit x ∉ w.value := by
  intro w hw
  obtain ⟨t, ht, rfl⟩ := List.mem_map.mp hw
  refine shown (.ok t) ?_ t (.inl rfl)
  rw [hp]
  exact List.mem_append_left _ (List.mem_map_of_mem ht)

/-- **A message shows nothing but tokens and wording.** What no token of a source holds is not in the
message about its first error. -/
theorem lacks_message_of_shown {x : Char} (hx : Text.IsControl x)
    (shown : ∀ pull ∈ (Cursor.start us).pulls.1, ∀ t, pull.Shows t → unit x ∉ t.value)
    (h : parse (.ofText us) scope = (.error e, scope')) : Text.Lacks x e.message := by
  obtain ⟨ts, rest, hp, -, hstuck⟩ := stopped_of_parse h
  obtain ⟨htiles, -, hlast⟩ := Cursor.tiles_pulls (.start us) [] rfl
  have hp : (Cursor.start us).pulls.1 = ts.map .ok ++ rest := hp
  have hlast : (TokenSource.ofText us).last.value = [] := congrArg Token.value hlast
  have word := notMem_word_of_shown shown hp
  generalize ts.map Token.word = ws at hstuck word
  cases hstuck with
  | fault he =>
    cases rest with
    | nil => cases he
    | cons pull rest =>
      have hm : pull ∈ (Cursor.start us).pulls.1 := by simp [hp]
      obtain ⟨t, ht⟩ := htiles.shows pull hm
      have value := shown pull hm t ht
      obtain rfl : pull = .error e := he
      obtain ht | ⟨d, ht⟩ := ht <;> cases ht
      exact CompileError.lacks_unexpected hx value (some d)
  | unexpected ht =>
    refine CompileError.lacks_unexpected hx ?_ _
    cases rest with
    | nil =>
      obtain rfl := Except.ok.inj ht
      simp [hlast]
    | cons pull rest => exact shown pull (by simp [hp]) _ (.inl ht)
  | uses hn hv he => exact CompileError.lacks_name hx (.inr rfl) (word _ (by simp)) he
  | declares hw hn hv hz he => exact CompileError.lacks_name hx (.inl rfl) (word _ (by simp)) he

/-- **The message about the first error of a source stands on one line**, whatever the source holds. -/
theorem notMem_message_of_compile {source : UnitText} {scope : Scope} {e : CompileError}
    (h : (compile source scope).1 = .error (.source e)) : '\n' ∉ e.message.toList :=
  lacks_message_of_shown Text.isControl_lineFeed (fun pull hm _ => Cursor.notMem_value _ pull hm)
    (parse_of_compile_error (Prod.ext h rfl))

end IntLang
