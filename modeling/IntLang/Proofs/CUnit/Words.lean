import Mathlib.Data.List.Forall2
import IntLang.Proofs.CUnit.Lines
import IntLang.Proofs.CUnit.Names
import IntLang.Proofs.Syntax.WellFormed

/-!
# The words of C text

The text of a well-formed program in C scans to words that are plain to see in its tree. Once the
calls of `printf` are turned back, each line scans to its own words.

* `expressionWords`, `statementWords`, `bodyWords`: the words, line by line;
* `Spells`, `LineSpells`: a text scans to words, whatever follows it;
* **`spells_body`**: the lines of statements scan to their words.
-/

namespace IntLang.CUnit

/-! ## Words -/

def word (kind : TokenKind) (text : UnitText) : Word := ⟨kind, text⟩

@[simp] theorem kind_word (kind : TokenKind) (text : UnitText) : (word kind text).kind = kind := rfl

@[simp] theorem value_word (kind : TokenKind) (text : UnitText) : (word kind text).value = text := rfl

def expressionWords : Node → List Word
  | .number value => [word .number (toString value)]
  | .var name => [word .ident (cName name)]
  | .assign name value =>
    word .lparen "(" :: word .ident (cName name) :: word .assign "=" ::
      (expressionWords value ++ [word .rparen ")"])
  | .negate operand =>
    word .lparen "(" :: word .minus "-" :: (expressionWords operand ++ [word .rparen ")"])
  | .binary op left right =>
    word .lparen "(" :: (expressionWords left ++ word op.kind op.text ::
      (expressionWords right ++ [word .rparen ")"]))
  | _ => []

/-- The words that open the block of a condition. -/
def openingWords (condition : Node) : List Word :=
  word .ifWord "if" :: word .lparen "(" ::
    (expressionWords condition ++ [word .rparen ")", word .lbrace "\x7b"])

mutual

def statementWords : Node → List (List Word)
  | .declare name none => [[word .int "int", word .ident (cName name), word .semi ";"]]
  | .declare name (some initial) =>
    [word .int "int" :: word .ident (cName name) :: word .assign "=" ::
      (expressionWords initial ++ [word .semi ";"])]
  | .print value =>
    [word .print "print" :: word .lparen "(" ::
      (expressionWords value ++ [word .rparen ")", word .semi ";"])]
  | .printText text =>
    [[word .print "print", word .lparen "(", word .string text, word .rparen ")", word .semi ";"]]
  | .branch condition yes none =>
    openingWords condition :: bodyWords yes ++ [[word .rbrace "\x7d"]]
  | .branch condition yes (some no) =>
    openingWords condition :: bodyWords yes ++
      [word .rbrace "\x7d", word .elseWord "else", word .lbrace "\x7b"] :: bodyWords no ++
      [[word .rbrace "\x7d"]]
  | e => [expressionWords e ++ [word .semi ";"]]

def bodyWords : List Node → List (List Word)
  | [] => []
  | node :: nodes => statementWords node ++ bodyWords nodes

end

/-! ## Expressions -/

/-- The text is of one line and scans to the words in front of anything that does not go on with its
last word. -/
structure Spells (text : UnitText) (ws : List Word) : Prop where
  noFeed : unit '\n' ∉ text
  scans {vs : UnitText} {us : List Word} (hv : Apart vs) (h : Scans vs us) :
    Scans (text ++ vs) (ws ++ us)

theorem spells_name {name : UnitText} (h : IsIdentifier name) :
    Spells (cName name) [word .ident (cName name)] where
  noFeed := notMem_of_isIdentifier (isIdentifier_cName h) (by decide)
  scans hv hs := hs.identifier (isIdentifier_cName h) hv

theorem notMem_quoted {u : CodeUnit} {front us back : UnitText} (hf : u ∉ front) (h : u ∉ us)
    (hb : u ∉ back) : u ∉ front ++ us ++ back :=
  List.not_mem_append (List.not_mem_append hf h) hb

theorem spells_number {n : Nat} (hn : n ≤ maxNumber) :
    Spells (toString (n : Int)) [word .number (toString (n : Int))] where
  noFeed := Text.notMem_units_toString (by decide) n
  scans hv hs := hs.number hn hv

/-- A well-formed expression is written as its words. -/
theorem spells_expression {e : Node} (h : IsExpression e) :
    ∃ text, expression e = .ok text ∧ Spells text (expressionWords e) := by
  induction h with
  | number hn => exact ⟨_, rfl, spells_number hn⟩
  | var hn => exact ⟨_, rfl, spells_name hn⟩
  | assign hn _ ih =>
    obtain ⟨t, ht, hs⟩ := ih
    refine ⟨_, by rw [expression, ht]; rfl, ?_, fun {vs us} _ h => ?_⟩
    · exact notMem_quoted (notMem_quoted (by decide) (spells_name hn).noFeed (by decide)) hs.noFeed
        (by decide)
    · have h := hs.scans (apart_cons rfl) (h.symbol (u := unit ')') rfl rfl (by decide))
      have h := (spells_name hn).scans (apart_cons rfl)
        ((h.spaced (u := unit '=') rfl rfl).blank (u := unit ' ') rfl)
      simp only [List.append_assoc, expressionWords, List.cons_append]
      exact h.symbol (u := unit '(') rfl rfl (by decide)
  | negate _ ih =>
    obtain ⟨t, ht, hs⟩ := ih
    refine ⟨_, by rw [expression, ht]; rfl, ?_, fun {vs us} _ h => ?_⟩
    · exact notMem_quoted (by decide) hs.noFeed (by decide)
    · have h := hs.scans (apart_cons rfl) (h.symbol (u := unit ')') rfl rfl (by decide))
      have h := h.symbol (u := unit '-') rfl rfl (by decide)
      simp only [List.append_assoc, expressionWords, List.cons_append]
      exact h.symbol (u := unit '(') rfl rfl (by decide)
  | @binary op left right _ _ ihl ihr =>
    obtain ⟨l, hl, hsl⟩ := ihl
    obtain ⟨r, hr, hsr⟩ := ihr
    refine ⟨_, by rw [expression, hl, hr]; rfl, ?_, fun {vs us} _ h => ?_⟩
    · have sign : unit '\n' ∉ Text.units op.text := by cases op <;> decide
      exact notMem_quoted (notMem_quoted (notMem_quoted (by decide) hsl.noFeed (by decide)) sign
        (by decide)) hsr.noFeed (by decide)
    · have h := hsr.scans (apart_cons rfl) (h.symbol (u := unit ')') rfl rfl (by decide))
      have h := hsl.scans (apart_cons rfl) ((h.operator op).blank (u := unit ' ') rfl)
      simp only [List.append_assoc, expressionWords, List.cons_append]
      exact h.symbol (u := unit '(') rfl rfl (by decide)

/-! ## Lines -/

/-- The line scans to the words once its call is turned back. -/
structure LineSpells (line : UnitText) (ws : List Word) : Prop where
  noFeed : unit '\n' ∉ line
  scans {vs : UnitText} {us : List Word} (h : Scans vs us) :
    Scans (unprint line ++ unit '\n' :: vs) (ws ++ us)

theorem LineSpells.indent {line : UnitText} {ws : List Word} (h : LineSpells line ws) :
    LineSpells (indent line) ws where
  noFeed := List.not_mem_append (by decide) h.noFeed
  scans hv := by
    rw [unprint_indent, indent_eq]
    have h := ((h.scans hv).blank (u := unit ' ') rfl).blank (u := unit ' ') rfl
    exact (h.blank (u := unit ' ') rfl).blank (u := unit ' ') rfl

variable {name text : UnitText} {ws : List Word} {e : Node}

/-- The end of a line that is a whole statement. -/
theorem scans_semi {vs : UnitText} {us : List Word} (h : Scans vs us) :
    Scans (unit ';' :: unit '\n' :: vs) (word .semi ";" :: us) :=
  (h.blank (u := unit '\n') rfl).symbol (u := unit ';') rfl rfl (by decide)

theorem lineSpells_declare (hn : IsIdentifier name) :
    LineSpells ("int " ++ cName name ++ ";")
      [word .int "int", word .ident (cName name), word .semi ";"] where
  noFeed := notMem_quoted (by decide) (spells_name hn).noFeed (by decide)
  scans h := by
    have h := ((spells_name hn).scans (apart_cons rfl) (scans_semi h)).blank (u := unit ' ') rfl
    rw [unprint_of_head (u := unit 'i') rfl (by decide) (by decide)]
    simp only [List.append_assoc]
    exact h.keyword "int" .int (by simp) (apart_cons rfl)

theorem lineSpells_initial (hn : IsIdentifier name) (ht : Spells text ws) :
    LineSpells ("int " ++ cName name ++ " = " ++ text ++ ";")
      (word .int "int" :: word .ident (cName name) :: word .assign "=" :: (ws ++ [word .semi ";"])) where
  noFeed := notMem_quoted (notMem_quoted (by decide) (spells_name hn).noFeed (by decide)) ht.noFeed
    (by decide)
  scans h := by
    have h := (ht.scans (apart_cons rfl) (scans_semi h)).spaced (u := unit '=') rfl rfl
    have h := h.blank (u := unit ' ') rfl
    have h := ((spells_name hn).scans (apart_cons rfl) h).blank (u := unit ' ') rfl
    rw [unprint_of_head (u := unit 'i') rfl (by decide) (by decide)]
    simp only [List.append_assoc, List.cons_append]
    exact h.keyword "int" .int (by simp) (apart_cons rfl)

/-- What stands behind a call that is turned back. -/
theorem scans_print {vs : UnitText} {us : List Word} (ht : Spells text ws) (h : Scans vs us) :
    Scans ("print(" ++ (text ++ ");") ++ unit '\n' :: vs)
      (word .print "print" :: word .lparen "(" ::
        (ws ++ [word .rparen ")", word .semi ";"]) ++ us) := by
  have h := (scans_semi h).symbol (u := unit ')') rfl rfl (by decide)
  have h := ht.scans (apart_cons rfl) h
  have h := h.symbol (u := unit '(') rfl rfl (by decide)
  simp only [List.append_assoc, List.cons_append]
  exact h.keyword "print" .print (by simp) (apart_cons rfl)

theorem lineSpells_print (ht : Spells text ws) :
    LineSpells ("printf(\"%d\\n\", " ++ text ++ ");")
      (word .print "print" :: word .lparen "(" :: (ws ++ [word .rparen ")", word .semi ";"])) where
  noFeed := notMem_quoted (by decide) ht.noFeed (by decide)
  scans h := by
    rw [List.append_assoc, show Text.units "printf(\"%d\\n\", " = numberCall from rfl, unprint_numberCall]
    exact scans_print ht h

theorem spells_literal (ht : IsLiteral text) : Spells text [word .string text] where
  noFeed := notMem_of_isLiteral ht
  scans _ h := h.literal ht

theorem lineSpells_printText (ht : IsLiteral text) :
    LineSpells ("printf(\"%s\\n\", " ++ text ++ ");")
      [word .print "print", word .lparen "(", word .string text, word .rparen ")", word .semi ";"] where
  noFeed := notMem_quoted (by decide) (notMem_of_isLiteral ht) (by decide)
  scans h := by
    rw [List.append_assoc, show Text.units "printf(\"%s\\n\", " = textCall from rfl, unprint_textCall]
    exact scans_print (spells_literal ht) h

theorem lineSpells_opening (ht : Spells text (expressionWords e)) :
    LineSpells ("if (" ++ text ++ ") \x7b") (openingWords e) where
  noFeed := notMem_quoted (by decide) ht.noFeed (by decide)
  scans h := by
    have h := (h.blank (u := unit '\n') rfl).symbol (u := unit '{') rfl rfl (by decide)
    have h := (h.blank (u := unit ' ') rfl).symbol (u := unit ')') rfl rfl (by decide)
    have h := (ht.scans (apart_cons rfl) h).symbol (u := unit '(') rfl rfl (by decide)
    rw [unprint_of_head (u := unit 'i') rfl (by decide) (by decide)]
    simp only [List.append_assoc, openingWords, List.cons_append]
    exact (h.blank (u := unit ' ') rfl).keyword "if" .ifWord (by simp) (apart_cons rfl)

theorem lineSpells_closing : LineSpells "\x7d" [word .rbrace "\x7d"] where
  noFeed := by decide
  scans h := (h.blank (u := unit '\n') rfl).symbol (u := unit '}') rfl rfl (by decide)

theorem lineSpells_else :
    LineSpells "\x7d else \x7b" [word .rbrace "\x7d", word .elseWord "else", word .lbrace "\x7b"] where
  noFeed := by decide
  scans h := by
    have h := (h.blank (u := unit '\n') rfl).symbol (u := unit '{') rfl rfl (by decide)
    have h := (h.blank (u := unit ' ') rfl).keyword "else" .elseWord (by simp) (apart_cons rfl)
    have hl : unprint "\x7d else \x7b" = "\x7d" ++ (" " ++ ("else" ++ (" " ++ "\x7b"))) := by
      decide +kernel
    rw [hl]
    simp only [List.append_assoc]
    exact (h.blank (u := unit ' ') rfl).symbol (u := unit '}') rfl rfl (by decide)

theorem notMem_semi {u : CodeUnit} (h : u ∉ text) (hu : u ∉ Text.units ";") : u ∉ text ++ ";" :=
  List.not_mem_append h hu

/-- An expression that is a statement is no call. -/
theorem unprint_bare (h : IsExpression e) (ht : expression e = .ok text) :
    unprint (text ++ ";") = text ++ ";" := by
  cases h with
  | number hn =>
    cases ht
    exact unprint_of_notMem (notMem_semi (Text.notMem_units_toString (by decide) _) (by decide))
      (notMem_semi (Text.notMem_units_toString (by decide) _) (by decide))
  | var hn =>
    cases ht
    have hn := isIdentifier_cName hn
    exact unprint_of_notMem (notMem_semi (notMem_of_isIdentifier hn (by decide)) (by decide))
      (notMem_semi (notMem_of_isIdentifier hn (by decide)) (by decide))
  | assign _ hv =>
    obtain ⟨t, hv, -⟩ := spells_expression hv
    rw [expression, hv] at ht
    cases ht
    exact unprint_of_head (u := unit '(') rfl (by decide) (by decide)
  | negate hv =>
    obtain ⟨t, hv, -⟩ := spells_expression hv
    rw [expression, hv] at ht
    cases ht
    exact unprint_of_head (u := unit '(') rfl (by decide) (by decide)
  | binary hl hr =>
    obtain ⟨l, hl, -⟩ := spells_expression hl
    obtain ⟨r, hr, -⟩ := spells_expression hr
    rw [expression, hl, hr] at ht
    cases ht
    exact unprint_of_head (u := unit '(') rfl (by decide) (by decide)

theorem lineSpells_bare (h : IsExpression e) (he : expression e = .ok text)
    (ht : Spells text (expressionWords e)) :
    LineSpells (text ++ ";") (expressionWords e ++ [word .semi ";"]) where
  noFeed := List.not_mem_append ht.noFeed (by decide)
  scans hv := by
    rw [unprint_bare h he]
    simp only [List.append_assoc]
    exact ht.scans (apart_cons rfl) (scans_semi hv)

/-! ## Statements -/

theorem statement_bare (h : IsExpression e) (he : expression e = .ok text) :
    statement e = .ok [text ++ ";"] ∧ statementWords e = [expressionWords e ++ [word .semi ";"]] := by
  cases h <;> exact ⟨by simp only [statement, he]; rfl, rfl⟩

/-- The lines of a statement scan to its words. -/
def SpellsLines (lines : Except NoRule (List UnitText)) (ws : List (List Word)) : Prop :=
  ∃ ls, lines = .ok ls ∧ List.Forall₂ LineSpells ls ws

theorem forall₂_indent {ls : List UnitText} {ws : List (List Word)}
    (h : List.Forall₂ LineSpells ls ws) : List.Forall₂ LineSpells (ls.map indent) ws :=
  List.forall₂_map_left_iff.mpr (h.imp fun _ _ => LineSpells.indent)

/-- **The lines of statements scan to their words.** -/
theorem spells_body {nodes : List Node} (h : AreStatements nodes) :
    SpellsLines (body nodes) (bodyWords nodes) := by
  refine @AreStatements.rec (fun node _ => SpellsLines (statement node) (statementWords node))
    (fun nodes _ => SpellsLines (body nodes) (bodyWords nodes))
    ?declare ?initial ?print ?printText ?branch ?branchElse ?bare ?nil ?cons nodes h
  case declare =>
    intro name hn
    exact ⟨_, rfl, .cons (lineSpells_declare hn) .nil⟩
  case initial =>
    intro name value hn hv
    obtain ⟨t, ht, hs⟩ := spells_expression hv
    exact ⟨_, by rw [statement, ht]; rfl, .cons (lineSpells_initial hn hs) .nil⟩
  case print =>
    intro value hv
    obtain ⟨t, ht, hs⟩ := spells_expression hv
    exact ⟨_, by rw [statement, ht]; rfl, .cons (lineSpells_print hs) .nil⟩
  case printText =>
    intro text ht
    exact ⟨_, rfl, .cons (lineSpells_printText ht) .nil⟩
  case branch =>
    intro condition yes hc _ ihy
    obtain ⟨t, ht, hs⟩ := spells_expression hc
    obtain ⟨ls, hl, hls⟩ := ihy
    refine ⟨_, by rw [statement, ht, hl]; rfl, .cons (lineSpells_opening hs) ?_⟩
    exact List.rel_append (forall₂_indent hls) (.cons lineSpells_closing .nil)
  case branchElse =>
    intro condition yes no hc _ _ ihy ihn
    obtain ⟨t, ht, hs⟩ := spells_expression hc
    obtain ⟨ls, hl, hls⟩ := ihy
    obtain ⟨ls', hl', hls'⟩ := ihn
    refine ⟨_, by rw [statement, ht, hl, hl']; rfl, .cons (lineSpells_opening hs) ?_⟩
    have hyn := List.rel_append (forall₂_indent hls) (.cons lineSpells_else (forall₂_indent hls'))
    exact List.rel_append hyn (.cons lineSpells_closing .nil)
  case bare =>
    intro value hv
    obtain ⟨t, ht, hs⟩ := spells_expression hv
    obtain ⟨hl, hw⟩ := statement_bare hv ht
    exact ⟨_, hl, hw ▸ .cons (lineSpells_bare hv ht hs) .nil⟩
  case nil => exact ⟨_, rfl, .nil⟩
  case cons =>
    intro node nodes _ _ ih ihs
    obtain ⟨ls, hl, hls⟩ := ih
    obtain ⟨ls', hl', hls'⟩ := ihs
    exact ⟨_, by rw [body, hl, hl']; rfl, List.rel_append hls hls'⟩

end IntLang.CUnit
