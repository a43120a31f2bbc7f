import IntLang.Proofs.CUnit.Words
import IntLang.Proofs.Names.Rename
import IntLang.Proofs.Syntax.Complete

/-!
# Programs are read back from their units

The lines of `main` with their calls turned back are a program in the language itself: the one
the unit was made of, with the names that it has in C.

* `MakesOperand`: every expression is written as an operand, so nothing around it can break it up;
* `makes_body`: the words of the lines make the renamed program;
* **`parse_reread`**: the unit of a well-formed program reads back, and so determines it.
-/

namespace IntLang

/-- A text that scans to the words of a program is parsed as it. -/
theorem parse_of_scans {us : UnitText} {ws : List Word} {program : Program} {s s' : Scope}
    (h : Scans us ws) (hm : MakesProgram ws program) (hw : program.walk s = (none, s')) :
    parse (.ofText us) s = (.ok program, s') := by
  obtain ⟨ts, last, hp, rfl, hk⟩ := h.pulls_ofText
  have hc : Parse.Closes last .eof [] := ⟨last, rfl, .inl hk⟩
  have hy := Parse.yields_program hm hc hw
  rw [List.append_nil] at hy
  obtain ⟨_, hy⟩ := hy
  rw [parse, hp, hy]
  rfl

namespace CUnit

/-! ## Expressions -/

/-- The words make the node wherever an operand may stand. -/
def MakesOperand (u : List Word) (node : Node) : Prop :=
  ∀ v more, MakesTail v more → MakesChain (u ++ v) ⟨node, more⟩

theorem MakesOperand.alone {u : List Word} {node : Node} (h : MakesOperand u node) :
    MakesChain u ⟨node, []⟩ := by
  have := h _ _ .stop
  rwa [List.append_nil] at this

/-- A chain of one operand is that operand. -/
@[simp] theorem tree_alone (node : Node) : (⟨node, []⟩ : Chain).tree = node := rfl

theorem tree_pair (op : BinaryOp) (left right : Node) :
    (⟨left, [(op, right)]⟩ : Chain).tree = .binary op left right := by
  cases op <;> rfl

/-- Parentheses make an operand of a chain. -/
theorem makesOperand_group {u : List Word} {c : Chain} (h : MakesChain u c) :
    MakesOperand (word .lparen "(" :: (u ++ [word .rparen ")"])) c.tree := by
  intro v more hm
  have := MakesChain.group (l := word .lparen "(") (r := word .rparen ")") rfl h rfl hm
  simpa using this

theorem makes_expression {e : Node} (h : IsExpression e) :
    MakesOperand (expressionWords e) (e.rename cName) := by
  induction h with
  | @number n hn =>
    intro v more hm
    have := MakesChain.number (w := word .number (toString (n : Int))) rfl hm
    rwa [show (word .number (toString (n : Int))).value = Text.units (toString n) from rfl,
      Parse.numberNode_toString] at this
  | @var name hn =>
    intro v more hm
    exact MakesChain.name (w := word .ident (cName name)) rfl hm
  | @assign name value hn _ ih =>
    have := MakesChain.assign (w := word .ident (cName name)) (e := word .assign "=") rfl rfl ih.alone
    rw [tree_alone] at this
    exact makesOperand_group this
  | negate _ ih =>
    have := MakesChain.negate (w := word .minus "-") rfl ih.alone
    exact makesOperand_group this
  | @binary op left right _ _ ihl ihr =>
    have := ihl _ _ (.more (w := word op.kind op.text) (BinaryOp.binary?_kind op) ihr.alone)
    have := makesOperand_group this
    rw [tree_pair] at this
    simpa [expressionWords, Node.rename] using this

/-! ## Statements -/

theorem makesBlock {u : List Word} {nodes : List Node} (h : MakesProgram u nodes) :
    MakesBlock (word .lbrace "\x7b" :: u ++ [word .rbrace "\x7d"]) nodes := .braces rfl h rfl

/-- **The words of well-formed statements make them, with their names in C.** -/
theorem makes_body {nodes : List Node} (h : AreStatements nodes) :
    MakesProgram (bodyWords nodes).flatten (Program.rename cName nodes) := by
  refine @AreStatements.rec
    (fun node _ => MakesStatement (statementWords node).flatten (node.rename cName))
    (fun nodes _ => MakesProgram (bodyWords nodes).flatten (Program.rename cName nodes))
    ?declare ?initial ?print ?printText ?branch ?branchElse ?bare ?nil ?cons nodes h
  case declare =>
    intro name hn
    exact MakesStatement.declare (w := word .int "int") (n := word .ident (cName name))
      (s := word .semi ";") rfl rfl rfl
  case initial =>
    intro name value hn hv
    have := MakesStatement.initial (w := word .int "int") (n := word .ident (cName name))
      (e := word .assign "=") (s := word .semi ";") rfl rfl rfl (makes_expression hv).alone rfl
    simpa [statementWords, Node.rename] using this
  case print =>
    intro value hv
    have := MakesStatement.print (w := word .print "print") (l := word .lparen "(")
      (r := word .rparen ")") (s := word .semi ";") rfl rfl (makes_expression hv).alone rfl rfl
    simpa [statementWords, Node.rename] using this
  case printText =>
    intro text ht
    exact MakesStatement.printText (w := word .print "print") (l := word .lparen "(")
      (t := word .string text) (r := word .rparen ")") (s := word .semi ";") rfl rfl rfl rfl rfl
  case branch =>
    intro condition yes hc _ ihy
    have := MakesStatement.branch (w := word .ifWord "if") (l := word .lparen "(")
      (r := word .rparen ")") rfl rfl (makes_expression hc).alone rfl (makesBlock ihy)
    simpa [statementWords, openingWords, Node.rename] using this
  case branchElse =>
    intro condition yes no hc _ _ ihy ihn
    have := MakesStatement.branchElse (w := word .ifWord "if") (l := word .lparen "(")
      (r := word .rparen ")") (e := word .elseWord "else") rfl rfl (makes_expression hc).alone rfl
      (makesBlock ihy) rfl (makesBlock ihn)
    simpa [statementWords, openingWords, Node.rename] using this
  case bare =>
    intro value hv
    have := MakesStatement.bare (s := word .semi ";") (makes_expression hv).alone rfl
    obtain ⟨t, ht, -⟩ := spells_expression hv
    rw [(statement_bare hv ht).2]
    simpa using this
  case nil => exact .nil
  case cons =>
    intro node nodes _ _ ih ihs
    simpa [bodyWords, Program.rename] using MakesProgram.cons ih ihs

/-! ## Units -/

theorem noFeed_of_forall₂ {ls : List UnitText} {ws : List (List Word)}
    (h : List.Forall₂ LineSpells ls ws) : ∀ line ∈ ls, unit '\n' ∉ line := by
  induction h with
  | nil => exact List.forall_mem_nil _
  | cons hl _ ih => exact List.forall_mem_cons.mpr ⟨hl.noFeed, ih⟩

/-- The text of lines scans to their words in a row. -/
theorem scans_text {ls : List UnitText} {ws : List (List Word)} (h : List.Forall₂ LineSpells ls ws) :
    Scans (text (ls.map unprint)) ws.flatten := by
  induction h with
  | nil => exact .nil
  | cons hl _ ih =>
    rw [List.map_cons, text_cons]
    exact hl.scans ih

/-- The lines of `main` as a program text: the calls turned back, each line with its line feed. -/
def reread (code : UnitText) : UnitText := text ((mainLines code).map unprint)

theorem scans_reread {lines : List UnitText} {ws : List (List Word)}
    (h : List.Forall₂ LineSpells lines ws) :
    Scans (reread (text (frame lines))) ws.flatten := by
  rw [reread, mainLines_text_frame (noFeed_of_forall₂ h)]
  exact scans_text (forall₂_indent h)

theorem parse_reread_of_ok {program : Program} {s : Scope} {lines : List UnitText}
    (h : AreStatements program) (hw : program.walk .empty = (none, s))
    (hl : List.Forall₂ LineSpells lines (bodyWords program)) :
    ∃ scope, parse (.ofText (reread (text (frame lines)))) .empty =
      (.ok (Program.rename cName program), scope) ∧ scope.names = s.names.map cName := by
  obtain ⟨t, ht, hn⟩ := Program.walk_rename cName_injective (t := .empty) rfl hw
  exact ⟨t, parse_of_scans (scans_reread hl) (makes_body h) ht, hn⟩

/-- **Units of well-formed programs read back.** The lines of `main`, with the calls turned back, are
parsed as the program with its names in C, which are declared in their order. So no other well-formed
program has this unit. -/
theorem parse_reread {program : Program} (h : program.WellFormed) :
    ∃ code scope, ofProgram program = .ok code ∧
      parse (.ofText (reread code)) .empty =
        (.ok (Program.rename cName program), scope) ∧
      scope.names = (program.walk .empty).2.names.map cName ∧
      ∀ other : Program, other.WellFormed → ofProgram other = .ok code → other = program := by
  obtain ⟨lines, hlines, hl⟩ := spells_body h.statements
  obtain ⟨scope, hp, hn⟩ := parse_reread_of_ok h.statements (Prod.ext h.names rfl) hl
  refine ⟨text (frame lines), scope, by rw [ofProgram, hlines]; rfl, hp, hn, ?_⟩
  intro other ho hcode
  obtain ⟨lines', hlines', hl'⟩ := spells_body ho.statements
  obtain ⟨_, hp', _⟩ := parse_reread_of_ok ho.statements (Prod.ext ho.names rfl) hl'
  rw [ofProgram, hlines'] at hcode
  rw [show text (frame lines') = text (frame lines) from Except.ok.inj hcode, hp] at hp'
  exact Program.rename_injective cName_injective (Except.ok.inj (Prod.mk.inj hp').1.symm)

/-- A program with a name that C owns, a string, and signs behind one another. -/
def signs : Program :=
  [.declare "main" none,
    .branch (.assign "main" (.negate (.negate (.number 1)))) [.printText "\"a \\\"b\\\"\""]
      (some [.declare "x" (some (.binary .sub (.var "main") (.negate (.number 2)))), .print (.var "x")])]

theorem parse_reread_signs : signs.WellFormed ∧ ∃ code scope, ofProgram signs = .ok code ∧
    parse (.ofText (reread code)) .empty = (.ok (Program.rename cName signs), scope) ∧
    scope.names = ["v_main", "x"].map Text.units := by
  have hmain : IsIdentifier "main" := ⟨⟨_, _, rfl, rfl, List.all_eq_true.mp rfl⟩, by decide⟩
  have hx : IsIdentifier "x" := ⟨⟨_, _, rfl, rfl, List.all_eq_true.mp rfl⟩, by decide⟩
  have htext : IsStatement (.printText "\"a \\\"b\\\"\"") :=
    .printText (isLiteral_iff.mpr ⟨_, rfl, by decide⟩)
  have hinitial : IsExpression (.binary .sub (.var "main") (.negate (.number 2))) :=
    .binary (.var hmain) (.negate (.number (n := 2) (by decide)))
  have hcondition : IsExpression (.assign "main" (.negate (.negate (.number 1)))) :=
    .assign hmain (.negate (.negate (.number (n := 1) (by decide))))
  have hwf : signs.WellFormed :=
    ⟨.cons (.declare hmain) (.cons (.branchElse hcondition (.cons htext .nil)
      (.cons (.initial hx hinitial) (.cons (.print (.var hx)) .nil))) .nil), by decide +kernel⟩
  obtain ⟨code, scope, hcode, hp, hn, -⟩ := parse_reread hwf
  exact ⟨hwf, code, scope, hcode, hp, hn.trans (by decide +kernel)⟩

end CUnit

end IntLang
