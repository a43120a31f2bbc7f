import IntLang.Compilation
import IntLang.Proofs.CUnit.RoundTrip
import IntLang.Proofs.Names.Blocks
import IntLang.Proofs.Syntax.Scanned

/-!
# Block scoping in C

In C a declaration ends with the block it stands in. The unit of a program keeps its declarations
where the program has them, so it is correct only if the program uses no name behind the block
that declares it. A scope does not see to that.

* `InScope`: lines of words keep to block scoping, `ScopeCorrect` says so of a unit;
* `inScope_body`: the lines of statements do as far as the statements do;
* **`scopeCorrect_iff_contained`**: the unit of a source that is accepted is correct just when its
  program is contained.
-/

namespace IntLang.CUnit

/-! ## Lines under block scoping -/

def names (ws : List Word) : List UnitText := (ws.filter fun w => w.kind = .ident).map Word.value

/-- The line is a declaration: its first word is `int`, its second one the name. -/
def isDeclaration (ws : List Word) : Bool := ws.head?.any fun w => w.kind = .int

/-- The names in the expressions of a line. -/
def mentioned (ws : List Word) : List UnitText := names (if isDeclaration ws then ws.drop 2 else ws)

/-- The names that a line declares. -/
def declared (ws : List Word) : List UnitText := if isDeclaration ws then names (ws.take 2) else []

/-- The blocks that are open behind a word, innermost first, each with its names. -/
def brace (blocks : List (List UnitText)) (w : Word) : List (List UnitText) :=
  if w.kind = .lbrace then [] :: blocks else if w.kind = .rbrace then blocks.tail else blocks

/-- The blocks that are open behind a line. -/
def behind (blocks : List (List UnitText)) (ws : List Word) : List (List UnitText) :=
  match ws.foldl brace blocks with
  | [] => []
  | block :: around => (block ++ declared ws) :: around

/-- Every name in an expression is declared by a line before, in a block that is still open. -/
def InScope : List (List UnitText) → List (List Word) → Prop
  | _, [] => True
  | blocks, ws :: lines =>
    (∀ name ∈ mentioned ws, ∃ block ∈ blocks, name ∈ block) ∧ InScope (behind blocks ws) lines

instance decidableInScope : (blocks : List (List UnitText)) → (lines : List (List Word)) →
    Decidable (InScope blocks lines)
  | _, [] => .isTrue trivial
  | blocks, ws :: lines =>
    have := decidableInScope (behind blocks ws) lines
    inferInstanceAs (Decidable (_ ∧ _))

/-- The words of a line with its call turned back. -/
def lineWords (line : UnitText) : Except CompileError (List Word) :=
  Text.words (unprint line ++ [unit '\n'])

/-- The lines of `main` can be read and keep to block scoping. -/
def ScopeCorrect (code : UnitText) : Prop :=
  match (mainLines code).mapM lineWords with
  | .ok lines => InScope [[]] lines
  | .error _ => False

instance : DecidablePred ScopeCorrect := fun code =>
  match h : (mainLines code).mapM lineWords with
  | .ok lines => decidable_of_iff (InScope [[]] lines) (by rw [ScopeCorrect, h])
  | .error _ => .isFalse (by rw [ScopeCorrect, h]; exact id)

/-! ## Words of expressions -/

theorem kind_expressionWords {e : Node} (h : IsExpression e) :
    ∀ w ∈ expressionWords e, w.kind ∉ [TokenKind.int, .lbrace, .rbrace] := by
  induction h with
  | number => simp [expressionWords]
  | var => simp [expressionWords]
  | assign _ _ ih => simpa [expressionWords, or_imp, forall_and] using ih
  | negate _ ih => simpa [expressionWords, or_imp, forall_and] using ih
  | @binary op _ _ _ _ ihl ihr =>
    have hop : op.kind ∉ [TokenKind.int, .lbrace, .rbrace] := by cases op <;> decide
    simp only [expressionWords, List.forall_mem_cons, List.forall_mem_append, kind_word]
    exact ⟨by decide, ihl, hop, ihr, by decide, by simp⟩

/-- An expression mentions the names in C of the names it uses. -/
theorem mem_names_expressionWords {e : Node} (h : IsExpression e) (name : UnitText) :
    name ∈ names (expressionWords e) ↔ ∃ n ∈ e.uses, cName n = name := by
  induction h with
  | number => simp [expressionWords, names, Node.uses, Node.events]
  | var => simp [expressionWords, names, Node.uses, Node.events, NameEvent.used?, eq_comm]
  | @assign target value _ _ ih =>
    have hn : names (expressionWords (.assign target value)) =
        cName target :: names (expressionWords value) := by simp [expressionWords, names]
    have hu : (Node.assign target value).uses = value.uses ++ [target] := by
      simp [Node.uses, Node.events, NameEvent.used?]
    rw [hn, hu, List.mem_cons, ih]
    simp [or_and_right, exists_or, or_comm, eq_comm]
  | @negate operand _ ih =>
    have hn : names (expressionWords (.negate operand)) = names (expressionWords operand) := by
      simp [expressionWords, names]
    rw [hn, ih]
    rfl
  | @binary op left right _ _ ihl ihr =>
    have hop : op.kind ≠ .ident := by cases op <;> decide
    have hn : names (expressionWords (.binary op left right)) =
        names (expressionWords left) ++ names (expressionWords right) := by
      simp [expressionWords, names, hop]
    have hu : (Node.binary op left right).uses = left.uses ++ right.uses := by
      simp [Node.uses, Node.events]
    rw [hn, hu, List.mem_append, ihl, ihr]
    simp [or_and_right, exists_or]

/-! ## Lines of statements -/

/-- The open blocks hold the names in C of the visible names. -/
def Shows (blocks : List (List UnitText)) (visible : List UnitText) : Prop :=
  ∀ name, (∃ block ∈ blocks, cName name ∈ block) ↔ name ∈ visible

variable {block visible : List UnitText} {blocks around : List (List UnitText)} {ws : List Word}
  {e : Node} {name : UnitText}

theorem Shows.declares (h : Shows (block :: around) visible) (here : List UnitText) :
    Shows ((block ++ here.map cName) :: around) (visible ++ here) := by
  intro n
  have := h n
  simp only [List.mem_cons, exists_eq_or_imp, List.mem_append,
    List.mem_map_of_injective cName_injective] at this ⊢
  rw [← this]
  exact or_right_comm

theorem Shows.opened (h : Shows blocks visible) : Shows ([] :: blocks) visible := by
  intro n
  simpa using h n

theorem Shows.forall_iff (h : Shows blocks visible) (he : IsExpression e) :
    (∀ name ∈ names (expressionWords e), ∃ block ∈ blocks, name ∈ block) ↔
      ∀ name ∈ e.uses, name ∈ visible := by
  simp only [mem_names_expressionWords he, ← h _]
  constructor
  · exact fun h name hu => h _ ⟨name, hu, rfl⟩
  · rintro h _ ⟨name, hu, rfl⟩
    exact h name hu

theorem foldl_brace (h : ∀ w ∈ ws, w.kind ∉ [TokenKind.int, .lbrace, .rbrace]) :
    ws.foldl brace blocks = blocks := by
  induction ws with
  | nil => rfl
  | cons w ws ih =>
    obtain ⟨hw, hws⟩ := List.forall_mem_cons.mp h
    simp only [List.mem_cons, List.not_mem_nil, or_false, not_or] at hw
    rw [List.foldl_cons, brace, if_neg hw.2.1, if_neg hw.2.2, ih hws]

/-- A line whose words are neither braces nor `int` only mentions names. -/
theorem inScope_plain {more : List (List Word)}
    (h : ∀ w ∈ ws, w.kind ∉ [TokenKind.int, .lbrace, .rbrace]) :
    InScope (block :: around) (ws :: more) ↔
      (∀ name ∈ names ws, ∃ b ∈ block :: around, name ∈ b) ∧ InScope (block :: around) more := by
  have hd : isDeclaration ws = false := by
    cases ws with
    | nil => rfl
    | cons w ws =>
      have hw := h w List.mem_cons_self
      simp only [List.mem_cons, not_or] at hw
      simpa [isDeclaration] using hw.1
  have hb : behind (block :: around) ws = block :: around := by
    rw [behind, foldl_brace h, declared, hd, if_neg Bool.false_ne_true]
    simp only [List.append_nil]
  rw [InScope, mentioned, hd, if_neg Bool.false_ne_true, hb]

theorem inScope_declare {more : List (List Word)} :
    InScope (block :: around) ([word .int "int", word .ident (cName name), word .semi ";"] :: more) ↔
      InScope ((block ++ [cName name]) :: around) more := by
  simp [InScope, mentioned, behind, declared, isDeclaration, names, brace]

theorem inScope_initial {more : List (List Word)} (h : Shows (block :: around) visible)
    (he : IsExpression e) :
    InScope (block :: around) ((word .int "int" :: word .ident (cName name) :: word .assign "=" ::
        (expressionWords e ++ [word .semi ";"])) :: more) ↔
      (∀ name ∈ e.uses, name ∈ visible) ∧ InScope ((block ++ [cName name]) :: around) more := by
  rw [← h.forall_iff he]
  simp [InScope, mentioned, behind, declared, isDeclaration, names, brace,
    foldl_brace (kind_expressionWords he)]

theorem inScope_print {more : List (List Word)} (h : Shows (block :: around) visible)
    (he : IsExpression e) :
    InScope (block :: around) ((word .print "print" :: word .lparen "(" ::
        (expressionWords e ++ [word .rparen ")", word .semi ";"])) :: more) ↔
      (∀ name ∈ e.uses, name ∈ visible) ∧ InScope (block :: around) more := by
  have hn : names (word .print "print" :: word .lparen "(" ::
      (expressionWords e ++ [word .rparen ")", word .semi ";"])) = names (expressionWords e) := by
    simp [names]
  rw [← h.forall_iff he, inScope_plain, hn]
  simpa [or_imp, forall_and] using kind_expressionWords he

theorem inScope_printText {more : List (List Word)} {text : UnitText} :
    InScope (block :: around) ([word .print "print", word .lparen "(", word .string text,
        word .rparen ")", word .semi ";"] :: more) ↔ InScope (block :: around) more := by
  rw [inScope_plain (by simp)]
  exact and_iff_right (by simp [names])

theorem inScope_bare {more : List (List Word)} (h : Shows (block :: around) visible)
    (he : IsExpression e) :
    InScope (block :: around) ((expressionWords e ++ [word .semi ";"]) :: more) ↔
      (∀ name ∈ e.uses, name ∈ visible) ∧ InScope (block :: around) more := by
  have hn : names (expressionWords e ++ [word .semi ";"]) = names (expressionWords e) := by
    simp [names]
  rw [← h.forall_iff he, inScope_plain, hn]
  simpa [or_imp, forall_and] using kind_expressionWords he

/-- The block of a condition starts with no names of its own. -/
theorem inScope_opening {more : List (List Word)} (h : Shows blocks visible) (he : IsExpression e) :
    InScope blocks (openingWords e :: more) ↔
      (∀ name ∈ e.uses, name ∈ visible) ∧ InScope ([] :: blocks) more := by
  rw [← h.forall_iff he]
  simp [InScope, openingWords, mentioned, behind, declared, isDeclaration, names, brace,
    foldl_brace (kind_expressionWords he)]

/-- Behind a block the names it declares are gone. -/
theorem inScope_closing {inner : List UnitText} {more : List (List Word)} :
    InScope (inner :: block :: around) ([word .rbrace "\x7d"] :: more) ↔
      InScope (block :: around) more := by
  simp [InScope, mentioned, behind, declared, isDeclaration, names, brace]

theorem inScope_else {inner : List UnitText} {more : List (List Word)} :
    InScope (inner :: block :: around)
        ([word .rbrace "\x7d", word .elseWord "else", word .lbrace "\x7b"] :: more) ↔
      InScope ([] :: block :: around) more := by
  simp [InScope, mentioned, behind, declared, isDeclaration, names, brace]

/-! ## Statements -/

/-- The names in C that statements declare in the block they stand in. -/
def declaredHere (nodes : List Node) : List UnitText := (nodes.flatMap Node.declaresHere).map cName

/-- Lines of a statement, or of statements, that declare `here`: they keep to block scoping as far as
`Scoped` says, and the lines behind them have the names `here` in the same block. -/
def LinesScoped (Scoped : List UnitText → Prop) (here : List UnitText) (lines : List (List Word)) : Prop :=
  ∀ {block visible around more}, Shows (block :: around) visible →
    (InScope (block :: around) (lines ++ more) ↔
      Scoped visible ∧ InScope ((block ++ here) :: around) more)

/-- **The lines of statements keep to block scoping as far as the statements do.** -/
theorem inScope_body {nodes : List Node} (h : AreStatements nodes) :
    LinesScoped (Program.Scoped nodes) (declaredHere nodes) (bodyWords nodes) := by
  refine @AreStatements.rec
    (fun node _ => LinesScoped node.Scoped (node.declaresHere.map cName) (statementWords node))
    (fun nodes _ => LinesScoped (Program.Scoped nodes) (declaredHere nodes) (bodyWords nodes))
    ?declare ?initial ?print ?printText ?branch ?branchElse ?bare ?nil ?cons nodes h
  case declare =>
    intro name _ block visible around more _
    exact inScope_declare.trans (true_and _).symm.to_iff
  case initial =>
    intro name value _ hv block visible around more hs
    exact inScope_initial hs hv
  case print =>
    intro value hv block visible around more hs
    simp only [Node.declaresHere, List.map_nil, List.append_nil]
    exact inScope_print hs hv
  case printText =>
    intro text _ block visible around more _
    simp only [Node.declaresHere, List.map_nil, List.append_nil]
    exact inScope_printText.trans (by simp [Node.Scoped, Node.uses, Node.events])
  case branch =>
    intro condition yes hc _ ihy block visible around more hs
    have hlines : statementWords (.branch condition yes none) ++ more =
        openingWords condition :: (bodyWords yes ++ [word .rbrace "\x7d"] :: more) := by
      simp [statementWords]
    rw [hlines, inScope_opening hs hc, ihy hs.opened, inScope_closing, Node.Scoped]
    simp only [Node.declaresHere, List.map_nil, List.append_nil, and_assoc]
  case branchElse =>
    intro condition yes no hc _ _ ihy ihn block visible around more hs
    have hlines : statementWords (.branch condition yes (some no)) ++ more =
        openingWords condition :: (bodyWords yes ++
          [word .rbrace "\x7d", word .elseWord "else", word .lbrace "\x7b"] ::
          (bodyWords no ++ [word .rbrace "\x7d"] :: more)) := by
      simp [statementWords]
    rw [hlines, inScope_opening hs hc, ihy hs.opened, inScope_else, ihn hs.opened, inScope_closing,
      Node.Scoped]
    simp only [Node.declaresHere, List.map_nil, List.append_nil, and_assoc]
  case bare =>
    intro value hv block visible around more hs
    obtain ⟨t, ht, -⟩ := spells_expression hv
    have hhere : value.declaresHere = [] := by cases hv <;> rfl
    have hscoped : value.Scoped visible ↔ ∀ name ∈ value.uses, name ∈ visible := by
      cases hv <;> exact Iff.rfl
    rw [(statement_bare hv ht).2, hhere, List.map_nil, List.append_nil, hscoped]
    exact inScope_bare hs hv
  case nil =>
    intro block visible around more _
    simp [bodyWords, declaredHere, Program.Scoped]
  case cons =>
    intro node nodes _ _ ih ihs block visible around more hs
    rw [bodyWords, List.append_assoc, ih hs, ihs (hs.declares _), Program.Scoped, and_assoc]
    simp [declaredHere]

/-! ## Units -/

theorem LineSpells.lineWords {line : UnitText} (h : LineSpells line ws) : lineWords line = .ok ws := by
  have := (h.scans .nil).words
  rwa [List.append_nil] at this

theorem mapM_lineWords {ls : List UnitText} {lines : List (List Word)}
    (h : List.Forall₂ LineSpells ls lines) : ls.mapM lineWords = .ok lines := by
  induction h with
  | nil => rfl
  | cons hl _ ih =>
    rw [List.mapM_cons, hl.lineWords, ih]
    rfl

/-- The unit of a well-formed program is correct just when the program is contained. -/
theorem scopeCorrect_iff {program : Program} {code : UnitText} (h : AreStatements program)
    (hw : (program.walk .empty).1 = none) (hcode : ofProgram program = .ok code) :
    ScopeCorrect code ↔ Program.Contained program := by
  obtain ⟨lines, hlines, hl⟩ := spells_body h
  rw [ofProgram, hlines] at hcode
  obtain rfl : text (frame lines) = code := Except.ok.inj hcode
  have hm : (mainLines (text (frame lines))).mapM lineWords = .ok (bodyWords program) := by
    rw [mainLines_text_frame (noFeed_of_forall₂ hl)]
    exact mapM_lineWords (forall₂_indent hl)
  have hs : InScope [[]] (bodyWords program) ↔ Program.Scoped program [] := by
    have hstart : Shows [[]] [] := fun name => by simp
    have hbody := @inScope_body program h [] [] [] [] hstart
    rw [List.append_nil] at hbody
    exact hbody.trans (and_iff_left trivial)
  rw [ScopeCorrect, hm, ← scoped_iff_contained h hw, ← hs]

/-- The unit of a source that is accepted in an empty scope. -/
def code? (source : UnitText) : Option UnitText :=
  (compile source .empty).1.toOption.map Compilation.code

theorem exists_compile {source code : UnitText} (h : code? source = some code) :
    ∃ c scope, compile source .empty = (.ok c, scope) ∧ c.code = code := by
  unfold code? at h
  rcases hc : compile source .empty with ⟨_ | c, scope⟩
  · rw [hc] at h
    cases h
  · rw [hc] at h
    exact ⟨c, scope, rfl, Option.some.inj h⟩

/-- **Units are correct just when no name leaves its block.** The unit of a source that is accepted in
an empty scope keeps to block scoping if its program uses no name behind the block that declares it,
and only then. -/
theorem scopeCorrect_iff_contained {source : UnitText} {c : Compilation} {scope : Scope}
    (h : compile source .empty = (.ok c, scope)) :
    ScopeCorrect c.code ↔ Program.Contained c.program := by
  unfold compile at h
  split at h
  · next program scope' hp =>
    obtain ⟨hs, hw⟩ := wellFormed_of_parse hp
    obtain ⟨hc, rfl⟩ := Prod.mk.inj h
    unfold Compilation.ofProgram at hc
    split at hc
    · next code hcode =>
      cases hc
      exact scopeCorrect_iff hs (congrArg Prod.fst hw) hcode
    · cases hc
  · cases h

/-- A name that is declared in a block and used there. -/
theorem scopeCorrect_inside : ∃ c scope,
    compile "int x; if (x) \x7b int y = x; print(y); \x7d else \x7b print(x); \x7d" .empty =
      (.ok c, scope) ∧ ScopeCorrect c.code ∧ Program.Contained c.program := by
  have hcode : code? "int x; if (x) \x7b int y = x; print(y); \x7d else \x7b print(x); \x7d" =
      some (text (frame ["int x;", "if (x) \x7b", "    int y = x;", "    printf(\"%d\\n\", y);",
        "\x7d else \x7b", "    printf(\"%d\\n\", x);", "\x7d"])) := by
    decide +kernel
  obtain ⟨c, scope, hc, hcode⟩ := exists_compile hcode
  have hs : ScopeCorrect c.code := by
    rw [hcode]
    decide +kernel
  exact ⟨c, scope, hc, hs, (scopeCorrect_iff_contained hc).mp hs⟩

/-- A name that is declared in a block and used behind it: the scope accepts it, C does not. -/
theorem not_scopeCorrect_behind : ∃ c scope,
    compile "if (1) \x7b int inner = 2; \x7d print(inner);" .empty = (.ok c, scope) ∧
      ¬ ScopeCorrect c.code := by
  have hcode : code? "if (1) \x7b int inner = 2; \x7d print(inner);" =
      some (text (frame ["if (1) \x7b", "    int inner = 2;", "\x7d",
        "printf(\"%d\\n\", inner);"])) := by
    decide +kernel
  obtain ⟨c, scope, hc, hcode⟩ := exists_compile hcode
  refine ⟨c, scope, hc, ?_⟩
  rw [hcode]
  decide +kernel

end IntLang.CUnit
