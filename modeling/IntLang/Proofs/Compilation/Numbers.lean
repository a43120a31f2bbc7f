import IntLang.Proofs.Compilation.Accepted
import IntLang.Proofs.Drawing.Decoder
import IntLang.Proofs.Syntax.Numbers

/-!
# Numbers keep their value

A number may be written with any number of digits, leading zeros among them. It is accepted if it is not
too large, and then it is the same number in the tree, in the drawing and in C, where it is written
without leading zeros and so not taken for octal.

* `Cursor.next_digits`: what the scanner makes of a run of digits;
* `Text.decimal_toString`, `CUnit.constant?_of_decimal`: a number is written out in base ten, and C reads
  it in base ten;
* `CUnit.numbersWritten_bodyWords`, `shown_of_areStatements`: the lines in C and the rows of the drawing
  have the numbers of the tree;
* **`numbers_kept`**: every number that is accepted keeps its value.
-/

namespace IntLang

open CodeUnit

/-! ## Runs of digits -/

/-- A run of digits, of any length. -/
structure Text.Digits (us : UnitText) : Prop where
  ne_nil : us ≠ []
  digits : ∀ u ∈ us, isDigit u = true

/-- **A run of digits that no word goes on with** is one token if it denotes a number in range, and one
fault if it does not. -/
theorem Cursor.next_digits {c : Cursor} {digits rest : UnitText} (hd : Text.Digits digits)
    (hr : Apart rest) (hc : c.skipTrivia.rest = digits ++ rest) :
    c.next = (if Text.numeral digits ≤ maxNumber then .ok ⟨.number, digits, c.skipTrivia.pos⟩
      else .error (.unexpected ⟨.number, digits, c.skipTrivia.pos⟩ (some .numberOutOfRange)),
      ⟨rest, c.skipTrivia.pos.advance digits⟩) := by
  obtain ⟨u, us, rfl⟩ := List.exists_cons_of_ne_nil hd.ne_nil
  have hl := Lexeme.read_digits hd.digits hr
  have ht (fault : Option Detail) : c.skipTrivia.token ⟨.number, (u :: us).length, fault⟩ =
      ⟨.number, u :: us, c.skipTrivia.pos⟩ := by
    rw [token, hc, List.take_left]
  have hs : c.skipTrivia.skip (u :: us).length = ⟨rest, c.skipTrivia.pos.advance (u :: us)⟩ := by
    rw [skip, hc, List.drop_left, List.take_left]
  rw [List.cons_append] at hc
  unfold next take
  rw [hc]
  simp only [hl, hs, ht]
  by_cases hle : Text.numeral (u :: us) ≤ maxNumber
  · rw [if_pos hle, if_neg (Nat.not_lt.mpr hle)]
  · rw [if_neg hle, if_pos (Nat.not_le.mp hle)]

/-- What the scanner takes for a number. -/
structure Text.IsNumber (us : UnitText) : Prop extends Text.Digits us where
  le : numeral us ≤ maxNumber

/-- A text that scans holds no other numbers. -/
theorem isNumber_of_words {us : UnitText} {ws : List Word} (h : Text.words us = .ok ws) :
    ∀ w ∈ ws, w.kind = .number → Text.IsNumber w.value := by
  obtain ⟨ts, last, hp, rfl⟩ := Text.words_eq_ok.mp h
  have hts : (Cursor.start us).pulls.1 = ts.map .ok ++ [] := by rw [hp, List.append_nil]
  refine List.forall_mem_map.mpr (forall_of_pulls (P := fun w => w.kind = .number →
    Text.IsNumber w.value) ?_ (List.suffix_refl us) hts)
  intro u vs w n _ hl hv hk
  rw [hk] at hl
  obtain ⟨hu, htake, hle⟩ := Lexeme.read_number hl
  rw [hv, htake]
  exact ⟨⟨by simp [hu], List.all_eq_true.mp List.all_takeWhile⟩, hle⟩

/-! ## Numbers written out -/

/-- Digits that denote a number in base ten, without leading zeros. -/
structure Text.Decimal (n : Nat) (us : UnitText) : Prop extends Text.Digits us where
  numeral_eq : numeral us = n
  leading : us.head? = some (unit '0') → us = [unit '0']

theorem Text.head?_toDigits {n : Nat} (hn : n ≠ 0) : (Nat.toDigits 10 n).head? ≠ some '0' := by
  have digit : ∀ m < 10, m ≠ 0 → Nat.digitChar m ≠ '0' := by decide
  induction n using Nat.strongRecOn with
  | ind n ih =>
    rw [Nat.toDigits_eq_if (by decide)]
    split
    · next h => simpa using digit n h hn
    · next h =>
      rw [List.head?_append_of_ne_nil _ Nat.toDigits_ne_nil]
      exact ih (n / 10) (by omega) (by omega)

theorem Text.unit_eq_iff {c d : Char} (hc : c.toNat < 0x10000) (hd : d.toNat < 0x10000) :
    unit c = unit d ↔ c = d := by
  refine ⟨fun h => ?_, fun h => h ▸ rfl⟩
  rw [unit, unit, ← UInt16.toNat_inj, toNat_toUInt16 hc, toNat_toUInt16 hd] at h
  rw [← Char.ofNat_toNat c, h, Char.ofNat_toNat]

/-- **A number is written out without leading zeros.** -/
theorem Text.decimal_toString (n : Nat) : Text.Decimal n (Text.units (toString n)) := by
  obtain ⟨hne, hd, hval⟩ := Text.units_toString n
  refine ⟨⟨hne, hd⟩, hval, fun hz => ?_⟩
  by_cases hn : n = 0
  · subst hn
    decide
  · rw [units_toString_eq, List.head?_map] at hz
    obtain ⟨c, hc, he⟩ := Option.map_eq_some_iff.mp hz
    have hlt := lt_of_mem_toDigits (List.mem_of_head? hc)
    rw [(unit_eq_iff hlt (by decide)).mp he] at hc
    exact absurd hc (head?_toDigits hn)

namespace CUnit

/-- The value of an integer constant in C, where a leading zero makes the digits behind it octal. -/
def constant? : UnitText → Option Nat
  | [] => none
  | u :: us =>
    if u = unit '0' then
      if us.all fun v => unit '0' ≤ v && v ≤ unit '7' then
        some (us.foldl (fun n v => 8 * n + (v.toNat - 48)) 0)
      else none
    else if (u :: us).all isDigit then some (Text.numeral (u :: us))
    else none

/-- C reads a number without leading zeros in base ten. -/
theorem constant?_of_decimal {n : Nat} {us : UnitText} (h : Text.Decimal n us) :
    constant? us = some n := by
  obtain ⟨u, us, rfl⟩ := List.exists_cons_of_ne_nil h.ne_nil
  by_cases hu : u = unit '0'
  · have hz := h.leading (by rw [hu]; rfl)
    rw [← h.numeral_eq, hz]
    rfl
  · rw [constant?, if_neg hu, if_pos (List.all_eq_true.mpr h.digits), h.numeral_eq]

example : constant? (Text.units "010") = some 8 ∧ constant? (Text.units "08") = none := by decide

end CUnit

/-! ## Where numbers stand -/

/-- The runs of digits among words. -/
def numbersWritten (ws : List Word) : List UnitText :=
  (ws.filter (·.kind = .number)).map Word.value

section Written

variable {w : Word} {ws : List Word}

@[simp] theorem numbersWritten_nil : numbersWritten [] = [] := rfl

theorem numbersWritten_cons_of_ne (h : w.kind ≠ .number) (ws : List Word) :
    numbersWritten (w :: ws) = numbersWritten ws := by simp [numbersWritten, h]

theorem numbersWritten_cons (h : w.kind = .number) (ws : List Word) :
    numbersWritten (w :: ws) = w.value :: numbersWritten ws := by simp [numbersWritten, h]

@[simp] theorem numbersWritten_append (us vs : List Word) :
    numbersWritten (us ++ vs) = numbersWritten us ++ numbersWritten vs := by simp [numbersWritten]

theorem exists_of_mem_numbersWritten {digits : UnitText} (h : digits ∈ numbersWritten ws) :
    ∃ w ∈ ws, w.kind = .number ∧ w.value = digits := by
  obtain ⟨w, hw, rfl⟩ := List.mem_map.mp h
  simp only [List.mem_filter, decide_eq_true_eq] at hw
  exact ⟨w, hw.1, hw.2, rfl⟩

/-- Accepted runs of digits make the numbers that they denote. -/
theorem flatMap_numbers (h : ∀ w ∈ ws, w.kind = .number → Text.IsNumber w.value) :
    ws.flatMap Word.numbers =
      (numbersWritten ws).map fun digits => (Text.numeral digits : Int) := by
  induction ws with
  | nil => rfl
  | cons w ws ih =>
    obtain ⟨hw, hws⟩ := List.forall_mem_cons.mp h
    rw [List.flatMap_cons, ih hws]
    by_cases hk : w.kind = .number
    · have hn := hw hk
      rw [Word.numbers, if_pos hk, Parse.numberNode_digits hn.ne_nil hn.digits,
        numbersWritten_cons hk]
      rfl
    · rw [Word.numbers_of_ne hk, numbersWritten_cons_of_ne hk, List.nil_append]

/-- Numbers written out. -/
def written (numbers : List Int) : List UnitText := numbers.map fun n => Text.units (toString n)

@[simp] theorem written_nil : written [] = [] := rfl

@[simp] theorem written_append (ms ns : List Int) : written (ms ++ ns) = written ms ++ written ns :=
  List.map_append

end Written

namespace CUnit

@[simp] theorem numbersWritten_word {kind : TokenKind} (h : kind ≠ .number) (text : UnitText)
    (ws : List Word) : numbersWritten (word kind text :: ws) = numbersWritten ws :=
  numbersWritten_cons_of_ne h ws

theorem numbersWritten_expressionWords {e : Node} (h : IsExpression e) :
    numbersWritten (expressionWords e) = written e.numbers := by
  induction h with
  | number | var => rfl
  | assign _ _ ih | negate _ ih => simp [expressionWords, Node.numbers, ih]
  | @binary op _ _ _ _ ihl ihr =>
    have hop : op.kind ≠ .number := by cases op <;> decide
    simp [expressionWords, Node.numbers, hop, ihl, ihr]

/-- **The lines of statements hold their numbers**, written out, in their order. -/
theorem numbersWritten_bodyWords {nodes : List Node} (h : AreStatements nodes) :
    numbersWritten (bodyWords nodes).flatten = written (Program.numbers nodes) := by
  refine @AreStatements.rec
    (fun node _ => numbersWritten (statementWords node).flatten = written node.numbers)
    (fun nodes _ => numbersWritten (bodyWords nodes).flatten = written (Program.numbers nodes))
    ?declare ?initial ?print ?printText ?branch ?branchElse ?bare ?nil ?cons nodes h
  case declare | printText => exact fun _ => rfl
  case initial =>
    intro name value _ hv
    simp [statementWords, Node.numbers, numbersWritten_expressionWords hv]
  case print =>
    intro value hv
    simp [statementWords, Node.numbers, numbersWritten_expressionWords hv]
  case branch =>
    intro condition yes hc _ ihy
    simp [statementWords, openingWords, Node.numbers, numbersWritten_expressionWords hc, ihy]
  case branchElse =>
    intro condition yes no hc _ _ ihy ihn
    simp [statementWords, openingWords, Node.numbers, numbersWritten_expressionWords hc, ihy, ihn]
  case bare =>
    intro value hv
    obtain ⟨t, ht, -⟩ := spells_expression hv
    rw [(statement_bare hv ht).2]
    simp [numbersWritten_expressionWords hv]
  case nil => rfl
  case cons =>
    intro node nodes _ _ ih ihs
    simp [bodyWords, Program.numbers, ih, ihs]

/-- The text of a well-formed program in C scans to the words of its lines. -/
theorem words_reread {program : Program} {code : UnitText} (h : AreStatements program)
    (hc : ofProgram program = .ok code) :
    Text.words (reread code) = .ok (bodyWords program).flatten := by
  obtain ⟨lines, hlines, hl⟩ := spells_body h
  rw [ofProgram, hlines] at hc
  obtain rfl : text (frame lines) = code := Except.ok.inj hc
  exact (scans_reread hl).words

end CUnit

/-! ## Labels -/

/-- The number that a row of a drawing shows, if it shows one. -/
def Row.number? (r : Row) : Option UnitText := Shape.number.inner? r.label

/-- The numbers that the lines of a drawing show, from top to bottom. -/
def numberLabels (drawing : UnitText) : List UnitText :=
  ((Text.runs (unit '\n') drawing).map Row.ofLine).filterMap Row.number?

@[simp] theorem Row.number?_label (depth : Nat) (inner : UnitText) :
    Row.number? ⟨depth, Shape.number.label inner⟩ = some inner := Shape.inner?_label .number inner

/-- Only numbers have the label of a number. -/
@[simp] theorem Row.number?_of_ne {s : Shape} (hs : s ≠ .number) (depth : Nat) (inner : UnitText) :
    Row.number? ⟨depth, s.label inner⟩ = none :=
  Shape.inner?_of_apart
    ((List.pairwise_cons.mp Shape.apart_all).1 s ((List.mem_cons.mp s.mem_all).resolve_left hs)) inner

theorem shown_of_isExpression {e : Node} (h : IsExpression e) (depth : Nat) :
    (e.sketch.rows depth).filterMap Row.number? = written e.numbers := by
  induction h generalizing depth with
  | number => simp [Node.sketch, Sketch.rows, Sketch.rowsAll, Node.numbers, written]
  | var => simp [Node.sketch, Sketch.rows, Sketch.rowsAll, Node.numbers]
  | assign _ _ ih | negate _ ih => simp [Node.sketch, Sketch.rows, Sketch.rowsAll, Node.numbers, ih]
  | binary _ _ ihl ihr =>
    simp [Node.sketch, Sketch.rows, Sketch.rowsAll, Node.numbers, ihl, ihr]

/-- **The rows of statements show their numbers**, written out, in their order. -/
theorem shown_of_areStatements {nodes : List Node} (h : AreStatements nodes) (depth : Nat) :
    (Sketch.rowsAll depth (Node.sketches nodes)).filterMap Row.number? =
      written (Program.numbers nodes) := by
  refine @AreStatements.rec
    (fun node _ => ∀ depth, (node.sketch.rows depth).filterMap Row.number? = written node.numbers)
    (fun nodes _ => ∀ depth, (Sketch.rowsAll depth (Node.sketches nodes)).filterMap Row.number? =
      written (Program.numbers nodes))
    ?declare ?initial ?print ?printText ?branch ?branchElse ?bare ?nil ?cons nodes h depth
  case declare | printText =>
    intros
    simp [Node.sketch, Sketch.rows, Sketch.rowsAll, Node.numbers]
  case initial | print =>
    intros
    simp [Node.sketch, Sketch.rows, Sketch.rowsAll, Node.numbers, shown_of_isExpression, *]
  case branch =>
    intro condition yes hc _ ihy depth
    simp [Node.sketch, Sketch.rows, Sketch.rowsAll, Node.numbers, shown_of_isExpression hc, ihy]
  case branchElse =>
    intro condition yes no hc _ _ ihy ihn depth
    simp [Node.sketch, Sketch.rows, Sketch.rowsAll, Node.numbers, shown_of_isExpression hc, ihy, ihn]
  case bare => exact fun hv depth => shown_of_isExpression hv depth
  case nil => exact fun _ => rfl
  case cons =>
    intro node nodes _ _ ih ihs depth
    simp [Node.sketches, Sketch.rowsAll, Program.numbers, ih, ihs]

theorem numberLabels_draw {program : Program} (h : AreStatements program)
    (hl : ∀ node ∈ program, node.Legible) :
    numberLabels program.draw = written (Program.numbers program) := by
  by_cases hp : program = []
  · subst hp
    rfl
  · rw [numberLabels, Program.draw_eq hp, Sketch.map_ofLine_draw (Node.Legible.block hl).plain,
      Node.sketch, Sketch.rows, List.filterMap_cons, Row.number?_of_ne (by decide),
      shown_of_areStatements h]

/-! ## A whole source -/

/-- Where the numbers that a source writes stand in its result, each in its turn. -/
structure Compilation.KeepsNumbers (source : UnitText) (c : Compilation) (digits : List UnitText) :
    Prop where
  /-- They are the runs of digits that are scanned as numbers, of any length but in range. -/
  scanned : ∃ ws, Text.words source = .ok ws ∧ numbersWritten ws = digits
  accepted : ∀ us ∈ digits, Text.Digits us ∧ Text.numeral us ≤ 2147483647
  /-- The nodes hold what the digits denote in base ten. -/
  nodes : Program.numbers c.program = digits.map fun us => (Text.numeral us : Int)
  /-- The constants in C are the same numbers, written out. -/
  constants : ∃ ws, Text.words (CUnit.reread c.code) = .ok ws ∧
    numbersWritten ws = digits.map fun us => Text.units (toString (Text.numeral us))
  labels : numberLabels c.tree = digits.map fun us => Text.units (toString (Text.numeral us))

theorem keepsNumbers_of_compile {source : UnitText} {scope scope' : Scope} {c : Compilation}
    (h : compile source scope = (.ok c, scope')) : ∃ digits, c.KeepsNumbers source digits := by
  obtain ⟨hp, -, htree, hcode⟩ := exists_program_of_compile h
  obtain ⟨ws, hs, hm, -⟩ := exists_scans_of_parse hp
  have hst := (wellFormed_of_parse hp).1
  have hnum := isNumber_of_words hs.words
  have hnodes := flatMap_numbers hnum
  rw [numbers_of_makesProgram hm] at hnodes
  refine ⟨numbersWritten ws, ⟨ws, hs.words, rfl⟩, ?_, hnodes, ⟨_, CUnit.words_reread hst hcode, ?_⟩, ?_⟩
  · intro us hus
    obtain ⟨w, hw, hk, rfl⟩ := exists_of_mem_numbersWritten hus
    exact ⟨(hnum w hw hk).toDigits, (hnum w hw hk).le⟩
  · rw [CUnit.numbersWritten_bodyWords hst, hnodes, written, List.map_map]
    rfl
  · rw [htree, numberLabels_draw hst (legible_of_parse (legible_ofText source) hp), hnodes, written,
      List.map_map]
    rfl

/-- **Numbers keep their value.** A run of digits that no word goes on with is a number if what it denotes
in base ten is in range, and a fault if not; the node, the constant in C and the label that come of a
number in an accepted source stand for the same; and they are written in base ten without leading zeros,
so C does not take them for octal. -/
theorem numbers_kept :
    (∀ (c : Cursor) (digits rest : UnitText), Text.Digits digits → Apart rest →
      c.skipTrivia.rest = digits ++ rest →
        c.next = (if Text.numeral digits ≤ 2147483647 then .ok ⟨.number, digits, c.skipTrivia.pos⟩
          else .error (.unexpected ⟨.number, digits, c.skipTrivia.pos⟩ (some .numberOutOfRange)),
          ⟨rest, c.skipTrivia.pos.advance digits⟩) ∧
        Parse.numberNode digits = .number (Text.numeral digits)) ∧
    (∀ (source : UnitText) (scope scope' : Scope) (c : Compilation),
      compile source scope = (.ok c, scope') → ∃ digits, c.KeepsNumbers source digits) ∧
    ∀ n : Nat, CUnit.expression (.number n) = .ok (Text.units (toString n)) ∧
      (Node.number n).drawing = [Text.units ("NUM (" ++ toString n ++ ")")] ∧
      Text.Decimal n (Text.units (toString n)) ∧
      CUnit.constant? (Text.units (toString n)) = some n := by
  refine ⟨fun c digits rest hd hr hc => ?_, fun _ _ _ _ => keepsNumbers_of_compile, fun n => ?_⟩
  · exact ⟨Cursor.next_digits hd hr hc, Parse.numberNode_digits hd.ne_nil hd.digits⟩
  · have decimal := Text.decimal_toString n
    have label : (Node.number n).drawing = [Text.units ("NUM (" ++ toString n ++ ")")] := by
      rw [Text.units_append, Text.units_append]
      rfl
    exact ⟨rfl, label, decimal, CUnit.constant?_of_decimal decimal⟩

theorem numbers_kept_zeros : ∃ c, (compile "print(007);" .empty).1 = .ok c ∧
    Program.numbers c.program = [7] ∧ numberLabels c.tree = ["7"].map Text.units := by
  have written : (Text.words (Text.units "print(007);")).toOption.map numbersWritten =
      some [Text.units "007"] := by decide +kernel
  have accepted : (compile "print(007);" .empty).1.toOption.isSome = true := by decide +kernel
  cases h : (compile "print(007);" .empty).1 with
  | error e =>
    rw [h] at accepted
    cases accepted
  | ok c =>
    obtain ⟨digits, kept⟩ := numbers_kept.2.1 _ _ _ c (Prod.ext h rfl)
    obtain ⟨ws, hws, rfl⟩ := kept.scanned
    rw [hws] at written
    have hw : numbersWritten ws = [Text.units "007"] := Option.some.inj written
    have numbers := kept.nodes
    have labels := kept.labels
    rw [hw] at numbers labels
    exact ⟨c, rfl, numbers, labels⟩

end IntLang
