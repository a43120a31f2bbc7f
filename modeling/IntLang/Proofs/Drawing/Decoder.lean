import IntLang.Proofs.Drawing.Shapes
import IntLang.Proofs.Scanning.Tokens
import IntLang.Proofs.Syntax.Carried
import IntLang.Proofs.Syntax.Sound

/-!
# Drawings that lose nothing

A program is found again in its drawing, unless a line feed in a name or a text tears a line apart. The
scanner lets no line feed through; only given tokens may hold one.

* `Program.ofDrawing?`: the program that a text shows;
* `TokenSource.Legible`: no name and no string is torn apart;
* **`ofDrawing?_draw_of_parse`**: so every program that is read from such a source is found again;
* `draw_eq_of_lineFeed`: a text with a line feed that passes for two statements.
-/

namespace IntLang

/-! ## The decoder -/

namespace Program

/-- The program that a text shows, if it is one. -/
def ofDrawing? (text : UnitText) : Option Program :=
  if text = [] then some []
  else match (Sketch.ofText? text).bind Node.ofSketch? with
    | some (.block statements) => some statements
    | _ => none

/-- A program that is not empty is drawn as a block. -/
theorem draw_eq {program : Program} (h : program ≠ []) :
    program.draw = (Node.block program).sketch.draw := by
  rw [Program.draw, if_neg (by simpa using h), Node.draw, Node.drawing_eq]
  rfl

/-- **A legible program is found again in its drawing.** -/
theorem ofDrawing?_draw {program : Program} (h : ∀ node ∈ program, node.Legible) :
    ofDrawing? program.draw = some program := by
  cases program with
  | nil => rfl
  | cons node nodes =>
    have legible : (Node.block (node :: nodes)).Legible := .block h
    have hs := Sketch.ofText?_draw legible.plain
    have hne : (Node.block (node :: nodes)).sketch.draw ≠ [] := by
      intro he
      have blank : Sketch.ofText? [] = some (.mk [] []) := rfl
      rw [he, blank] at hs
      exact absurd (Sketch.mk.inj (Option.some.inj hs)).1 (by decide)
    rw [draw_eq (List.cons_ne_nil node nodes), ofDrawing?, if_neg hne, hs, Option.bind_some,
      Node.ofSketch?_sketch legible]

end Program

/-! ## Sources -/

/-- A name or a string is on one line. -/
def Word.OneLine (w : Word) : Prop :=
  w.kind = .ident ∨ w.kind = .string → unit '\n' ∉ w.value

/-- So is every token in front of the first error. -/
def TokenSource.Legible (source : TokenSource) : Prop :=
  ∀ (ts : List Token) (rest : List Pull), source.pulls = ts.map .ok ++ rest →
    ∀ t ∈ ts, t.word.OneLine

/-- Words on one line make legible nodes. -/
theorem carried_oneLine :
    Carried Word.OneLine Node.Legible Node.Legible (∀ node ∈ ·, node.Legible) where
  number {w} _ _ := by
    unfold Parse.numberNode
    split
    · exact .number _
    · exact .nan
  var hk hw := .var (hw (.inl hk))
  assign hk hw hv := .assign (hw (.inl hk)) hv
  negate := .negate
  binary := .binary
  declare hk hw := .declare (hw (.inl hk))
  initial hk hw hv := .initial (hw (.inl hk)) hv
  print := .print
  printText hk hw := .printText (hw (.inr hk))
  branch := .branch
  branchElse := .branchElse
  bare := id
  nil := nofun
  cons h hs := List.forall_mem_cons.mpr ⟨h, hs⟩

theorem legible_of_parse {source : TokenSource} (hs : source.Legible) {scope scope' : Scope}
    {program : Program} (h : parse source scope = (.ok program, scope')) :
    ∀ node ∈ program, node.Legible := by
  obtain ⟨rest, hy⟩ := exists_yields_of_parse (congrArg Prod.fst h)
  obtain ⟨ts, hp, hm, -⟩ := Parse.took_program _ _ _ hy
  exact carried_oneLine.program hm (List.forall_mem_map.mpr (hs ts rest hp))

/-- The scanner lets no line feed through. -/
theorem legible_ofText (text : UnitText) : (TokenSource.ofText text).Legible := by
  intro ts rest h t ht hk
  have sound : t.word.Sound := sound_of_pulls (c := .start text) h t ht
  obtain hk | hk := hk
  · exact notMem_of_isIdentifier (sound.ident hk) (by decide)
  · exact notMem_of_isLiteral (sound.string hk)

theorem legible_ofTokens {ts : List Token} (h : ∀ t ∈ ts, t.word.OneLine) :
    (TokenSource.ofTokens ts).Legible := by
  intro front rest hf t ht
  have hm : Except.ok t ∈ ts.map (.ok : Token → Pull) := by
    rw [show ts.map (.ok : Token → Pull) = front.map .ok ++ rest from hf]
    exact List.mem_append_left _ (List.mem_map_of_mem ht)
  obtain ⟨t', ht', he⟩ := List.mem_map.mp hm
  cases he
  exact h t ht'

/-- **Nothing is lost in a drawing.** Every program that is read from a text, or from tokens whose names and
strings hold no line feed, is found again in its drawing, and so no two have the same. -/
theorem ofDrawing?_draw_of_parse :
    (∀ text : UnitText, (TokenSource.ofText text).Legible) ∧
    (∀ ts : List Token, (∀ t ∈ ts, t.word.OneLine) → (TokenSource.ofTokens ts).Legible) ∧
    (∀ (source : TokenSource) (scope scope' : Scope) (program : Program), source.Legible →
      parse source scope = (.ok program, scope') →
        Program.ofDrawing? program.draw = some program) ∧
    ∀ (source₁ source₂ : TokenSource) (scope₁ scope₁' scope₂ scope₂' : Scope) (P Q : Program),
      source₁.Legible → source₂.Legible → parse source₁ scope₁ = (.ok P, scope₁') →
        parse source₂ scope₂ = (.ok Q, scope₂') → P.draw = Q.draw → P = Q := by
  refine ⟨legible_ofText, fun ts => legible_ofTokens, ?_, ?_⟩
  · intro source scope scope' program hs h
    exact Program.ofDrawing?_draw (legible_of_parse hs h)
  · intro source₁ source₂ scope₁ scope₁' scope₂ scope₂' P Q hs₁ hs₂ h₁ h₂ he
    have hP := Program.ofDrawing?_draw (legible_of_parse hs₁ h₁)
    have hQ := Program.ofDrawing?_draw (legible_of_parse hs₂ h₂)
    rw [he, hQ] at hP
    exact (Option.some.inj hP).symm

/-! ## A line feed -/

/-- Two statements; what the first prints holds a line feed, and looks like a line of a drawing behind it. -/
def TokenSource.torn : TokenSource :=
  let printing (text : String) : List Token :=
    [⟨.print, "print", .start⟩, ⟨.lparen, "(", .start⟩, ⟨.string, text, .start⟩,
      ⟨.rparen, ")", .start⟩, ⟨.semi, ";", .start⟩]
  .ofTokens (printing "\"a\"\n|-- PRINT (String): \"b\"" ++ printing "\"c\"")

/-- Three statements. -/
def TokenSource.whole : TokenSource :=
  .ofText (Text.units "print(\"a\"); print(\"b\"); print(\"c\");")

/-- The two have one drawing. -/
theorem draw_eq_of_lineFeed : ∃ P Q : Program, (parse .torn .empty).1 = .ok P ∧
    (parse .whole .empty).1 = .ok Q ∧ P ≠ Q ∧ P.draw = Q.draw := by
  have lengths : (parse .torn .empty).1.toOption.map List.length = some 2 ∧
      (parse .whole .empty).1.toOption.map List.length = some 3 := by decide +kernel
  have drawings : (parse .torn .empty).1.toOption.map Program.draw =
      (parse .whole .empty).1.toOption.map Program.draw := by decide +kernel
  cases hP : (parse .torn .empty).1 with
  | error e =>
    rw [hP] at lengths
    cases lengths.1
  | ok P =>
    cases hQ : (parse .whole .empty).1 with
    | error e =>
      rw [hQ] at lengths
      cases lengths.2
    | ok Q =>
      rw [hP, hQ] at lengths drawings
      refine ⟨P, Q, rfl, rfl, fun he => ?_, Option.some.inj drawings⟩
      rw [he] at lengths
      exact absurd (lengths.1.symm.trans lengths.2) (by decide)

end IntLang
