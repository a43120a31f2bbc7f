import IntLang.Proofs.CUnit.Depth
import IntLang.Proofs.Compilation.Messages
import IntLang.Proofs.Drawing.Sketch

/-!
# What results are made of

A drawing and a unit are put together from fixed wordings and from the names and texts of the source. A
property of texts that wordings have, and that texts keep when they are joined, passes from the source to
them. So no control character but the line feed gets there that is not in the source, and no half of a
surrogate pair gets there alone.

* `Carries`: the words that have such a property;
* `carried_drawing`, `carried_unit`: all lines of a drawing and of a unit;
* `holds_of_compile`: a drawing and a unit as a whole;
* **`notMem_of_compile`**, `lacks_message_of_compile`: control characters;
* **`whole_of_compile`**: surrogate pairs; `shown_of_compile`: what is printed and written.
-/

namespace IntLang

open Text (Composes IsControl Lacks Printable Whole)

variable {P : UnitText → Prop}

/-- A name or a text of the source has the property. -/
def Carries (P : UnitText → Prop) (w : Word) : Prop := w.kind = .ident ∨ w.kind = .string → P w.value

/-! ## Drawings -/

/-- What words carry is in all lines of a drawing. -/
theorem carried_drawing (hP : Composes P) :
    Carried (Carries P) (fun e => LinesHave P e.drawing) (fun s => LinesHave P s.drawing)
      (fun nodes => ∀ d ∈ Node.drawings nodes, LinesHave P d) where
  number {w} _ _ := by
    unfold Parse.numberNode
    split
    · next n _ =>
      exact List.forall_mem_singleton.mpr (hP.quoted (hP.number n) (by decide +kernel) (by decide +kernel))
    · have label : Printable "NUM (NaN)" := by decide +kernel
      exact List.forall_mem_singleton.mpr (hP.wording label)
  var hk hw := List.forall_mem_singleton.mpr
    (hP.quoted (hw (.inl hk)) (by decide +kernel) (by decide +kernel))
  assign hk hw hv := by
    rw [Node.drawing]
    exact linesHave_cons hP (hP.append (hP.wording (by decide +kernel)) (hw (.inl hk)))
      (List.forall_mem_singleton.mpr hv)
  negate h := by
    rw [Node.drawing]
    exact linesHave_cons hP (hP.wording (by decide +kernel)) (List.forall_mem_singleton.mpr h)
  binary {op left right} hl hr := by
    have sign : Printable op.text := by cases op <;> decide
    rw [Node.drawing]
    exact linesHave_cons hP (hP.quoted (hP.wording sign) (by decide +kernel) (by decide +kernel))
      (List.forall_mem_cons.mpr ⟨hl, List.forall_mem_singleton.mpr hr⟩)
  declare hk hw := List.forall_mem_singleton.mpr
    (hP.quoted (hw (.inl hk)) (by decide +kernel) (by decide +kernel))
  initial hk hw hv := by
    rw [Node.drawing]
    exact linesHave_cons hP (hP.quoted (hw (.inl hk)) (by decide +kernel) (by decide +kernel))
      (List.forall_mem_singleton.mpr hv)
  print hv := by
    rw [Node.drawing]
    exact linesHave_cons hP (hP.wording (by decide +kernel)) (List.forall_mem_singleton.mpr hv)
  printText hk hw := List.forall_mem_singleton.mpr
    (hP.append (hP.wording (by decide +kernel)) (hw (.inr hk)))
  branch hc hy := by
    rw [Node.drawing]
    refine linesHave_cons hP (hP.wording (by decide +kernel)) (List.forall_mem_cons.mpr ⟨hc, ?_⟩)
    exact List.forall_mem_singleton.mpr (linesHave_cons hP (hP.wording (by decide +kernel)) hy)
  branchElse hc hy hn := by
    rw [Node.drawing]
    refine linesHave_cons hP (hP.wording (by decide +kernel)) (List.forall_mem_cons.mpr ⟨hc, ?_⟩)
    exact List.forall_mem_cons.mpr ⟨linesHave_cons hP (hP.wording (by decide +kernel)) hy,
      List.forall_mem_singleton.mpr (linesHave_cons hP (hP.wording (by decide +kernel)) hn)⟩
  bare := id
  nil := List.forall_mem_nil _
  cons h hs := List.forall_mem_cons.mpr ⟨h, hs⟩

/-! ## Units -/

namespace CUnit

theorem holds_cName (hP : Composes P) {name : UnitText} (h : P name) : P (cName name) := by
  unfold cName
  split
  · exact hP.append (hP.wording (by decide +kernel)) h
  · exact h

theorem linesHave_indent (hP : Composes P) {lines : List UnitText} (h : LinesHave P lines) :
    LinesHave P (lines.map indent) :=
  List.forall_mem_map.mpr fun line hm => hP.append (hP.wording (by decide +kernel)) (h line hm)

/-- The lines of a branch, from its test and the lines of its blocks. -/
theorem linesHave_branchLines (hP : Composes P) {test : UnitText} {yes : List UnitText}
    {no : Option (List UnitText)} (ht : P test) (hy : LinesHave P yes)
    (hn : ∀ lines ∈ no, LinesHave P lines) : LinesHave P (branchLines test yes no) := by
  have opening : P ("if (" ++ test ++ ") \x7b") := hP.quoted ht (by decide +kernel) (by decide +kernel)
  have turning : P "\x7d else \x7b" := hP.wording (by decide +kernel)
  have closing : P "\x7d" := hP.wording (by decide +kernel)
  refine List.forall_mem_append.mpr ⟨List.forall_mem_append.mpr ⟨?_, ?_⟩, ?_⟩
  · exact List.forall_mem_cons.mpr ⟨opening, linesHave_indent hP hy⟩
  · cases no with
    | none => exact List.forall_mem_nil _
    | some no => exact List.forall_mem_cons.mpr ⟨turning, linesHave_indent hP (hn no rfl)⟩
  · exact List.forall_mem_singleton.mpr closing

/-- The text of an expression and the line that it makes as a statement. -/
structure ExpressionHas (P : UnitText → Prop) (e : Node) : Prop where
  text : Gives P (expression e)
  lines : Gives (LinesHave P) (statement e)

theorem ExpressionHas.of_fits (hP : Composes P) {e : Node} (hf : e.fits .expression = true)
    (h : Gives P (expression e)) : ExpressionHas P e := by
  refine ⟨h, ?_⟩
  rw [statement_of_fits hf]
  exact h.bind fun text _ ht =>
    .ok (List.forall_mem_singleton.mpr (hP.append ht (hP.wording (by decide +kernel))))

/-- What words carry is in all lines of a unit. -/
theorem carried_unit (hP : Composes P) :
    Carried (Carries P) (ExpressionHas P) (fun s => Gives (LinesHave P) (statement s))
      (fun nodes => Gives (LinesHave P) (body nodes)) where
  number {w} _ _ := by
    unfold Parse.numberNode
    split
    · next n _ => exact .of_fits hP rfl (.ok (hP.number n))
    · exact ⟨.error, .error⟩
  var hk hw := .of_fits hP rfl (.ok (holds_cName hP (hw (.inl hk))))
  assign {w value} hk hw hv := by
    have target : P ("(" ++ cName w.value ++ " = ") :=
      hP.quoted (holds_cName hP (hw (.inl hk))) (by decide +kernel) (by decide +kernel)
    refine .of_fits hP rfl ?_
    rw [expression]
    refine hv.text.bind fun text _ ht => .ok ?_
    exact hP.append (hP.append target ht) (hP.wording (by decide +kernel))
  negate h := by
    refine .of_fits hP rfl ?_
    rw [expression]
    exact h.text.bind fun text _ ht => .ok (hP.quoted ht (by decide +kernel) (by decide +kernel))
  binary {op left right} hl hr := by
    have sign : Printable op.text := by cases op <;> decide
    refine .of_fits hP rfl ?_
    rw [expression]
    refine hl.text.bind fun first _ hf => hr.text.bind fun second _ hs => .ok ?_
    have front : P ("(" ++ first ++ " ") := hP.quoted hf (by decide +kernel) (by decide +kernel)
    have blank : P " " := hP.wording (by decide +kernel)
    have middle := hP.append (hP.append front (hP.wording sign)) blank
    exact hP.append (hP.append middle hs) (hP.wording (by decide +kernel))
  declare hk hw := .ok (List.forall_mem_singleton.mpr
    (hP.quoted (holds_cName hP (hw (.inl hk))) (by decide +kernel) (by decide +kernel)))
  initial {w value} hk hw hv := by
    have target : P ("int " ++ cName w.value ++ " = ") :=
      hP.quoted (holds_cName hP (hw (.inl hk))) (by decide +kernel) (by decide +kernel)
    rw [statement]
    refine hv.text.bind fun text _ ht => .ok (List.forall_mem_singleton.mpr ?_)
    exact hP.append (hP.append target ht) (hP.wording (by decide +kernel))
  print hv := by
    rw [statement]
    exact hv.text.bind fun text _ ht =>
      .ok (List.forall_mem_singleton.mpr (hP.quoted ht (by decide +kernel) (by decide +kernel)))
  printText hk hw := .ok (List.forall_mem_singleton.mpr
    (hP.quoted (hw (.inr hk)) (by decide +kernel) (by decide +kernel)))
  branch hc hy := by
    rw [statement_branch]
    exact hc.text.bind fun test _ ht => hy.bind fun yes _ hl =>
      .ok (linesHave_branchLines hP ht hl (by simp))
  branchElse hc hy hn := by
    rw [statement_branch, Option.mapM_some]
    refine hc.text.bind fun test _ ht => hy.bind fun yes _ hl => ?_
    rw [bind_map_left]
    refine hn.bind fun no _ hm => .ok (linesHave_branchLines hP ht hl ?_)
    rintro _ ⟨⟩
    exact hm
  bare h := h.lines
  nil := .ok (List.forall_mem_nil _)
  cons h hs := by
    rw [body]
    exact h.bind fun first _ hf => hs.bind fun more _ hm => .ok (List.forall_mem_append.mpr ⟨hf, hm⟩)

theorem linesHave_frame (hP : Composes P) {lines : List UnitText} (h : LinesHave P lines) :
    LinesHave P (frame lines) := by
  have front : ∀ line ∈ ["#include <stdio.h>", "#include <stdlib.h>", "", "int main() \x7b"],
      Printable line := by decide +kernel
  have last : P (indent "return 0;") :=
    hP.append (hP.wording (by decide +kernel)) (hP.wording (by decide +kernel))
  refine List.forall_mem_append.mpr ⟨List.forall_mem_append.mpr ⟨?_, linesHave_indent hP h⟩, ?_⟩
  · exact List.forall_mem_map.mpr fun line hl => hP.wording (front line hl)
  · exact List.forall_mem_cons.mpr ⟨last,
      List.forall_mem_singleton.mpr (hP.wording (by decide +kernel))⟩

theorem holds_text (hP : Composes P) (hf : P [unit '\n']) {lines : List UnitText}
    (h : LinesHave P lines) : P (text lines) := by
  induction lines with
  | nil => exact hP.nil
  | cons line lines ih =>
    obtain ⟨hl, hs⟩ := List.forall_mem_cons.mp h
    have both := hP.append (hP.append hl hf) (ih hs)
    rwa [List.append_assoc, List.singleton_append, ← text_cons] at both

end CUnit

/-! ## Sources -/

variable {source : UnitText} {scope : Scope}

/-- **What the words of a source carry is in its drawing and its unit.** -/
theorem holds_of_compile (hP : Composes P) (hf : P [unit '\n'])
    (hw : ∀ (ts : List Token) rest, (Cursor.start source).pulls.1 = ts.map .ok ++ rest →
      ∀ t ∈ ts, Carries P t.word)
    {c : Compilation} (h : (compile source scope).1 = .ok c) : P c.tree ∧ P c.code := by
  obtain ⟨hp, -, htree, hcode⟩ := exists_program_of_compile (Prod.ext h rfl)
  obtain ⟨rest, hy⟩ := exists_yields_of_parse (congrArg Prod.fst hp)
  obtain ⟨ts, hpulls, hm, -⟩ := Parse.took_program _ _ _ hy
  have words : ∀ w ∈ ts.map Token.word, Carries P w := List.forall_mem_map.mpr (hw ts rest hpulls)
  constructor
  · rw [htree, Program.draw]
    split
    · exact hP.nil
    · have block : P "BLOCK" := hP.wording (by decide +kernel)
      exact hP.intercalate hf (linesHave_cons hP block ((carried_drawing hP).program hm words))
  · have code : CUnit.Gives P (CUnit.ofProgram c.program) :=
      ((CUnit.carried_unit hP).program hm words).bind fun lines _ hl =>
        .ok (CUnit.holds_text hP hf (CUnit.linesHave_frame hP hl))
    exact code _ hcode

/-! ### Control characters -/

variable {x : Char}

/-- **The words of a source are pieces of it.** -/
theorem Tiles.subset_of_shows {before text : UnitText} {steps : List Pull} (h : Tiles before text steps) :
    ∀ pull ∈ steps, ∀ t, pull.Shows t → t.value ⊆ text := by
  induction h with
  | last => exact List.forall_mem_nil _
  | @step before gap rest pull steps t hg ht hk hv hp h ih =>
    refine List.forall_mem_cons.mpr ⟨?_, ?_⟩
    · intro t' ht'
      obtain rfl : t' = t := by
        obtain ht | ⟨d, ht⟩ := ht
        all_goals
          obtain ht' | ⟨d', ht'⟩ := ht'
          all_goals cases ht.symm.trans ht'
          rfl
      intro u hu
      simp [hu]
    · intro pull hm t' ht' u hu
      simp [ih pull hm t' ht' hu]

theorem notMem_of_shows (hs : unit x ∉ source) :
    ∀ pull ∈ (Cursor.start source).pulls.1, ∀ t, pull.Shows t → unit x ∉ t.value :=
  fun pull hm t ht hu => hs ((Cursor.tiles_pulls _ [] rfl).1.subset_of_shows pull hm t ht hu)

/-- **What a source does not hold is not in its drawing and its unit.** -/
theorem notMem_of_compile (hx : IsControl x) (hn : unit x ≠ unit '\n') (hs : unit x ∉ source)
    {c : Compilation} (h : (compile source scope).1 = .ok c) : unit x ∉ c.tree ∧ unit x ∉ c.code := by
  refine holds_of_compile hx.composes (fun hm => hn (List.mem_singleton.mp hm)) ?_ h
  intro ts rest hp t ht _
  exact notMem_word_of_shown (notMem_of_shows hs) hp t.word (List.mem_map_of_mem ht)

/-- What a source does not hold is not in the message about its first error. -/
theorem lacks_message_of_compile (hx : IsControl x) (hs : unit x ∉ source) {e : CompileError}
    (h : (compile source scope).1 = .error (.source e)) : Lacks x e.message :=
  lacks_message_of_shown hx (notMem_of_shows hs) (parse_of_compile_error (Prod.ext h rfl))

/-! ### Surrogate pairs -/

/-- Names are whole, and so are strings, which are cut out of the source at their quotes. -/
theorem carries_whole (hs : Whole source) {ts : List Token} {rest : List Pull}
    (hp : (Cursor.start source).pulls.1 = ts.map .ok ++ rest) : ∀ t ∈ ts, Carries Whole t.word := by
  refine forall_of_pulls (P := Carries Whole) ?_ (List.suffix_refl source) hp
  rintro u us w n ⟨before, rfl⟩ hl hv (hk | hk)
  · rw [hk] at hl
    obtain ⟨-, htake, -⟩ := Lexeme.read_ident hl
    rw [hv, htake]
    refine Text.whole_of_lt fun v hm => ?_
    have below := (toNat_of_isWordPart (List.all_eq_true.mp List.all_takeWhile v hm)).2
    omega
  · rw [hk] at hl
    obtain ⟨rfl, m, rfl, hb⟩ := Lexeme.read_string hl
    obtain ⟨init, hi, -⟩ := stringBody_take hb
    have hquote : (unit '"').isHigh = false ∧ (unit '"').isLow = false := by decide
    have hus := (Text.whole_of_append hquote hs).2
    rw [← List.take_append_drop m us, hi, List.append_assoc] at hus
    have hq : Whole [unit '"'] := ⟨"\"", rfl⟩
    rw [hv, List.take_succ_cons, hi]
    exact hq.append ((Text.whole_of_append hquote hus).1.append hq)

/-- **A source without half a pair has results without one**, so they are shown as they are. -/
theorem whole_of_compile (hs : Whole source) {c : Compilation} (h : (compile source scope).1 = .ok c) :
    Whole c.tree ∧ Whole c.code :=
  holds_of_compile Text.composes_whole ⟨"\n", rfl⟩ (fun _ _ hp => carries_whole hs hp) h

/-- What is printed and written for a text of a file is its drawing and its unit, with nothing lost. -/
theorem shown_of_compile {text : String} {c : Compilation}
    (h : (compile (Text.units text) scope).1 = .ok c) :
    Text.units c.treeText = c.tree ∧ Text.units c.codeText = c.code :=
  let ⟨tree, code⟩ := whole_of_compile ⟨text, rfl⟩ h
  ⟨tree.units_ofUnits, code.units_ofUnits⟩

end IntLang
