import IntLang.Proofs.Scanning.Tokens
import IntLang.Proofs.Syntax.Carried
import IntLang.Proofs.Syntax.Sound
import IntLang.Proofs.Syntax.WellFormed

/-!
# Programs of a text are well-formed

Given tokens may hold anything, and a tree made of them may as well. Of a text, every token is
sound, and so is what tokens are put together to.

* `carried_sound`: sound words make expressions and statements;
* **`wellFormed_of_parse`**: a program that is read from a text has every node in its place, and the
  scope it was read in refuses none of its names.
-/

namespace IntLang

/-- Sound words make expressions and statements. -/
theorem carried_sound : Carried Word.Sound IsExpression IsStatement AreStatements where
  number hk hw := by
    obtain ⟨n, hn, he⟩ := hw.number hk
    exact he ▸ .number hn
  var hk hw := .var (hw.ident hk)
  assign hk hw hv := .assign (hw.ident hk) hv
  negate := .negate
  binary := .binary
  declare hk hw := .declare (hw.ident hk)
  initial hk hw hv := .initial (hw.ident hk) hv
  print := .print
  printText hk hw := .printText (hw.string hk)
  branch := .branch
  branchElse := .branchElse
  bare := .bare
  nil := .nil
  cons := .cons

/-- **What is read from a text is well-formed.** Every node of the program is in its place, and a walk
in the scope it was read in meets no refusal and ends in the scope behind. -/
theorem wellFormed_of_parse {source : UnitText} {scope scope' : Scope} {nodes : Program}
    (h : parse (.ofText source) scope = (.ok nodes, scope')) :
    AreStatements nodes ∧ Program.walk nodes scope = (none, scope') := by
  obtain ⟨rest, hy⟩ := exists_yields_of_parse (congrArg Prod.fst h)
  obtain ⟨ts, hp, hm, hs⟩ := Parse.took_program _ _ _ hy
  rw [h] at hs
  refine ⟨carried_sound.program hm fun w hw => ?_, hs⟩
  obtain ⟨t, ht, rfl⟩ := List.mem_map.mp hw
  exact sound_of_pulls (c := .start source) hp t ht

end IntLang
