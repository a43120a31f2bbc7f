import IntLang.Proofs.Compilation.Session
import IntLang.Proofs.Project.Creation
import IntLang.Proofs.Project.Loading
import IntLang.Proofs.Project.Placeholders
import IntLang.Proofs.Project.Settings
import IntLang.Proofs.Scanning.LongestMatch
import IntLang.Proofs.Text.Whole

/-!
# Projects of the standard template

The name of a project goes into its source twice: into a comment, which no name can leave except by a
line feed, and between the quotes of a string, which a name may close or leave open.

* `Template.program`: what the standard template prints for a name;
* `exists_compile_source`: if the name between quotes is one literal, the source is that program;
* `compile_source_error`: if it is none and the name holds no quote, the source is no program;
* **`valid_of_create`**: a new project can be worked on exactly then, if its name holds no quote.
-/

namespace IntLang

open CodeUnit CUnit

namespace Template

/-! ## The source -/

def declarations : String := "int a = 3;\nint b = a * 4 - 2;\n"

def ending : String :=
  "print(b);\n\nif (b >= 10) \x7b\n    print(\"big\");\n\x7d else \x7b\n    print(\"small\");\n\x7d\n"

/-- The source of a new project. -/
def source (name : String) : String :=
  "// " ++ name ++ "\n" ++ declarations ++ "\n" ++ "print(\"" ++ name ++ "\");\n" ++ ending

theorem fill_standardSource (name : String) : fill name standardSource = source name := by
  have isWord : IsWord "name" := by decide
  have named : meaning? name "name" = some name := rfl
  have comment : ¬ ['\x7b', '\x7b'] <:+: "// ".toList := by decide
  have middle : ¬ ['\x7b', '\x7b'] <:+: ("\n" ++ declarations ++ "\n" ++ "print(\"").toList := by
    decide +kernel
  have rest : ¬ ['\x7b', '\x7b'] <:+: ("\");\n" ++ ending).toList := by decide +kernel
  have filled := Filled.hole (free_of_noBraces comment _) isWord named
    (.hole (free_of_noBraces middle _) isWord named (.rest (free_of_noBraces rest _)))
  have text : standardSource.toList = "// ".toList ++ (hole "name" ++
      (("\n" ++ declarations ++ "\n" ++ "print(\"").toList ++ (hole "name" ++
        ("\");\n" ++ ending).toList))) := by
    decide +kernel
  rw [← text] at filled
  rw [fill_of_filled filled, source]
  simp only [← String.toList_append, String.ofList_toList, String.append_assoc]

theorem fill_standardConfig (name : String) : fill name standardConfig = standardConfig := by
  have noBraces : ¬ ['\x7b', '\x7b'] <:+: standardConfig.toList := by decide +kernel
  rw [fill_of_filled (.rest (free_of_noBraces noBraces _)), String.ofList_toList]

/-! ## The program -/

def declared : Program :=
  [.declare "a" (some (.number 3)),
    .declare "b" (some (.binary .sub (.binary .mul (.var "a") (.number 4)) (.number 2)))]

def printed : Program :=
  [.print (.var "b"),
    .branch (.binary .ge (.var "b") (.number 10)) [.printText "\"big\""]
      (some [.printText "\"small\""])]

/-- The program of a new project, which prints its name. -/
def program (name : String) : Program :=
  declared ++ .printText (Text.units ("\"" ++ name ++ "\"")) :: printed

theorem parse_declarations : (parse (.ofText (Text.units declarations)) .empty).1 = .ok declared := by
  with_unfolding_all rfl

theorem parse_ending :
    (parse (.ofText (Text.units ending)) (.ofNames ["a", "b"])).1 = .ok printed := by
  with_unfolding_all rfl

theorem walk_program (name : String) : (program name).walk .empty = (none, .ofNames ["a", "b"]) := by
  with_unfolding_all rfl

/-! ## Names that are one literal between quotes -/

variable {name : String}

/-- A name without a line feed is no more than a comment. -/
theorem scans_comment (h : unit '\n' ∉ Text.units name) : Scans (Text.units ("// " ++ name)) [] := by
  have hb : unit '\n' ∉ unit ' ' :: Text.units name :=
    List.not_mem_cons_of_ne_of_not_mem (by decide) h
  have scans := Scans.nil.trivia (.comment hb (by rintro _ ⟨⟩) .nil)
  rw [List.append_nil, List.append_nil] at scans
  rw [Text.units_append]
  exact scans

theorem units_source (name : String) : Text.units (source name) =
    Text.units ("// " ++ name) ++ unit '\n' :: (Text.units declarations ++ unit '\n' ::
      (Text.units "print(" ++ (Text.units ("\"" ++ name ++ "\"") ++ Text.units ");") ++
        unit '\n' :: Text.units ending)) := by
  have feed : Text.units "\n" = [unit '\n'] := rfl
  have opening : Text.units "print(\"" = Text.units "print(" ++ Text.units "\"" := rfl
  have closing : Text.units "\");\n" = Text.units "\"" ++ (Text.units ");" ++ [unit '\n']) := rfl
  simp only [source, Text.units_append, feed, opening, closing, List.append_assoc, List.cons_append,
    List.nil_append]

/-- **The source of a project whose name is one literal between quotes** is its program. -/
theorem exists_compile_source (h : IsLiteral (Text.units ("\"" ++ name ++ "\""))) :
    ∃ c, (compile (source name) .empty).1 = .ok c ∧ c.program = program name ∧
      c.symbols = ["a", "b"].map Text.units := by
  have hn : unit '\n' ∉ Text.units name := by
    refine fun hm => notMem_of_isLiteral h ?_
    rw [Text.units_append, Text.units_append]
    exact List.mem_append_left _ (List.mem_append_right _ hm)
  obtain ⟨ws, hs, hm, -⟩ := exists_scans_of_parse (Prod.ext parse_declarations rfl)
  obtain ⟨ws', hs', hm', -⟩ := exists_scans_of_parse (Prod.ext parse_ending rfl)
  have scans := (scans_comment hn).lineFeed (hs.lineFeed (scans_print (spells_literal h) hs'))
  rw [← units_source] at scans
  have print := MakesStatement.printText (w := word .print "print") (l := word .lparen "(")
    (t := word .string (Text.units ("\"" ++ name ++ "\""))) (r := word .rparen ")")
    (s := word .semi ";") rfl rfl rfl rfl rfl
  have parsed := parse_of_scans scans (hm.append (.cons print hm')) (walk_program name)
  obtain ⟨c, hc⟩ | ⟨e, he⟩ := compile_ends (source name) .empty
  · obtain ⟨hp, hsym, -⟩ := exists_program_of_compile (Prod.ext hc rfl)
    rw [parsed] at hp
    obtain ⟨hprogram, hscope⟩ := Prod.mk.inj hp
    exact ⟨c, hc, (Except.ok.inj hprogram).symm, by rw [hsym, ← hscope]; rfl⟩
  · have refused := parse_of_compile_error (Prod.ext he rfl)
    rw [parsed] at refused
    cases refused

/-! ## Names without quotes -/

/-- A text that starts with a string is scanned only if that is closed. -/
theorem not_unclosed_of_scans {us : UnitText} {ws : List Word} (h : Scans (unit '"' :: us) ws) :
    ¬ Unclosed us := by
  intro hu
  obtain ⟨ts, last, hp, -⟩ := h .start
  have bare : (Cursor.mk (unit '"' :: us) .start).skipTrivia = ⟨unit '"' :: us, .start⟩ := by
    rw [Cursor.skipTrivia, show triviaLength false (unit '"' :: us) = 0 from rfl, Cursor.skip_zero]
  have left : (Cursor.mk (unit '"' :: us) .start).skipTrivia.rest ≠ [] := by
    rw [bare]
    exact List.cons_ne_nil _ _
  obtain ⟨e, he⟩ := (Cursor.take_longest left).2.mpr (by rw [bare]; exact .inl (.unclosed hu))
  rw [Cursor.pulls, dif_neg left, Cursor.next, he] at hp
  cases ts <;> cases hp

/-- **A name without quotes that is no literal between quotes** leaves the string open. -/
theorem compile_source_error (hq : '"' ∉ name.toList) (h : ¬ IsLiteral (Text.units ("\"" ++ name ++ "\""))) :
    ∃ e, (compile (source name) .empty).1 = .error (.source e) := by
  refine (compile_ends (source name) .empty).resolve_left ?_
  rintro ⟨c, hc⟩
  obtain ⟨hp, -, -⟩ := exists_program_of_compile (Prod.ext hc rfl)
  obtain ⟨ws, scans, -⟩ := exists_scans_of_parse hp
  rw [units_source] at scans
  -- what is scanned is scanned anew behind a line feed and behind a token, so also from the quote on
  obtain ⟨ws, scans⟩ := scans.behind_lineFeed
  obtain ⟨ws, scans⟩ := scans.behind_lineFeed
  have text : Text.units "print(" ++ (Text.units ("\"" ++ name ++ "\"") ++ Text.units ");") ++
      unit '\n' :: Text.units ending =
      unit 'p' :: Text.units "rint" ++ (unit '(' :: [] ++ unit '"' :: (Text.units name ++ unit '"' ::
        (Text.units ");" ++ unit '\n' :: Text.units ending))) := by
    simp only [Text.units_append, List.append_assoc]
    rfl
  rw [text] at scans
  obtain ⟨ws, scans⟩ := scans.behind_token _ rfl rfl
  obtain ⟨ws, scans⟩ := scans.behind_token _ rfl rfl
  have hn : unit '"' ∉ Text.units name := fun hm =>
    hq (Text.mem_of_unit_mem_units (by decide) (by decide) hm)
  have tail : Unclosed (Text.units ");" ++ unit '\n' :: Text.units ending) :=
    .plain (by decide) (.plain (by decide) .lineFeed)
  obtain closed | unclosed := stringRest_or_unclosed (Text.units name) hn tail
  · refine h (isLiteral_iff.mpr ⟨_, ?_, closed.stringBody_eq⟩)
    simp only [Text.units_append, List.append_assoc]
    rfl
  · exact not_unclosed_of_scans scans unclosed

/-! ## The configuration -/

/-- The settings of a new project. -/
def settings : Settings := ⟨some "src/main.mc", some "out", some "gcc", some []⟩

theorem ofJson_standardConfig :
    (Json.ofText? standardConfig).map Settings.ofJson = some (.ok settings) := by
  decide +kernel

theorem load_of_standing {files : FileTree} {here : Path}
    (h : files.standing (here.segments ++ [Text.units configFile]) = .text standardConfig) :
    Config.load files here none = .ok (.ofSettings settings here none) := by
  have read : files.read (here.join (Text.units configFile)) = .ok standardConfig :=
    FileTree.read_eq_ok.mpr (by rw [Settings.join_configFile]; exact ⟨rfl, h⟩)
  obtain ⟨json, hj, ho⟩ := Option.map_eq_some_iff.mp ofJson_standardConfig
  rw [Config.load, Settings.load_of_holds ⟨standardConfig, read, hj⟩, ho]
  rfl

/-- Where the source stands in a new project. -/
def mainFile : List UnitText := ["src", "main.mc"]

theorem entry_settings (here : Path) :
    (Config.ofSettings settings here none).entry = ⟨here.segments ++ mainFile, false⟩ := by
  have pieces : Text.runs (unit '/') (Text.units "src/main.mc") = mainFile := by decide
  have relative : ¬ (Text.units "src/main.mc").head? = some (unit '/') := by decide
  have resolved : here.resolve (Text.units "src/main.mc") = ⟨here.segments ++ mainFile, false⟩ := by
    rw [Path.resolve, if_neg relative, Path.walk, pieces, mainFile, List.foldl_cons, List.foldl_cons,
      List.foldl_nil, Path.step_of_isName (by decide), Path.step_of_isName (by decide),
      List.append_assoc]
    rfl
  exact resolved

end Template

namespace Project

open Template

variable {templates : List Path} {src dir path here : Path} {given : Option String} {w w' : Workspace}

theorem exists_proper_standard : ∃ entries, standard = .dir entries ∧ FileTree.Proper entries :=
  ⟨_, rfl, .file (by decide) rfl (.file (by decide) rfl
    (.dir (by decide) rfl (.file (by decide) rfl .nil) .nil))⟩

section Created

variable (hd : dir.Normal) (ht : templates.find? w.files.exists = some src)
  (template : w.files.find src.segments = .ok standard) (h : create templates given dir w = .ok path w')

include hd ht template h

/-- What a new project of the standard template is made of. -/
theorem standing_of_create :
    w'.files.standing (path.segments ++ [Text.units configFile]) = .text standardConfig ∧
      w'.files.standing (path.segments ++ mainFile) =
        .text (fill (given.getD defaultName) standardSource) := by
  obtain ⟨entries, he, proper⟩ := exists_proper_standard
  have config : standard.standing [Text.units configFile] = .text standardConfig := by decide +kernel
  have source : standard.standing mainFile = .text standardSource := by decide +kernel
  rw [he] at template config source
  obtain ⟨-, created⟩ := created_of_create hd proper ⟨src, ht, template⟩ h
  rw [created.copied, created.copied, config, source, Standing.filled, Standing.filled,
    if_neg (by decide), if_neg (by decide), fill_standardConfig]
  exact ⟨rfl, rfl⟩

/-- How a new project is loaded, wherever its path is written from. -/
theorem load_of_create (hs : here.segments = path.segments) :
    Config.load w'.files here none = .ok (.ofSettings settings here none) ∧
      w'.files.read (Config.ofSettings settings here none).entry =
        .ok (source (given.getD defaultName)) ∧
      load w'.files here none =
        match (compile (source (given.getD defaultName)) .empty).1 with
        | .error e => .error (.ofCompile e)
        | .ok c => .ok (.ofSettings settings here none, c) := by
  obtain ⟨config, main⟩ := standing_of_create hd ht template h
  have configured := load_of_standing (hs ▸ config)
  have read : w'.files.read (Config.ofSettings settings here none).entry =
      .ok (source (given.getD defaultName)) := by
    rw [FileTree.read_eq_ok, entry_settings, hs, ← fill_standardSource]
    exact ⟨rfl, main⟩
  refine ⟨configured, read, ?_⟩
  cases hc : (compile (source (given.getD defaultName)) .empty).1 <;>
    simp only [load_of_config configured, if_pos (exists_of_read read), read, hc]

/-- **A new project of the standard template is configured**, and its name stands in its source as it is.
If the name between quotes is one literal, the source is the program of the template, which prints the
name, and the project can be worked on; otherwise it is not that program, and if the name holds no quote,
it is none at all. -/
theorem valid_of_create (hs : here.segments = path.segments) :
    let name := given.getD defaultName
    let source := fill name standardSource
    (∃ config, Config.load w'.files here none = .ok config ∧
      config.entry = ⟨path.segments ++ mainFile, false⟩ ∧
      w'.files.read config.entry = .ok source) ∧
    (Quoted (Text.units ("\"" ++ name ++ "\"")) → ∃ c, (compile (Text.units source) .empty).1 = .ok c ∧
      c.program = program name ∧ c.symbols = ["a", "b"].map Text.units ∧
      tree here none w' = .ok () { w' with console := withTree c.treeText w'.console } ∧
      emit here none w' = .ok () { w' with console := w'.console.write c.codeText }) ∧
    (∀ c, (compile (Text.units source) .empty).1 = .ok c → c.program = program name →
      Quoted (Text.units ("\"" ++ name ++ "\""))) ∧
    ('"' ∉ name.toList → ¬ Quoted (Text.units ("\"" ++ name ++ "\"")) →
      ∃ e, (compile (Text.units source) .empty).1 = .error (.source e) ∧
        tree here none w' = .error (.compile e) w' ∧ emit here none w' = .error (.compile e) w') := by
  intro name source
  obtain ⟨configured, read, loaded⟩ := load_of_create hd ht template h hs
  have text : source = Template.source name := fill_standardSource name
  rw [text]
  refine ⟨⟨_, configured, hs ▸ entry_settings here, read⟩, fun hq => ?_, fun c hc hp => ?_,
    fun hn hq => ?_⟩
  · obtain ⟨c, hc, hp, hsym⟩ := exists_compile_source (isLiteral_iff_quoted.mpr hq)
    rw [hc] at loaded
    exact ⟨c, hc, hp, hsym, by rw [tree_eq, loaded], by rw [emit_eq, loaded]⟩
  · have sound := sound_of_compile (Prod.ext hc rfl)
    refine sound.texts _ ?_
    rw [hp]
    simp [program, Template.declared, Program.texts, Node.texts]
  · obtain ⟨e, he⟩ := compile_source_error hn (mt isLiteral_iff_quoted.mp hq)
    rw [he] at loaded
    exact ⟨e, he, by rw [tree_eq, loaded]; rfl, by rw [emit_eq, loaded]; rfl⟩

end Created

/-- A workspace with nothing in it but the standard template. -/
def installed : Workspace := ⟨.dir [("template", standard)], .ofScript [], .empty false⟩

/-- Its place. -/
def packaged : Path := ⟨["template"], false⟩

theorem find_packaged : [packaged].find? installed.files.exists = some packaged ∧
    installed.files.find packaged.segments = .ok standard := ⟨by decide +kernel, rfl⟩

theorem normal_root : Path.root.Normal := List.forall_mem_nil _

/-- A plain name. -/
theorem valid_of_create_demo : ∃ path w' c,
    create [packaged] (some "demo") .root installed = .ok path w' ∧
      (compile (fill "demo" standardSource) .empty).1 = .ok c ∧ c.symbols = ["a", "b"].map Text.units ∧
      tree path none w' = .ok () { w' with console := withTree c.treeText w'.console } := by
  have created : (match create [packaged] (some "demo") .root installed with
      | .ok _ _ => true
      | .error _ _ => false) = true := by
    decide +kernel
  split at created
  · next path w' h =>
    have quoted : Quoted (Text.units ("\"" ++ "demo" ++ "\"")) :=
      ⟨[unit 'd', unit 'e', unit 'm', unit 'o', unit '"'], by decide, .plain (by decide) (.plain (by decide)
        (.plain (by decide) (.plain (by decide) .quote)))⟩
    obtain ⟨-, valid, -⟩ := valid_of_create normal_root find_packaged.1 find_packaged.2 h rfl
    obtain ⟨c, hc, -, hsym, htree, -⟩ := valid quoted
    exact ⟨path, w', c, h, hc, hsym, htree⟩
  · cases created

/-- A name with a quote ends the string too early. -/
theorem not_valid_quote : ∃ path w',
    create [packaged] (some "a\"b") .root installed = .ok path w' ∧
      (∀ c, (compile (fill "a\"b" standardSource) .empty).1 ≠ .ok c) ∧
      (∃ e, tree path none w' = .error e w') ∧ ∃ e, emit path none w' = .error e w' := by
  have created : (match create [packaged] (some "a\"b") .root installed with
      | .ok _ _ => true
      | .error _ _ => false) = true := by
    decide +kernel
  have refused : (compile (source "a\"b") .empty).1.isOk = false := by decide +kernel
  split at created
  · next path w' h =>
    obtain ⟨-, -, loaded⟩ := load_of_create normal_root find_packaged.1 find_packaged.2 h rfl
    rw [Option.getD_some] at loaded
    rw [fill_standardSource]
    cases hc : (compile (source "a\"b") .empty).1 with
    | ok c =>
      rw [hc] at refused
      cases refused
    | error e =>
      rw [hc] at loaded
      exact ⟨path, w', h, fun c => nofun, ⟨_, by rw [tree_eq, loaded]⟩, ⟨_, by rw [emit_eq, loaded]⟩⟩
  · cases created

end Project

end IntLang
