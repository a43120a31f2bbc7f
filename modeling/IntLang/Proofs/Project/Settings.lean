import IntLang.Proofs.Project.Loading
import IntLang.Proofs.Project.Paths

/-!
# Settings and what they depend on

The configuration file of a directory is checked before anything is made of it, and of all it holds
four keys count.

* `Settings.load_congr`: what is loaded depends on what stands in one place;
* `Settings.Malformed`: all that can be wrong with a configuration file, and in which order it is found;
* `Path.Normalized`: texts of absolute paths in normal form;
* **`configuration_of_load`**: when a configuration is loaded, what its paths are like, and which
  settings do not matter.
-/

namespace IntLang

/-! ## Written paths -/

namespace Path

/-- An absolute path in normal form, as it is written: the root, or names behind slashes. -/
structure Normalized (text : UnitText) : Prop where
  absolute : text.head? = some (unit '/')
  names : text.tail = [] ∨ ∀ name ∈ Text.runs (unit '/') text.tail, IsName name

end Path

namespace Path

variable {p : Path}

theorem Normal.normalized (h : p.Normal) (hs : p.slash = false) : Normalized p.units := by
  have written : p.units = unit '/' :: [unit '/'].intercalate p.segments := by simp [units, hs]
  rw [written]
  refine ⟨rfl, ?_⟩
  rw [List.tail_cons]
  by_cases hn : p.segments = []
  · exact .inl (by rw [hn]; rfl)
  · rw [Text.runs_intercalate hn fun name hm => (h name hm).noSlash]
    exact .inr h

end Path

/-! ## Members -/

theorem bind_eq_error {ε α β : Type} {x : Except ε α} {f : α → Except ε β} {e : ε} :
    (x >>= f) = .error e ↔ x = .error e ∨ ∃ a, x = .ok a ∧ f a = .error e := by
  cases x <;> simp [bind, Except.bind]

namespace Settings

variable {members members' : List (UnitText × Json)} {key : String} {e : ConfigError}

/-- A key has a text for its value, if it has any. -/
def IsText (members : List (UnitText × Json)) (key : String) : Prop :=
  ∀ value, Json.member? members key = some value → ∃ s, value = .string s

/-- A key has a list of texts for its value, if it has any. -/
def IsTexts (members : List (UnitText × Json)) (key : String) : Prop :=
  ∀ value, Json.member? members key = some value → ∃ ss : List UnitText, value = .array (ss.map .string)

theorem stringOf_eq_some {value : Json} {s : UnitText} :
    stringOf value = some s ↔ value = .string s := by
  cases value <;> simp [stringOf]

theorem mapM_stringOf_eq_some {items : List Json} {ss : List UnitText} :
    items.mapM stringOf = some ss ↔ items = ss.map .string := by
  induction items generalizing ss with
  | nil => cases ss <;> simp
  | cons item items ih =>
    rw [List.mapM_cons]
    cases ss <;> simp [bind, Option.bind_eq_some_iff, stringOf_eq_some, ih]

theorem stringsOf_eq_some {value : Json} {ss : List UnitText} :
    stringsOf value = some ss ↔ value = .array (ss.map .string) := by
  cases value <;> simp [stringsOf, mapM_stringOf_eq_some]

/-- **A value that is not a text is reported with its key**, and nothing else is. -/
theorem stringAt_eq_error :
    stringAt members key = .error e ↔ e = .notString key ∧ ¬ IsText members key := by
  unfold stringAt IsText
  cases Json.member? members key with
  | none => simp
  | some value =>
    simp only [Option.some.injEq, forall_eq', ← stringOf_eq_some]
    cases stringOf value <;> simp [eq_comm]

theorem stringsAt_eq_error :
    stringsAt members key = .error e ↔ e = .notStrings key ∧ ¬ IsTexts members key := by
  unfold stringsAt IsTexts
  cases Json.member? members key with
  | none => simp
  | some value =>
    simp only [Option.some.injEq, forall_eq', ← stringsOf_eq_some]
    cases stringsOf value <;> simp [eq_comm]

theorem exists_stringAt : (∃ s, stringAt members key = .ok s) ↔ IsText members key := by
  have fails : (∃ e, stringAt members key = .error e) ↔ ¬ IsText members key := by
    simp [stringAt_eq_error]
  cases h : stringAt members key with
  | error e => simpa [h] using fails
  | ok s => simpa [h] using fails

/-- The keys are checked one after another. -/
theorem ofJson_object_eq_error : ofJson (.object members) = .error e ↔
    e = .notString "entry" ∧ ¬ IsText members "entry" ∨
      IsText members "entry" ∧ (e = .notString "out" ∧ ¬ IsText members "out" ∨
        IsText members "out" ∧ (e = .notString "cc" ∧ ¬ IsText members "cc" ∨
          IsText members "cc" ∧ e = .notStrings "cflags" ∧ ¬ IsTexts members "cflags")) := by
  unfold ofJson
  simp only [bind_eq_error, stringAt_eq_error, stringsAt_eq_error]
  simp [pure, Except.pure, exists_stringAt]

/-- Two objects have the same values at some keys, or lack the same of them. -/
def Agree (keys : List String) (members members' : List (UnitText × Json)) : Prop :=
  ∀ key ∈ keys, Json.member? members (Text.units key) = Json.member? members' (Text.units key)

section Agree

variable {keys : List String} (h : Agree keys members members')

include h

theorem Agree.stringAt_eq (hk : key ∈ keys) : stringAt members key = stringAt members' key := by
  rw [stringAt, stringAt, h key hk]

theorem Agree.stringsAt_eq (hk : key ∈ keys) : stringsAt members key = stringsAt members' key := by
  rw [stringsAt, stringsAt, h key hk]

end Agree

/-- What is made of an object depends on the four keys. -/
theorem ofJson_congr (h : Agree ["entry", "out", "cc", "cflags"] members members') :
    ofJson (.object members) = ofJson (.object members') := by
  rw [ofJson, ofJson, h.stringAt_eq (by simp), h.stringAt_eq (by simp), h.stringAt_eq (by simp),
    h.stringsAt_eq (by simp)]

/-! ## The configuration file -/

variable {files files' : FileTree} {dir : Path} {file : Option String} {json : Json}

/-- The configuration file of a directory holds a value. -/
def Holds (files : FileTree) (dir : Path) (json : Json) : Prop :=
  ∃ text, files.read (dir.join configFile) = .ok text ∧ Json.ofText? text = some json

/-- What can be wrong with the configuration file of a directory, with its report. -/
inductive Malformed (files : FileTree) (dir : Path) : ConfigError → Prop
  | unreadable {fault : FileFault} (hx : files.exists (dir.join configFile) = true)
    (hr : files.read (dir.join configFile) = .error fault) :
    Malformed files dir (.invalidJson (.unread fault))
  | notJson {text : String} (hr : files.read (dir.join configFile) = .ok text)
    (h : Json.ofText? text = none) : Malformed files dir (.invalidJson (.malformed text))
  | notObject {json : Json} (hj : Holds files dir json) (h : ∀ members, json ≠ .object members) :
    Malformed files dir .notObject
  | notString {members : List (UnitText × Json)} {key : String} (hk : key ∈ ["entry", "out", "cc"])
    (hj : Holds files dir (.object members)) (h : ¬ IsText members key) :
    Malformed files dir (.notString key)
  | notStrings {members : List (UnitText × Json)} (hj : Holds files dir (.object members))
    (h : ¬ IsTexts members "cflags") : Malformed files dir (.notStrings "cflags")

/-- Why a configuration file gives no JSON, if it gives none. -/
def cause (files : FileTree) (dir : Path) : NoJson :=
  match files.read (dir.join configFile) with
  | .error fault => .unread fault
  | .ok text => .malformed text

theorem cause_of_error {fault : FileFault} (h : files.read (dir.join configFile) = .error fault) :
    cause files dir = .unread fault := by
  rw [cause, h]

theorem cause_of_ok {text : String} (h : files.read (dir.join configFile) = .ok text) :
    cause files dir = .malformed text := by
  rw [cause, h]

/-- The order in which reports are thought of. -/
def reports (files : FileTree) (dir : Path) : List ConfigError :=
  [.invalidJson (cause files dir), .notObject, .notString "entry", .notString "out", .notString "cc",
    .notStrings "cflags"]

theorem Malformed.mem_reports (h : Malformed files dir e) : e ∈ reports files dir := by
  cases h with
  | unreadable _ hr => simp [reports, cause_of_error hr]
  | notJson hr => simp [reports, cause_of_ok hr]
  | notString hk => revert hk; simp [reports]
  | _ => simp [reports]

theorem Holds.unique {json' : Json} (h : Holds files dir json) (h' : Holds files dir json') :
    json = json' := by
  obtain ⟨text, hr, hj⟩ := h
  obtain ⟨text', hr', hj'⟩ := h'
  obtain rfl := Except.ok.inj (hr.symm.trans hr')
  exact Option.some.inj (hj.symm.trans hj')

theorem Holds.exists (h : Holds files dir json) : files.exists (dir.join configFile) = true := by
  obtain ⟨text, hr, -⟩ := h
  exact Project.exists_of_read hr

theorem Holds.not_invalidJson (h : Holds files dir json) (cause : NoJson) :
    ¬ Malformed files dir (.invalidJson cause) := by
  obtain ⟨text, hr, hj⟩ := h
  rintro (⟨-, hr'⟩ | ⟨hr', hn⟩)
  · rw [hr] at hr'
    cases hr'
  · obtain rfl := Except.ok.inj (hr.symm.trans hr')
    rw [hj] at hn
    cases hn

theorem load_of_absent (h : files.exists (dir.join configFile) = false) :
    load files dir = .ok {} := by
  rw [load, h]
  rfl

theorem load_of_holds (h : Holds files dir json) : load files dir = ofJson json := by
  have hx := h.exists
  obtain ⟨text, hr, hj⟩ := h
  rw [load, if_pos hx, hr]
  dsimp only
  rw [hj]

/-- There is no configuration file, or it is no JSON, or it holds a value. -/
theorem found (files : FileTree) (dir : Path) :
    files.exists (dir.join configFile) = false ∨
      Malformed files dir (.invalidJson (cause files dir)) ∧
          load files dir = .error (.invalidJson (cause files dir)) ∨
        ∃ json, Holds files dir json := by
  cases hx : files.exists (dir.join configFile) with
  | false => exact .inl rfl
  | true =>
    right
    cases hr : files.read (dir.join configFile) with
    | error fault =>
      rw [cause_of_error hr]
      refine .inl ⟨.unreadable hx hr, ?_⟩
      rw [load, if_pos hx, hr]
    | ok text =>
      cases hj : Json.ofText? text with
      | none =>
        rw [cause_of_ok hr]
        refine .inl ⟨.notJson hr hj, ?_⟩
        rw [load, if_pos hx, hr]
        dsimp only
        rw [hj]
      | some json => exact .inr ⟨json, text, hr, hj⟩

theorem isName_configFile : Path.IsName (Text.units configFile) := by decide

theorem join_configFile (dir : Path) :
    dir.join configFile = ⟨dir.segments ++ [Text.units configFile], false⟩ :=
  Path.join_of_isName isName_configFile dir

/-- **The settings depend on what stands in one place.** -/
theorem load_congr (h : files'.standing (dir.segments ++ [Text.units configFile]) =
    files.standing (dir.segments ++ [Text.units configFile])) : load files' dir = load files dir := by
  rw [load, load, join_configFile, FileTree.exists_congr rfl h]
  split
  · next hx => rw [FileTree.read_congr rfl h hx]
  · rfl

/-! ## Reports -/

/-- The first of a list that has a property. -/
def IsFirst {α : Type} (P : α → Prop) : List α → α → Prop
  | [], _ => False
  | y :: ys, x => P y ∧ x = y ∨ ¬ P y ∧ IsFirst P ys x

theorem IsFirst.holds {α : Type} {P : α → Prop} {ys : List α} {x : α} (h : IsFirst P ys x) : P x := by
  induction ys with
  | nil => exact h.elim
  | cons y ys ih =>
    obtain ⟨hy, rfl⟩ | ⟨-, h⟩ := h
    · exact hy
    · exact ih h

theorem exists_isFirst {α : Type} {P : α → Prop} {ys : List α} {y : α} (hy : P y) (hm : y ∈ ys) :
    ∃ x, IsFirst P ys x := by
  induction ys with
  | nil => cases hm
  | cons z ys ih =>
    by_cases hz : P z
    · exact ⟨z, .inl ⟨hz, rfl⟩⟩
    · obtain rfl | hm := List.mem_cons.mp hm
      · exact absurd hy hz
      · obtain ⟨x, hx⟩ := ih hm
        exact ⟨x, .inr ⟨hz, hx⟩⟩

/-- **A configuration file is refused with the first report that is true of it.** -/
theorem load_eq_error :
    load files dir = .error e ↔ IsFirst (Malformed files dir) (reports files dir) e := by
  obtain absent | ⟨invalid, refused⟩ | ⟨json, held⟩ := found files dir
  · rw [load_of_absent absent]
    refine iff_of_false nofun fun h => ?_
    cases h.holds with
    | unreadable hx => rw [absent] at hx; cases hx
    | notJson hr => rw [Project.exists_of_read hr] at absent; cases absent
    | notObject hj | notString _ hj | notStrings hj => rw [hj.exists] at absent; cases absent
  · rw [refused, reports, IsFirst]
    simp [invalid, eq_comm]
  · rw [load_of_holds held, reports, IsFirst, IsFirst]
    have valid := held.not_invalidJson (cause files dir)
    by_cases ho : ∃ members, json = .object members
    · obtain ⟨members, rfl⟩ := ho
      have object : ¬ Malformed files dir .notObject := by
        intro h
        cases h with
        | notObject hj hn => exact hn members (held.unique hj).symm
      have string (key : String) (hk : key ∈ ["entry", "out", "cc"]) :
          Malformed files dir (.notString key) ↔ ¬ IsText members key := by
        refine ⟨?_, .notString hk held⟩
        intro h
        cases h with
        | notString _ hj h =>
          cases held.unique hj
          exact h
      have strings : Malformed files dir (.notStrings "cflags") ↔ ¬ IsTexts members "cflags" := by
        refine ⟨?_, .notStrings held⟩
        intro h
        cases h with
        | notStrings hj h =>
          cases held.unique hj
          exact h
      rw [ofJson_object_eq_error]
      simp [IsFirst, valid, object, string, strings, and_comm]
    · have object : Malformed files dir .notObject := .notObject held fun members hm => ho ⟨members, hm⟩
      have refused : ofJson json = .error .notObject := by
        cases json with
        | object members => exact absurd ⟨members, rfl⟩ ho
        | _ => rfl
      simp [refused, valid, object, eq_comm]

/-- The members that count in a directory; a directory without a configuration file has none. -/
inductive Configures (files : FileTree) (dir : Path) : List (UnitText × Json) → Prop
  | absent (h : files.exists (dir.join configFile) = false) : Configures files dir []
  | held {members : List (UnitText × Json)} (h : Holds files dir (.object members)) :
    Configures files dir members

theorem load_of_configures (h : Configures files dir members) :
    load files dir = ofJson (.object members) := by
  cases h with
  | absent h => exact load_of_absent h
  | held h => exact load_of_holds h

end Settings

/-! ## Configurations -/

namespace Config

open Settings

variable {files files' : FileTree} {cwd : UnitText} {dir : Path} {file : Option String}
  {members members' : List (UnitText × Json)}

theorem load_eq_error {e : ConfigError} :
    load files dir file = .error e ↔ Settings.load files dir = .error e := by
  rw [load]
  cases Settings.load files dir <;> simp [Except.map]

theorem normal_out {c : Config} (h : load files (.ofText cwd) file = .ok c) : c.out.Normal := by
  rw [load] at h
  cases hs : Settings.load files (.ofText cwd) with
  | error e => rw [hs] at h; cases h
  | ok settings =>
    rw [hs] at h
    cases h
    have normal := Path.normal_ofText cwd
    unfold ofSettings
    dsimp only
    split
    · have entry := Path.normal_resolve normal
      exact Path.normal_join (fun name hm => entry _ name (List.dropLast_subset _ hm)) _
    · exact Path.normal_resolve normal _

/-- A file that is named makes the entry of the settings idle. -/
theorem ofSettings_entry {name : String} (h : name ≠ "") (settings : Settings) (dir : Path)
    (entry : Option UnitText) :
    ofSettings { settings with entry } dir (some name) = ofSettings settings dir (some name) := by
  have kept : (some name).filter (· ≠ "") = some name := by simp [h]
  simp only [ofSettings, kept]
  rfl

/-- **Where a file is named, the entry of the settings counts for nothing** as long as it is a text. -/
theorem map_ofJson_congr {name : String} (hn : name ≠ "") (dir : Path)
    (h : Agree ["out", "cc", "cflags"] members members') (he : IsText members "entry")
    (he' : IsText members' "entry") :
    (ofJson (.object members)).map (ofSettings · dir (some name)) =
      (ofJson (.object members')).map (ofSettings · dir (some name)) := by
  obtain ⟨entry, hentry⟩ := exists_stringAt.mpr he
  obtain ⟨entry', hentry'⟩ := exists_stringAt.mpr he'
  rw [ofJson, ofJson, hentry, hentry', h.stringAt_eq (by simp), h.stringAt_eq (by simp),
    h.stringsAt_eq (by simp)]
  cases stringAt members' "out" with
  | error e => rfl
  | ok out =>
    cases stringAt members' "cc" with
    | error e => rfl
    | ok compiler =>
      cases stringsAt members' "cflags" with
      | error e => rfl
      | ok flags =>
        exact congrArg Except.ok (ofSettings_entry hn ⟨entry', out, compiler, flags⟩ dir entry)

/-- **How a directory is configured**, whatever stands in it and whichever file is named. It is refused
exactly if something is wrong with its configuration file, with the first report that is true. Otherwise
the paths are in normal form and the name is one name; and of all that the file holds, the four keys
count, or three of them if a file is named. -/
theorem configuration_of_load (cwd : UnitText) (file : Option String) (files : FileTree) :
    ((∃ e, load files (.ofText cwd) file = .error e) ↔ ∃ e, Malformed files (.ofText cwd) e) ∧
    (∀ e, load files (.ofText cwd) file = .error e ↔
      IsFirst (Malformed files (.ofText cwd)) (reports files (.ofText cwd)) e) ∧
    (∀ c, load files (.ofText cwd) file = .ok c →
      Path.Normalized c.entry.units ∧ Path.Normalized c.out.units ∧ unit '/' ∉ c.name) ∧
    ∀ files' members members', Configures files (.ofText cwd) members →
      Configures files' (.ofText cwd) members' →
      (Agree ["entry", "out", "cc", "cflags"] members members' →
        load files (.ofText cwd) file = load files' (.ofText cwd) file) ∧
      ∀ name, file = some name → name ≠ "" → IsText members "entry" → IsText members' "entry" →
        Agree ["out", "cc", "cflags"] members members' →
        load files (.ofText cwd) file = load files' (.ofText cwd) file := by
  have reported (e : ConfigError) : load files (.ofText cwd) file = .error e ↔
      IsFirst (Malformed files (.ofText cwd)) (reports files (.ofText cwd)) e :=
    load_eq_error.trans Settings.load_eq_error
  refine ⟨⟨fun ⟨e, h⟩ => ⟨e, ((reported e).mp h).holds⟩, fun ⟨e, h⟩ => ?_⟩, reported, fun c h => ?_, ?_⟩
  · obtain ⟨first, hf⟩ := exists_isFirst h h.mem_reports
    exact ⟨first, (reported first).mpr hf⟩
  · have placed := placed_of_load h
    exact ⟨placed.entry.normalized placed.entrySlash, (normal_out h).normalized placed.outSlash,
      placed.noSlash⟩
  · intro files' members members' h h'
    rw [load, load, load_of_configures h, load_of_configures h']
    refine ⟨fun agree => by rw [ofJson_congr agree], ?_⟩
    rintro name rfl hn he he' agree
    exact map_ofJson_congr hn _ agree he he'

/-- A configuration file with an entry and a key of no meaning. -/
def idleConfig : String := "\x7b\"entry\":\"a.mc\",\"x\":1\x7d"

/-- Where a file is named, it may as well be missing. -/
theorem configuration_of_load_named :
    load (.directory [(configFile, idleConfig)]) (.ofText (Text.units "/w")) (some "main.mc") =
      load (.directory []) (.ofText (Text.units "/w")) (some "main.mc") := by
  have held : Holds (.directory [(configFile, idleConfig)]) (.ofText (Text.units "/w"))
      (.object [(Text.units "entry", .string (Text.units "a.mc")), (Text.units "x", .number "1")]) :=
    ⟨idleConfig, by decide +kernel, by with_unfolding_all rfl⟩
  have absent : Configures (.directory []) (.ofText (Text.units "/w")) [] :=
    .absent (by decide +kernel)
  obtain ⟨-, -, -, same⟩ := configuration_of_load (Text.units "/w") (some "main.mc")
    (.directory [(configFile, idleConfig)])
  refine (same _ _ _ (.held held) absent).2 "main.mc" rfl (by decide) ?_ nofun ?_
  · rintro value h
    exact ⟨_, (Option.some.inj h).symm⟩
  · simp only [Agree, List.forall_mem_cons]
    exact ⟨rfl, rfl, rfl, fun _ hm => absurd hm List.not_mem_nil⟩

end Config

end IntLang
