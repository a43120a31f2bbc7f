import IntLang.Files.FileTree

/-!
# Project templates

A new project is a copy of a template tree, with placeholders filled in: `name` between double braces
stands for the project's name. A placeholder is two opening braces, a word, and two closing braces.

* `Template.fill` fills the placeholders of a text from left to right, and looks at nothing twice;
* `Template.standard` is the template that comes with the program.
-/

namespace IntLang.Template

/-! ## Placeholders -/

def isWordChar (c : Char) : Bool :=
  ('a' ≤ c && c ≤ 'z') || ('A' ≤ c && c ≤ 'Z') || ('0' ≤ c && c ≤ '9') || c == '_'

/-- The words that stand for something in every project, besides `name`. -/
def builtins : List (String × String) :=
  [("__proto__", "[object Object]"), ("constructor", "function Object() \x7b [native code] \x7d")] ++
    ["__defineGetter__", "__defineSetter__", "__lookupGetter__", "__lookupSetter__", "hasOwnProperty",
      "isPrototypeOf", "propertyIsEnumerable", "toLocaleString", "toString", "valueOf"].map fun word =>
        (word, "function " ++ word ++ "() \x7b [native code] \x7d")

/-- What a word stands for. -/
def meaning? (name : String) (word : String) : Option String :=
  if word = "name" then some name else builtins.lookup word

/-- The word of the placeholder at the front of a text, if there is one. -/
def placeholder? : List Char → Option (List Char)
  | '\x7b' :: '\x7b' :: s =>
    let word := s.takeWhile isWordChar
    if word ≠ [] ∧ (s.drop word.length).take 2 = ['\x7d', '\x7d'] then some word else none
  | _ => none

/-- The text with `skip` characters left out and then all placeholders filled. -/
def fillChars (name : String) (skip : Nat) : List Char → List Char
  | [] => []
  | c :: s =>
    match skip with
    | skip + 1 => fillChars name skip s
    | 0 =>
      match placeholder? (c :: s) with
      | none => c :: fillChars name 0 s
      | some word =>
        match meaning? name (String.ofList word) with
        | none => c :: fillChars name 0 s
        | some text => text.toList ++ fillChars name (word.length + 3) s

def fill (name : String) (text : String) : String := String.ofList (fillChars name 0 text.toList)

/-! ## Files that are left out -/

/-- The name of a file that only keeps its directory in place, and is not copied. -/
def keeper : UnitText := ".gitkeep"

/-! ## The standard template -/

def standardConfig : String :=
  "\x7b\n  \"entry\": \"src/main.mc\",\n  \"out\": \"out\",\n  \"cc\": \"gcc\",\n" ++
    "  \"cflags\": []\n\x7d\n"

def standardSource : String :=
  "// \x7b\x7bname\x7d\x7d\nint a = 3;\nint b = a * 4 - 2;\n\n" ++
    "print(\"\x7b\x7bname\x7d\x7d\");\nprint(b);\n\n" ++
    "if (b >= 10) \x7b\n    print(\"big\");\n\x7d else \x7b\n    print(\"small\");\n\x7d\n"

def standard : FileTree := .dir
  [(".gitignore", .file "out/\n"), ("minic.config.json", .file standardConfig),
    ("src", .dir [("main.mc", .file standardSource)])]

end IntLang.Template
