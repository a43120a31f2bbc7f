import IntLang.Text.CodeUnit

/-!
# Names in C

C and the two headers own some names, and names that start with an underscore and a capital letter
or a second underscore. A program's name that is one of them gets the mark `v_` in front; so does
every name that already starts with the mark, so two names never meet.

* `cName` is the name in C of a name of a program.
-/

namespace IntLang.CUnit

/-- The words of C, and what the headers define. -/
def reserved : List String :=
  ["auto", "break", "case", "char", "const", "continue", "default", "do",
    "double", "else", "enum", "extern", "float", "for", "goto", "if",
    "inline", "int", "long", "register", "restrict", "return", "short", "signed",
    "sizeof", "static", "struct", "switch", "typedef", "union", "unsigned", "void",
    "volatile", "while",
    "alignas", "alignof", "bool", "constexpr", "false", "nullptr", "static_assert",
    "thread_local", "true", "typeof", "typeof_unqual", "asm",
    "main", "printf",
    "NULL", "EOF", "BUFSIZ", "FILENAME_MAX", "FOPEN_MAX", "L_tmpnam", "TMP_MAX",
    "SEEK_SET", "SEEK_CUR", "SEEK_END", "stdin", "stdout", "stderr",
    "EXIT_SUCCESS", "EXIT_FAILURE", "RAND_MAX", "MB_CUR_MAX",
    "unix", "linux", "i386"]

/-- The mark starts the name, or an underscore does with a capital letter or another one behind. -/
def marked : UnitText → Bool
  | u :: v :: _ =>
    (u == unit 'v' && v == unit '_') ||
      (u == unit '_' && (v == unit '_' || (unit 'A' ≤ v && v ≤ unit 'Z')))
  | _ => false

def cName (name : UnitText) : UnitText :=
  if (reserved.map Text.units).contains name || marked name then "v_" ++ name else name

end IntLang.CUnit
