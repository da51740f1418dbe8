/-!
# The words of the language

Which words C and C++ reserve, and the part that some of them play in a declaration. A word is given
by its characters.
-/

namespace EastConst.Vocabulary

/-- The words reserved in C++20, the underscored ones of C11, and `restrict`. -/
def keywords : List (List Char) :=
  ["alignas", "alignof", "and", "and_eq", "asm", "auto", "bitand", "bitor", "bool", "break", "case",
   "catch", "char", "char8_t", "char16_t", "char32_t", "class", "compl", "concept", "const",
   "consteval", "constexpr", "constinit", "const_cast", "continue", "co_await", "co_return",
   "co_yield", "decltype", "default", "delete", "do", "double", "dynamic_cast", "else", "enum",
   "explicit", "export", "extern", "false", "float", "for", "friend", "goto", "if", "inline", "int",
   "long", "mutable", "namespace", "new", "noexcept", "not", "not_eq", "nullptr", "operator", "or",
   "or_eq", "private", "protected", "public", "register", "reinterpret_cast", "requires",
   "restrict", "return", "short", "signed", "sizeof", "static", "static_assert", "static_cast",
   "struct", "switch", "template", "this", "thread_local", "throw", "true", "try", "typedef",
   "typeid", "typename", "union", "unsigned", "using", "virtual", "void", "volatile", "wchar_t",
   "while", "xor", "xor_eq", "_Alignas", "_Alignof", "_Atomic", "_Bool", "_Complex", "_Generic",
   "_Noreturn", "_Static_assert", "_Thread_local"].map String.toList

/-- The words that make up a fundamental type, alone or in runs such as `unsigned long long`. -/
def builtinTypes : List (List Char) :=
  ["void", "bool", "char", "char8_t", "char16_t", "char32_t", "wchar_t", "short", "int", "long",
   "signed", "unsigned", "float", "double", "auto", "_Bool", "_Complex", "__int128"].map
    String.toList

/-- The specifiers that may stand between a leading qualifier and its type. -/
def specifiers : List (List Char) :=
  ["static", "extern", "mutable", "inline", "constexpr", "consteval", "constinit", "thread_local",
   "_Thread_local", "register", "typedef", "friend", "virtual", "explicit", "_Noreturn"].map
    String.toList

/-- The words that introduce the name of a type, as in `struct S`. -/
def elaborators : List (List Char) :=
  ["struct", "class", "union", "enum", "typename"].map String.toList

/-- The words of named casts. -/
def casts : List (List Char) :=
  ["static_cast", "const_cast", "reinterpret_cast", "dynamic_cast"].map String.toList

/-- The qualifiers, those that are never moved among them. -/
def qualifiers : List (List Char) :=
  ["const", "volatile", "restrict", "_Atomic"].map String.toList

/-- Whether the language reserves a word. -/
def isKeyword (word : List Char) : Bool := keywords.contains word

/-- Whether a word is part of a fundamental type. -/
def isBuiltinType (word : List Char) : Bool := builtinTypes.contains word

/-- Whether a word is a declaration specifier. -/
def isSpecifier (word : List Char) : Bool := specifiers.contains word

/-- Whether a word introduces the name of a type. -/
def isElaborator (word : List Char) : Bool := elaborators.contains word

/-- Whether a word is a named cast. -/
def isCast (word : List Char) : Bool := casts.contains word

/-- Whether a word is a qualifier. -/
def isQualifier (word : List Char) : Bool := qualifiers.contains word

/-- A part that a word can play. -/
inductive Tag where
  | keyword | builtin | specifier | elaborated | cast | cv
  deriving DecidableEq, Repr

/-- The name of a part. -/
def Tag.name : Tag → String
  | .keyword => "keyword"
  | .builtin => "builtin"
  | .specifier => "specifier"
  | .elaborated => "elaborated"
  | .cast => "cast"
  | .cv => "cv"

/-- The words that play a part. -/
def Tag.words : Tag → List (List Char)
  | .keyword => keywords
  | .builtin => builtinTypes
  | .specifier => specifiers
  | .elaborated => elaborators
  | .cast => casts
  | .cv => qualifiers

/-- The parts that a word plays. -/
def tags (word : List Char) : List Tag :=
  [.keyword, .builtin, .specifier, .elaborated, .cast, .cv].filter (·.words.contains word)

end EastConst.Vocabulary
