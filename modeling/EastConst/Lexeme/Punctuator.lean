/-!
# Punctuators

The operators and brackets of the language. At each place the longest spelling wins, so `->*` is one
punctuator and `..` is two.
-/

namespace EastConst.Lexeme.Punctuator

/-- The spellings of all punctuators. -/
def spellings : List (List Char) :=
  [['\x7b'], ['\x7d'], ['['], [']'], ['('], [')'], [';'], [':'], [':', ':'], ['.', '.', '.'],
   ['?'], ['.'], ['.', '*'], ['-', '>'], ['-', '>', '*'], [','], ['+'], ['-'], ['*'], ['/'],
   ['%'], ['^'], ['&'], ['|'], ['~'], ['!'], ['='], ['<'], ['>'], ['+', '='], ['-', '='],
   ['*', '='], ['/', '='], ['%', '='], ['^', '='], ['&', '='], ['|', '='], ['<', '<'], ['>', '>'],
   ['<', '<', '='], ['>', '>', '='], ['=', '='], ['!', '='], ['<', '='], ['>', '='],
   ['<', '=', '>'], ['&', '&'], ['|', '|'], ['+', '+'], ['-', '-'], ['#'], ['#', '#']]

/-- The length of the longest punctuator at the start of a text, zero if there is none. -/
def length (text : List Char) : Nat :=
  ((spellings.filter (·.isPrefixOf text)).map List.length).foldl max 0

end EastConst.Lexeme.Punctuator
