/-! Places in a text, as an editor counts them. -/
namespace KernelGuard

/-- A line and a column, both counted from one. -/
structure Position where
  line : Nat
  column : Nat
deriving DecidableEq, Repr

namespace Position

/-- The place right behind some text. Only a line feed ends a line, and columns
count characters. -/
def behind (text : List Char) : Position :=
  ⟨text.count '\n' + 1, (text.reverse.takeWhile (· ≠ '\n')).length + 1⟩

/-- The place in a text at which a given number of characters is left. -/
def ofMark (text : List Char) (mark : Nat) : Position :=
  behind (text.take (text.length - mark))

/-- The place behind one more character. -/
def past (position : Position) (c : Char) : Position :=
  if c = '\n' then ⟨position.line + 1, 1⟩ else ⟨position.line, position.column + 1⟩

def text (position : Position) : String :=
  toString position.line ++ ":" ++ toString position.column

end Position

end KernelGuard
