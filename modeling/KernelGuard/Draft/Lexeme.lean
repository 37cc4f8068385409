import KernelGuard.Draft.Reader

/-! The words of the kernel language and the gaps between them. A gap is any
run of blanks and comments; every lexeme lets one stand in front of it and none
inside. -/
namespace KernelGuard.Lexeme

open Reader

/-- The four blank characters. -/
def isBlank (c : Char) : Bool := c = ' ' || c = '\t' || c = '\r' || c = '\n'

/-- The letters of names: ASCII letters and digits, `_`, `.` and `$`. -/
def isNameChar (c : Char) : Bool := c.isAlphanum || c = '_' || c = '.' || c = '$'

/-- The letters that a type or an operator may not be followed by. -/
def isWordChar (c : Char) : Bool := c.isAlphanum || c = '_' || c = '.'

/-- What is left behind a gap. A comment runs from a semicolon to the next line
feed, which is itself a blank. -/
def dropGap (inComment : Bool) : List Char → List Char
  | [] => []
  | c :: rest =>
    if inComment then dropGap (c ≠ '\n') rest
    else if isBlank c then dropGap false rest
    else if c = ';' then dropGap true rest
    else c :: rest

/-- A gap, maybe empty. -/
def gap : Reader Unit := fun text => some ((), dropGap false text)

/-- A punctuation mark. -/
def symbol (expected : Char) : Reader Unit := do
  gap
  char expected

/-- A word of the language that may run into what follows. -/
def keyword (word : String) : Reader Unit := do
  gap
  exactly word

/-- A word that stands alone and is found in a table. -/
def tabled {α : Type} (table : String → Option α) : Reader α := do
  gap
  mapped (takeWhile isWordChar) fun word => table (String.ofList word)

/-- The spelling of a name. -/
def spelling : Reader String := do
  let letters ← takeWhile1 isNameChar
  return String.ofList letters

/-- A name right behind its sigil. -/
def sigiled (sigil : Char) : Reader String := do
  symbol sigil
  spelling

/-- A local name. -/
def localName : Reader String := sigiled '%'

/-- A global name. -/
def globalName : Reader String := sigiled '@'

/-- The label in front of a block, with its colon. -/
def blockLabel : Reader String := do
  gap
  let label ← spelling
  char ':'
  return label

/-- The digits of a numeral. -/
def digits : Reader (List Char) := takeWhile1 Char.isDigit

/-- A given character, kept. -/
def kept (expected : Char) : Reader (List Char) := do
  char expected
  return [expected]

/-- The sign in front of a numeral. -/
def minus : Reader (List Char) := (kept '-').orElse (pure [])

/-- The exponent of a numeral with its letter. -/
def exponent : Reader (List Char) := do
  let letter ← (kept 'e').orElse (kept 'E')
  let sign ← ((kept '+').orElse (kept '-')).orElse (pure [])
  let power ← digits
  return letter ++ sign ++ power

/-- A point with maybe no digits and maybe an exponent. -/
def pointed : Reader (List Char) := do
  let point ← kept '.'
  let places ← takeWhile Char.isDigit
  let power ← exponent.orElse (pure [])
  return point ++ places ++ power

/-- The part of a numeral that makes it no integer. -/
def fraction : Reader (List Char) := pointed.orElse exponent

/-- A numeral and whether it is written as an integer. -/
def numeral : Reader (Bool × String) := do
  gap
  let sign ← minus
  let whole ← digits
  let part ← fraction.optional
  match part with
  | some part => return (false, String.ofList (sign ++ whole ++ part))
  | none => return (true, String.ofList (sign ++ whole))

/-- A truth value. -/
def truth : Reader Bool :=
  tabled fun word =>
    if word = "true" then some true
    else if word = "false" then some false
    else none

end KernelGuard.Lexeme
