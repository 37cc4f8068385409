import KernelGuard.Draft.Position
import KernelGuard.Draft.Probe
import KernelGuard.IR.Operator

/-! What a text that the grammar does not fit should have gone on with. The
grammar is walked once more, one probe for each of its symbols, and the symbols
missed at the furthest place explain the misfit. -/
namespace KernelGuard

/-- Where the grammar and a text part, the line there, and what was expected. -/
structure Misfit where
  position : Position
  line : String
  expected : List GrammarSymbol
deriving DecidableEq, Repr

namespace Expectation

open Reader Probe

/-- A word that stands alone. -/
def word (symbol : GrammarSymbol) (table : String → Bool) : Probe :=
  .symbol symbol <| plain <| mapped (takeWhile Lexeme.isWordChar) fun letters =>
    if table (String.ofList letters) then some () else none

/-- A single character. -/
def punctuation (c : Char) : Probe := plain (char c)

/-- A word that may run into what follows. -/
def keyword (text : String) : Probe := plain (exactly text)

def spelling : Probe := .symbol .spelling (plain Lexeme.spelling)

def localName : Probe := .symbol .localName ((punctuation '%').join spelling)

def globalName : Probe := .symbol .globalName ((punctuation '@').join spelling)

def blockLabel : Probe := .symbol .blockLabel (spelling.join (punctuation ':'))

def void : Probe := word .void (· = "void")

def type : Probe :=
  .symbol .type <| choice
    [word .i1 (· = "i1"), word .i32 (· = "i32"), word .i64 (· = "i64"),
      word .float (· = "float"), word .double (· = "double"), word .ptr (· = "ptr"), void]

/-- The sign and the digits that every numeral begins with. -/
def whole : Reader (List Char) := do
  let _ ← Lexeme.minus
  Lexeme.digits

def decimal : Probe :=
  .symbol .decimal <| plain do
    let _ ← whole
    Lexeme.fraction

def integer : Probe := .symbol .integer (plain whole)

def truth : Probe := word .truth fun letters => letters = "true" || letters = "false"

def operand : Probe :=
  .symbol .operand (choice [decimal, integer, truth, localName, globalName])

def constant : Probe := .symbol .constant (choice [decimal, integer, truth])

def arithOp : Probe := word .arithOp fun letters => (ArithOp.ofText? letters).isSome

def compareKind : Probe := word .compareKind fun letters => (CompareKind.ofText? letters).isSome

def predicate : Probe := word .predicate fun letters => (Predicate.ofText? letters).isSome

def convertOp : Probe := word .convertOp fun letters => (ConvertOp.ofText? letters).isSome

def comma : Probe := punctuation ','

def equals : Probe := punctuation '='

def arith : Probe :=
  .symbol .arith (sequence [localName, equals, arithOp, type, operand, comma, operand])

def compare : Probe :=
  .symbol .compare
    (sequence [localName, equals, compareKind, predicate, type, operand, comma, operand])

def convert : Probe :=
  .symbol .convert (sequence [localName, equals, convertOp, type, operand, keyword "to", type])

def load : Probe :=
  .symbol .load (sequence [localName, equals, keyword "load", type, comma, type, operand])

def elementPtr : Probe :=
  .symbol .elementPtr
    (sequence [localName, equals, keyword "getelementptr", type, comma, type, operand, comma,
      type, operand])

def argument : Probe := .symbol .argument (sequence [type, operand])

/-- A row with commas between its members. -/
def row (member : Probe) : Probe := sequence [member, many (sequence [comma, member])]

def definedCall : Probe := .symbol .definedCall (sequence [localName, equals])

def call : Probe :=
  .symbol .call
    (sequence [optional definedCall, keyword "call", type, globalName, punctuation '(',
      optional (row argument), punctuation ')'])

def store : Probe :=
  .symbol .store (sequence [keyword "store", type, operand, comma, type, operand])

def phiSource : Probe :=
  .symbol .phiSource (sequence [punctuation '[', operand, comma, localName, punctuation ']'])

def phi : Probe :=
  .symbol .phi (sequence [localName, equals, keyword "phi", type, row phiSource])

def jump : Probe := .symbol .jump (sequence [keyword "br", keyword "label", localName])

def branch : Probe :=
  .symbol .branch
    (sequence [keyword "br", type, operand, comma, keyword "label", localName, comma,
      keyword "label", localName])

def ret : Probe :=
  .symbol .ret (sequence [keyword "ret", choice [void, sequence [type, operand]]])

def instr : Probe :=
  .symbol .instr (choice [arith, compare, convert, load, elementPtr, call, store])

def terminator : Probe := .symbol .terminator (choice [jump, branch, ret])

def block : Probe := .symbol .block (sequence [blockLabel, many phi, many instr, terminator])

def param : Probe := .symbol .param (sequence [type, localName])

def function : Probe :=
  .symbol .function
    (sequence [keyword "define", type, globalName, punctuation '(', optional (row param),
      punctuation ')', punctuation '{', many1 block, punctuation '}'])

def external : Probe := .symbol .external (keyword "external")

def global : Probe :=
  .symbol .global
    (sequence [globalName, equals, optional external, keyword "global", type, optional constant])

def ending : Probe := .symbol .ending (plain Reader.ending)

/-- The whole grammar. -/
def program : Probe :=
  .symbol .program (gap.join (sequence [many (choice [global, function]), ending]))

/-- The line around a place, with its end. -/
def lineAround (before after : List Char) : List Char :=
  (before.reverse.takeWhile (· ≠ '\n')).reverse ++
    match after.dropWhile (· ≠ '\n') with
    | [] => after
    | _ :: _ => after.takeWhile (· ≠ '\n') ++ ['\n']

/-- How a line is shown. Its end is left out, or made visible when the place is
at the end itself. -/
def shownLine (before after : List Char) : String :=
  let line := lineAround before after
  let atEnd := after.head? = some '\n' || after.head? = some '\r'
  String.ofList <|
    if atEnd then line.map fun c => if c = '\r' then '␍' else if c = '\n' then '␊' else c
    else line.filter fun c => c ≠ '\r' && c ≠ '\n'

/-- Explains why the grammar does not fit a text. -/
def misfit (text : List Char) : Misfit :=
  let (_, attempts) := program text ⟨text.length, []⟩
  let before := text.take (text.length - attempts.mark)
  let after := text.drop (text.length - attempts.mark)
  ⟨.behind before, shownLine before after, attempts.listed⟩

end Expectation

namespace Misfit

/-- Names in a row, the last one behind `or`. -/
def alternatives : List String → String
  | [] => ""
  | [name] => name
  | [first, second] => first ++ " or " ++ second
  | names => ", ".intercalate names.dropLast ++ ", or " ++ names.getLast?.getD ""

/-- What was expected, in words. -/
def reason (misfit : Misfit) : String :=
  if misfit.expected.isEmpty then "unknown parsing error"
  else "expected " ++ alternatives (misfit.expected.map GrammarSymbol.text)

/-- The place, the line with a pointer under it, and what was expected there. -/
def text (misfit : Misfit) : String :=
  let number := toString misfit.position.line
  let margin := String.ofList (number.toList.map fun _ => ' ')
  let lead := (misfit.line.toList.take (misfit.position.column - 1)).map fun c =>
    if c = '\t' then '\t' else ' '
  "\n".intercalate
    [margin ++ "--> " ++ misfit.position.text,
      margin ++ " |",
      number ++ " | " ++ misfit.line,
      margin ++ " | " ++ String.ofList lead ++ "^---",
      margin ++ " |",
      margin ++ " = " ++ misfit.reason]

end Misfit

end KernelGuard
