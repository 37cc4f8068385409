import KernelGuard.Blank
import KernelGuard.Pattern.Fault

/-! The way through a written pattern: what is left of it, the place, and the
flags in force. -/
namespace KernelGuard

/-- How a pattern is to be understood from here on. In a verbose pattern white
space and comments mean nothing. Without Unicode, sets hold bytes. -/
structure PatternFlags where
  insensitive : Bool
  multiLine : Bool
  dotAll : Bool
  returns : Bool
  verbose : Bool
  unicode : Bool
deriving DecidableEq, Repr

/-- Where the reading of a pattern stands. The names of groups are kept with
their places. What is well written but cannot be had is kept until the end,
since anything that does not fit the form of a pattern matters more. -/
structure Scan where
  rest : List Char
  position : Position
  flags : PatternFlags
  names : List (String × Span)
  kept : Option PatternOffence

/-- The front of a pattern. -/
def Scan.ofText (text : String) : Scan where
  rest := text.toList
  position := ⟨1, 1⟩
  flags := ⟨false, false, false, false, false, true⟩
  names := []
  kept := none

/-- A step of the reading, which may find an offence. -/
abbrev Scanner := StateT Scan (Except PatternOffence)

namespace Scanner

/-- The next character, if there is one. -/
def peek : Scanner (Option Char) := return (← get).rest.head?

/-- The character behind the next one. -/
def peekSecond : Scanner (Option Char) := return (← get).rest.tail.head?

def here : Scanner Position := return (← get).position

/-- From a place up to here. -/
def since (start : Position) : Scanner Span := return ⟨start, ← here⟩

/-- The place of the next character. -/
def nextSpan : Scanner Span := do
  let scan ← get
  return ⟨scan.position, (scan.rest.head?.map scan.position.past).getD scan.position⟩

def fail {α : Type} (cause : PatternCause) (span : Span) : Scanner α :=
  throw ⟨cause, span, none⟩

/-- Finds an offence at a place that has no width. -/
def failHere {α : Type} (cause : PatternCause) : Scanner α := do
  let position ← here
  fail cause ⟨position, position⟩

/-- Passes over the next character. -/
def bump : Scanner Unit := modify fun scan =>
  match scan.rest with
  | [] => scan
  | c :: rest => { scan with rest, position := scan.position.past c }

/-- Passes over white space and comments. -/
def skipFrom (comment : Bool) : List Char → Position → List Char × Position
  | [], position => ([], position)
  | c :: rest, position =>
    if comment then skipFrom (c ≠ '\n') rest (position.past c)
    else if c = '#' then skipFrom true rest (position.past c)
    else if isBlank c then skipFrom false rest (position.past c)
    else (c :: rest, position)

/-- Passes over what means nothing in a verbose pattern. -/
def skipGap : Scanner Unit := modify fun scan =>
  if scan.flags.verbose then
    let (rest, position) := skipFrom false scan.rest scan.position
    { scan with rest, position }
  else scan

/-- Passes over the next character and the gap behind it. -/
def bumpGap : Scanner Unit := do
  bump
  skipGap

/-- Passes over a word if it is next. -/
def bumpIf (word : String) : Scanner Bool := do
  if word.toList.isPrefixOf (← get).rest then
    word.toList.forM fun _ => bump
    return true
  else return false

/-- Up to a number of characters of a class, with the gaps behind each. -/
def upTo (accepts : Char → Bool) : Nat → Scanner (List Char)
  | 0 => return []
  | n + 1 => do
    match ← peek with
    | none => return []
    | some c =>
      if accepts c then
        bumpGap
        return c :: (← upTo accepts n)
      else return []

/-- The longest run of characters of a class, with the gaps behind each. -/
def run (accepts : Char → Bool) : Scanner (List Char) := do
  upTo accepts (← get).rest.length

/-- Passes over white space, whether the pattern is verbose or not. -/
def skipBlanks : Scanner Unit := modify fun scan =>
  let blanks := scan.rest.takeWhile isBlank
  { scan with
    rest := scan.rest.dropWhile isBlank
    position := blanks.foldl Position.past scan.position }

def flags : Scanner PatternFlags := return (← get).flags

def setFlags (flags : PatternFlags) : Scanner Unit := modify fun scan => { scan with flags }

/-- Keeps an offence until the end. The first one kept is told. -/
def keep (cause : PatternCause) (span : Span) : Scanner Unit := modify fun scan =>
  { scan with kept := scan.kept.or (some ⟨cause, span, none⟩) }

end Scanner

/-- The first spans of nested parts, the outermost first. -/
abbrev Nesting := List Span

namespace Nesting

/-- How deep parts may be nested. -/
def limit : Nat := 250

/-- The nesting of two parts side by side. At each depth the earlier one is
first. -/
def beside : Nesting → Nesting → Nesting
  | [], right => right
  | left, [] => left
  | span :: left, _ :: right => span :: beside left right

/-- The nesting of a part around others. -/
def around (span : Span) (parts : List Nesting) : Nesting := span :: parts.foldl beside []

end Nesting

end KernelGuard
