import KernelGuard.Pattern.Basic
import KernelGuard.Pattern.Scan

/-! Escape sequences of patterns: characters, named sets and places. -/
namespace KernelGuard

/-- What an escape sequence stands for. A character may be given by the byte of
its code. -/
inductive Escape where
  | char (c : Char) (byte : Bool)
  | set (set : CharSet)
  | anchor (anchor : Anchor)
deriving DecidableEq, Repr

namespace Scanner

/-- A digit of a number to the base of sixteen. -/
def hexDigit? (c : Char) : Bool :=
  c.isDigit || ('a' ≤ c && c ≤ 'f') || ('A' ≤ c && c ≤ 'F')

def hexValue (digits : List Char) : Nat :=
  digits.foldl (fun value c => 16 * value +
    (if c.isDigit then c.toNat - '0'.toNat else c.toLower.toNat - 'a'.toNat + 10)) 0

/-- The character with a code, if there is one. -/
def charOfCode (digits : List Char) (span : Span) : Scanner Char :=
  let code := hexValue digits
  if code.isValidChar then return Char.ofNat code else fail .hexInvalid span

/-- A given number of digits. -/
def hexDigits : Nat → Scanner (List Char)
  | 0 => return []
  | n + 1 => do
    match ← peek with
    | none => failHere .escapeUnfinished
    | some c =>
      if hexDigit? c then
        bumpGap
        return c :: (← hexDigits n)
      else fail .hexDigitInvalid (← nextSpan)

/-- A code of a fixed width, or of any width between braces. Two digits without
braces give a byte. -/
def hexChar (width : Nat) : Scanner Escape := do
  bumpGap
  let start ← here
  match ← peek with
  | none => failHere .escapeUnfinished
  | some '\x7b' =>
    let inside := (← nextSpan).stop
    bumpGap
    let digits ← run hexDigit?
    let stop ← here
    match ← peek with
    | none => fail .escapeUnfinished (← since start)
    | some '\x7d' =>
      bumpGap
      if digits = [] then fail .hexEmpty (← since start)
      else return .char (← charOfCode digits ⟨inside, stop⟩) false
    | some _ => fail .hexDigitInvalid (← nextSpan)
  | some _ =>
    let digits ← hexDigits width
    return .char (← charOfCode digits (← since start)) (width = 2)

/-- A name without blanks, dashes, low lines, capitals and a leading "is". -/
def plainName (name : List Char) : List Char :=
  let plain (name : List Char) : List Char :=
    (name.filter fun c => c ≠ ' ' && c ≠ '-' && c ≠ '_' && c.toNat < 128).map Char.toLower
  match name with
  | first :: second :: rest =>
    if first.toLower = 'i' && second.toLower = 's' then
      if plain rest = ['c'] then ['i', 's', 'c'] else plain rest
    else plain name
  | _ => plain name

/-- Why a property cannot be had. No property is known by its name. Three names
are not looked for among properties, since categories share them, and no
category is known either. -/
def propertyCause (name : List Char) : PatternCause :=
  if name.contains ':' || name.contains '=' then .propertyUnknown
  else if ["cf", "lc", "sc"].contains (String.ofList (plainName name)) then .propertyValueUnknown
  else .propertyUnknown

/-- Notes that a property cannot be had. -/
def lackProperty (name : List Char) (start : Position) : Scanner Escape := do
  let span ← since start
  keep (if (← flags).unicode then propertyCause name else .unicodeNotAllowed) span
  return .set .none

/-- A property by a name of one letter, or by any name between braces. -/
def property (start : Position) : Scanner Escape := do
  bumpGap
  match ← peek with
  | none => failHere .escapeUnfinished
  | some '\x7b' =>
    bumpGap
    let name ← run (· ≠ '\x7d')
    match ← peek with
    | none => failHere .escapeUnfinished
    | some _ =>
      bump
      lackProperty name start
  | some '\\' => fail .propertyMalformed (← nextSpan)
  | some c =>
    bumpGap
    lackProperty [c] start

/-- A set with a letter of its own. It can be had for bytes only, and its
complement has bytes that are no text. -/
def lettered (set : CharSet) (negated : Bool) (start : Position) : Scanner Escape := do
  bump
  let span ← since start
  if (← flags).unicode then keep .namedSetUnavailable span
  else if negated then keep .invalidText span
  return .set (.negatedIf negated set)

/-- The characters that have a meaning of their own somewhere in a pattern. -/
def meta? (c : Char) : Bool := "\\.+*?()|[]\x7b\x7d^$#&-~".toList.contains c

/-- Other characters that may be escaped and then stand for themselves. -/
def idle? (c : Char) : Bool := c.toNat < 128 && !c.isAlphanum && c ≠ '<' && c ≠ '>'

/-- What stands between braces behind the sign for a word boundary, if it is
not the count of a repetition. -/
def edgeName (start : Position) : Scanner (Option WordEdge) := do
  let saved ← get
  let brace ← here
  bumpGap
  let accepts := fun c : Char => c.isAlpha || c = '-'
  let inside ← here
  match ← peek with
  | none => fail .boundaryUnfinished (← since start)
  | some c =>
    if accepts c then
      let name ← run accepts
      if (← peek) = some '\x7d' then
        let span ← since inside
        bump
        match String.ofList name with
        | "start" => return some .start
        | "end" => return some .stop
        | "start-half" => return some .noneBefore
        | "end-half" => return some .noneBehind
        | _ => fail .boundaryUnknown span
      else fail .boundaryUnclosed (← since brace)
    else
      set saved
      return none

/-- Characters with a letter of their own. -/
def control? : Char → Option Char
  | 'a' => some '\x07'
  | 'f' => some '\x0c'
  | 't' => some '\t'
  | 'n' => some '\n'
  | 'r' => some '\r'
  | 'v' => some '\x0b'
  | _ => none

/-- Places with a letter of their own. -/
def place? (unicode : Bool) : Char → Option Anchor
  | 'A' => some .textStart
  | 'z' => some .textEnd
  | 'b' => some (.word .boundary unicode)
  | 'B' => some (.word .noBoundary unicode)
  | '<' => some (.word .start unicode)
  | '>' => some (.word .stop unicode)
  | _ => none

/-- An escape of one letter. -/
def shortEscape (c : Char) (start : Position) : Scanner Escape := do
  bump
  let unicode := (← flags).unicode
  if meta? c || idle? c then return .char c false
  else
    match control? c, place? unicode c with
    | some c, _ => return .char c false
    | none, some place =>
      if c = 'b' && (← peek) = some '\x7b' then
        let edge ← edgeName start
        return .anchor ((edge.map (.word · unicode)).getD place)
      else return .anchor place
    | none, none => fail .escapeUnknown (← since start)

/-- What stands behind a backslash. -/
def escape : Scanner Escape := do
  let start ← here
  bump
  match ← peek with
  | none => fail .escapeUnfinished (← since start)
  | some 'x' => hexChar 2
  | some 'u' => hexChar 4
  | some 'U' => hexChar 8
  | some 'p' | some 'P' => property start
  | some 'd' => lettered .digits false start
  | some 'D' => lettered .digits true start
  | some 's' => lettered .space false start
  | some 'S' => lettered .space true start
  | some 'w' => lettered .word false start
  | some 'W' => lettered .word true start
  | some c =>
    if c.isDigit then fail .backReference ⟨start, (← nextSpan).stop⟩ else shortEscape c start

end Scanner

end KernelGuard
