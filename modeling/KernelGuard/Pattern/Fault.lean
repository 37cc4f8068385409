import KernelGuard.Command.Fields
import KernelGuard.Draft.Position

/-! What can be wrong with a written pattern, and how it is told: the pattern,
marks under the places in question, and the wording. -/
namespace KernelGuard

/-- From one place up to another one, which is outside. -/
structure Span where
  start : Position
  stop : Position
deriving DecidableEq, Repr

/-- What is wrong with a pattern. -/
inductive PatternCause where
  | classEscapeInvalid
  | classRangeInvalid
  | classRangeBoundary
  | classUnclosed
  | decimalInvalid
  | hexEmpty
  | hexInvalid
  | hexDigitInvalid
  | escapeUnfinished
  | escapeUnknown
  | flagDanglingNegation
  | flagDuplicate
  | flagRepeatedNegation
  | flagMissing
  | flagUnknown
  | groupNameDuplicate
  | groupNameEmpty
  | groupNameInvalid
  | groupNameUnclosed
  | groupUnclosed
  | groupUnopened
  | countsReversed
  | countMissing
  | countUnclosed
  | repetitionOfNothing
  | boundaryUnclosed
  | boundaryUnknown
  | boundaryUnfinished
  | propertyMalformed
  | propertyUnknown
  | propertyValueUnknown
  | backReference
  | lookAround
  | nestedTooDeeply
  | namedSetUnavailable
  | foldingUnavailable
  | unicodeNotAllowed
  | invalidText
deriving DecidableEq, Repr

/-- The wording of a cause. -/
def PatternCause.message : PatternCause → String
  | classEscapeInvalid => "invalid escape sequence found in character class"
  | classRangeInvalid => "invalid character class range, the start must be <= the end"
  | classRangeBoundary => "invalid range boundary, must be a literal"
  | classUnclosed => "unclosed character class"
  | decimalInvalid => "decimal literal invalid"
  | hexEmpty => "hexadecimal literal empty"
  | hexInvalid => "hexadecimal literal is not a Unicode scalar value"
  | hexDigitInvalid => "invalid hexadecimal digit"
  | escapeUnfinished => "incomplete escape sequence, reached end of pattern prematurely"
  | escapeUnknown => "unrecognized escape sequence"
  | flagDanglingNegation => "dangling flag negation operator"
  | flagDuplicate => "duplicate flag"
  | flagRepeatedNegation => "flag negation operator repeated"
  | flagMissing => "expected flag but got end of regex"
  | flagUnknown => "unrecognized flag"
  | groupNameDuplicate => "duplicate capture group name"
  | groupNameEmpty => "empty capture group name"
  | groupNameInvalid => "invalid capture group character"
  | groupNameUnclosed => "unclosed capture group name"
  | groupUnclosed => "unclosed group"
  | groupUnopened => "unopened group"
  | countsReversed => "invalid repetition count range, the start must be <= the end"
  | countMissing => "repetition quantifier expects a valid decimal"
  | countUnclosed => "unclosed counted repetition"
  | repetitionOfNothing => "repetition operator missing expression"
  | boundaryUnclosed =>
    "special word boundary assertion is either unclosed or contains an invalid character"
  | boundaryUnknown =>
    "unrecognized special word boundary assertion, valid choices are: start, end, start-half " ++
      "or end-half"
  | boundaryUnfinished =>
    "found either the beginning of a special word boundary or a bounded repetition on a \\b " ++
      "with an opening brace, but no closing brace"
  | propertyMalformed => "invalid Unicode character class"
  | propertyUnknown => "Unicode property not found"
  | propertyValueUnknown => "Unicode property value not found"
  | backReference => "backreferences are not supported"
  | lookAround => "look-around, including look-ahead and look-behind, is not supported"
  | nestedTooDeeply => "exceed the maximum number of nested parentheses/brackets (250)"
  | namedSetUnavailable =>
    "Unicode-aware Perl class not found (make sure the unicode-perl feature is enabled)"
  | foldingUnavailable =>
    "Unicode-aware case insensitivity matching is not available " ++
      "(make sure the unicode-case feature is enabled)"
  | unicodeNotAllowed => "Unicode not allowed here"
  | invalidText => "pattern can match invalid UTF-8"

/-- A cause with its place, and with the place of what it clashes with, if
there is such a thing. -/
structure PatternOffence where
  cause : PatternCause
  span : Span
  earlier : Option Span
deriving DecidableEq, Repr

/-- Why a text is no pattern that can be looked for. A pattern that is well
written may still be too big, or need to know the words of all languages. -/
inductive PatternFault where
  | illWritten (offence : PatternOffence)
  | tooBig
  | wordsUnknown
deriving DecidableEq, Repr

namespace PatternOffence

/-- The places in question, in the order of the text. -/
def spans (offence : PatternOffence) : List Span := offence.earlier.toList ++ [offence.span]

/-- Marks under the spans on one line, at least one for each, from a column on. -/
def marks (column : Nat) : List Span → String
  | [] => ""
  | span :: rest =>
    let width := max 1 (span.stop.column - span.start.column)
    String.ofList (List.replicate (span.start.column - column) ' ' ++ List.replicate width '^') ++
      marks (max column span.start.column + width) rest

/-- The lines of a pattern, with marks below those that a span is on. Lines are
numbered if there is more than one. -/
def noted (offence : PatternOffence) (pattern : String) : String :=
  let lines := linesOf pattern
  let count := if pattern.toList.getLast? = some '\n' then lines.length + 1 else lines.length
  let width := if count ≤ 1 then 0 else (toString count).length
  String.join (lines.zipIdx.map fun (line, index) =>
    let number := toString (index + 1)
    let lead := if width = 0 then "    "
      else String.ofList (List.replicate (width - number.length) ' ') ++ number ++ ": "
    let here := offence.spans.filter fun span =>
      span.start.line = index + 1 && span.stop.line = index + 1
    lead ++ line ++ "\n" ++
      if here.isEmpty then ""
      else String.ofList (List.replicate lead.length ' ') ++ marks 1 here ++ "\n")

/-- The spans that no single line can show, in words. -/
def longSpans (offence : PatternOffence) : String :=
  String.join ((offence.spans.filter fun span => span.start.line ≠ span.stop.line).map fun span =>
    "on line " ++ toString span.start.line ++ " (column " ++ toString span.start.column ++
      ") through line " ++ toString span.stop.line ++ " (column " ++
      toString (span.stop.column - 1) ++ ")\n")

/-- The whole message on a pattern. A pattern of several lines stands between
two rules. -/
def message (offence : PatternOffence) (pattern : String) : String :=
  let rule := if pattern.contains '\n' then String.ofList (List.replicate 79 '~') ++ "\n" else ""
  "regex parse error:\n" ++ rule ++ offence.noted pattern ++ rule ++ offence.longSpans ++
    "error: " ++ offence.cause.message

end PatternOffence

/-- The most bytes that a pattern may come to. -/
def Pattern.sizeLimit : Nat := 10485760

/-- The wording of a fault in a pattern. -/
def PatternFault.message (pattern : String) : PatternFault → String
  | illWritten offence => offence.message pattern
  | tooBig => "Compiled regex exceeds size limit of " ++ toString Pattern.sizeLimit ++ " bytes."
  | wordsUnknown => "error building NFA"

end KernelGuard
