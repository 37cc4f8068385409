import KernelGuard.Pattern.Brackets

/-! From a written pattern to the pattern, or to what is wrong with it. -/
namespace KernelGuard

/-- A finished part of a pattern, with its place and what is nested in it. A part
that only sets flags has no pattern. -/
structure PatternPart where
  pattern : Option Pattern
  span : Span
  nesting : Nesting

/-- Alternatives that are being read, the last one first, and the parts of the
one that is not finished. Both begin at a place. -/
structure PatternDraft where
  finished : List PatternPart
  parts : List PatternPart
  outset : Position
  start : Position

namespace PatternDraft

def empty (start : Position) : PatternDraft := ⟨[], [], start, start⟩

def add (draft : PatternDraft) (part : PatternPart) : PatternDraft :=
  { draft with parts := part :: draft.parts }

/-- One pattern behind the other. -/
def link (parts : List PatternPart) : Pattern :=
  parts.foldr (fun part rest =>
    match part.pattern, rest with
    | none, rest => rest
    | some pattern, .empty => pattern
    | some pattern, rest => .sequence pattern rest) .empty

/-- The alternative that ends here. -/
def row (draft : PatternDraft) (stop : Position) : PatternPart :=
  let span := ⟨draft.start, stop⟩
  match draft.parts.reverse with
  | [] => ⟨some .empty, span, []⟩
  | [part] => part
  | parts => ⟨some (link parts), span, .around span (parts.map (·.nesting))⟩

/-- Finishes an alternative and goes on behind a bar. -/
def split (draft : PatternDraft) (stop next : Position) : PatternDraft :=
  ⟨draft.row stop :: draft.finished, [], draft.outset, next⟩

/-- All alternatives as one part. -/
def whole (draft : PatternDraft) (stop : Position) : PatternPart :=
  let last := draft.row stop
  match draft.finished with
  | [] => last
  | finished =>
    let span := ⟨draft.outset, stop⟩
    ⟨some (finished.foldl (fun rest part => .choice (part.pattern.getD .empty) rest)
        (last.pattern.getD .empty)),
      span, .around span ((last :: finished).reverse.map (·.nesting))⟩

end PatternDraft

/-- A group that is open: what it stands in, the place of its parenthesis,
whether it is remembered, and the flags in force around it. -/
structure OpenGroup where
  outer : PatternDraft
  span : Span
  remembered : Bool
  flags : PatternFlags

/-- What an opening parenthesis begins. -/
inductive Opening where
  | group (remembered : Bool)
  | flags

/-- The letters of flags. Which end of a repetition is preferred has no bearing
on whether a text holds a pattern. -/
inductive PatternFlag where
  | negation
  | insensitive
  | multiLine
  | dotAll
  | returns
  | verbose
  | greed
  | unicode
deriving DecidableEq, Repr

namespace PatternFlag

def ofLetter? : Char → Option PatternFlag
  | '-' => some negation
  | 'i' => some insensitive
  | 'm' => some multiLine
  | 's' => some dotAll
  | 'R' => some returns
  | 'x' => some verbose
  | 'U' => some greed
  | 'u' => some unicode
  | _ => none

/-- Sets a flag to a value. -/
def apply (value : Bool) (flags : PatternFlags) : PatternFlag → PatternFlags
  | insensitive => { flags with insensitive := value }
  | multiLine => { flags with multiLine := value }
  | dotAll => { flags with dotAll := value }
  | returns => { flags with returns := value }
  | verbose => { flags with verbose := value }
  | unicode => { flags with unicode := value }
  | negation | greed => flags

/-- Flags behind a negation are turned off, the others on. -/
def applyAll (value : Bool) (flags : PatternFlags) : List PatternFlag → PatternFlags
  | [] => flags
  | negation :: rest => applyAll false flags rest
  | flag :: rest => applyAll value (flag.apply value flags) rest

end PatternFlag

namespace Scanner

/-- The characters that names of groups begin with or go on with. -/
def nameChar? (first : Bool) (c : Char) : Bool :=
  c = '_' || c.isAlpha || c.toNat ≥ 128 ||
    (!first && (c.isDigit || c = '.' || c = '[' || c = ']'))

/-- The characters of a name up to its closing angle. -/
def nameFrom (first : Bool) : Nat → Scanner (List Char)
  | 0 => return []
  | n + 1 => do
    match ← peek with
    | none | some '>' => return []
    | some c =>
      if nameChar? first c then
        bump
        return c :: (← nameFrom false n)
      else fail .groupNameInvalid (← nextSpan)

/-- The name of a group, which no other group has. -/
def groupName : Scanner Unit := do
  let start ← here
  let name ← nameFrom true (← get).rest.length
  let span ← since start
  if (← peek).isNone then failHere .groupNameUnclosed
  else
    bump
    if name = [] then fail .groupNameEmpty ⟨start, start⟩
    else
      let name := String.ofList name
      match (← get).names.lookup name with
      | some earlier => throw ⟨.groupNameDuplicate, span, some earlier⟩
      | none => modify fun scan => { scan with names := (name, span) :: scan.names }

/-- The flags up to a colon or a closing parenthesis. -/
def flagsFrom : Nat → List (PatternFlag × Span) → Scanner (List (PatternFlag × Span))
  | 0, found => return found
  | n + 1, found => do
    let span ← nextSpan
    match ← peek with
    | none => failHere .flagMissing
    | some ':' | some ')' =>
      match found with
      | (.negation, span) :: _ => fail .flagDanglingNegation span
      | _ => return found
    | some c =>
      match PatternFlag.ofLetter? c with
      | none => fail .flagUnknown span
      | some flag =>
        match found.lookup flag with
        | some earlier =>
          throw ⟨if flag = .negation then .flagRepeatedNegation else .flagDuplicate, span,
            some earlier⟩
        | none =>
          bump
          flagsFrom n ((flag, span) :: found)

/-- An opening parenthesis with what belongs to it. -/
def openGroup : Scanner Opening := do
  let start ← here
  let span ← nextSpan
  bumpGap
  if (← bumpIf "?=") || (← bumpIf "?!") || (← bumpIf "?<=") || (← bumpIf "?<!") then
    fail .lookAround (← since start)
  else
    let inside ← here
    if (← bumpIf "?P<") || (← bumpIf "?<") then
      if (← peek).isNone then failHere .groupNameUnclosed
      groupName
      return .group true
    else if ← bumpIf "?" then
      if (← peek).isNone then fail .groupUnclosed span
      else
        let found ← flagsFrom ((← get).rest.length + 1) []
        let closed := (← peek) = some ')'
        bump
        if closed && found.isEmpty then fail .repetitionOfNothing ⟨inside, inside⟩
        else
          setFlags (PatternFlag.applyAll true (← flags) (found.map (·.1)).reverse)
          return if closed then .flags else .group false
    else return .group true

/-- The last part, which a repetition is about to take. -/
def repeated (draft : PatternDraft) : Scanner (Pattern × PatternPart × PatternDraft) := do
  match draft.parts with
  | part :: parts =>
    match part.pattern with
    | some pattern => return (pattern, part, { draft with parts })
    | none => failHere .repetitionOfNothing
  | [] => failHere .repetitionOfNothing

/-- A question mark behind a repetition says which of its ends are preferred. -/
def passPreference : Scanner Unit := do
  if (← peek) = some '?' then bump

/-- A number, or what is wrong with it. -/
def count : Scanner (Except PatternOffence Nat) := do
  skipBlanks
  let start ← here
  let digits ← run Char.isDigit
  let span ← since start
  skipBlanks
  skipGap
  let value := digits.foldl (fun value c => 10 * value + (c.toNat - '0'.toNat)) 0
  if digits = [] then return .error ⟨.countMissing, span, none⟩
  else if value < 4294967296 then return .ok value
  else return .error ⟨.decimalInvalid, span, none⟩

/-- The counts of a repetition between braces. -/
def counts : Scanner (Nat × Option Nat) := do
  let start ← here
  let unclosed {α : Type} : Scanner α := do
    fail .countUnclosed (← since start)
  bumpGap
  if (← peek).isNone then unclosed
  let least ← count
  let range ← match ← peek with
    | none => unclosed
    | some ',' => do
      bumpGap
      match ← peek with
      | none => unclosed
      | some '\x7d' => pure (← least, none)
      | some _ => do
        let least ← least
        let most ← count
        pure (least, some (← most))
    | some _ => do
      let least ← least
      pure (least, some least)
  if (← peek) = some '\x7d' then
    bumpGap
    passPreference
    if range.2.all fun most => range.1 ≤ most then return range
    else fail .countsReversed (← since start)
  else unclosed

/-- The sign for a repetition, with how often. -/
def repetitionSign : Char → Scanner (Nat × Option Nat)
  | '\x7b' => counts
  | sign => do
    bump
    passPreference
    return match sign with
      | '?' => (0, some 1)
      | '*' => (0, none)
      | _ => (1, none)

/-- A character that stands for itself. Its other spellings can be had if it is
a byte only. -/
def literal (c : Char) (byte : Bool) (span : Span) : Scanner Pattern := do
  let flags ← flags
  if flags.unicode then
    if flags.insensitive then keep .foldingUnavailable span
  else if byte && c.toNat ≥ 128 then keep .invalidText span
  let folds := flags.insensitive && c.isAlpha
  return .char (.foldedIf folds (.single c))

/-- Any character, or any that does not end a line. Among bytes there are some
that are no text. -/
def anyChar (span : Span) : Scanner Pattern := do
  let flags ← flags
  if !flags.unicode then keep .invalidText span
  return .char (if flags.dotAll then .all
    else .complement (.ofText (if flags.returns then "\r\n" else "\n")))

/-- A character, a set or a place, which takes one character to write or an
escape. -/
def primitive (c : Char) : Scanner PatternPart := do
  let start ← here
  let flags ← flags
  if c = '\\' then
    let escape ← escape
    let span ← since start
    match escape with
    | .char c byte => return ⟨some (← literal c byte span), span, []⟩
    | .set set => return ⟨some (.char set), span, []⟩
    | .anchor anchor => return ⟨some (.anchor anchor), span, []⟩
  else
    bump
    let span ← since start
    let pattern ← match c with
      | '.' => anyChar span
      | '^' => pure (.anchor (if flags.multiLine then .lineStart flags.returns else .textStart))
      | '$' => pure (.anchor (if flags.multiLine then .lineEnd flags.returns else .textEnd))
      | c => literal c false span
    return ⟨some pattern, span, []⟩

/-- Reads on up to the end of the pattern, part by part. -/
def patternFrom : Nat → PatternDraft → List OpenGroup → Scanner PatternPart
  | 0, draft, _ => return draft.whole (← here)
  | n + 1, draft, groups => do
    skipGap
    let start ← here
    match ← peek with
    | none =>
      match groups with
      | [] => return draft.whole start
      | group :: _ => fail .groupUnclosed group.span
    | some '(' =>
      let outside ← flags
      let span ← nextSpan
      match ← openGroup with
      | .flags => patternFrom n (draft.add ⟨none, ← since start, []⟩) groups
      | .group remembered =>
        patternFrom n (.empty (← here)) (⟨draft, span, remembered, outside⟩ :: groups)
    | some ')' =>
      match groups with
      | [] => fail .groupUnopened (← nextSpan)
      | group :: groups =>
        bump
        setFlags group.flags
        let inside := draft.whole start
        let pattern := inside.pattern.getD .empty
        let span ← since group.span.start
        let part : PatternPart :=
          ⟨some (if group.remembered then .group pattern else pattern), span,
            .around span [inside.nesting]⟩
        patternFrom n (group.outer.add part) groups
    | some '|' =>
      bump
      patternFrom n (draft.split start (← here)) groups
    | some '[' =>
      let part ← brackets
      patternFrom n (draft.add ⟨some (.char part.set), part.span, part.nesting⟩) groups
    | some c =>
      if c = '?' || c = '*' || c = '+' || c = '\x7b' then
        let (pattern, part, draft) ← repeated draft
        let (least, most) ← repetitionSign c
        let span ← since part.span.start
        patternFrom n
          (draft.add ⟨some (.times pattern least most), span, .around span [part.nesting]⟩) groups
      else patternFrom n (draft.add (← primitive c)) groups

end Scanner

namespace Pattern

/-- A part as a whole pattern, if it is not nested too deeply. -/
def ofPart (part : PatternPart) : Except PatternOffence Pattern :=
  match part.nesting[Nesting.limit]? with
  | some span => .error ⟨.nestedTooDeeply, span, none⟩
  | none => .ok (part.pattern.getD .empty)

/-- The pattern that a text stands for, as it is written. -/
def parse (text : String) : Except PatternOffence Pattern := do
  let scan := Scan.ofText text
  let (part, scan) ←
    Scanner.patternFrom (scan.rest.length + 1) (.empty scan.position) [] scan
  let pattern ← ofPart part
  match scan.kept with
  | some offence => .error offence
  | none => .ok pattern

/-- The pattern that a text stands for, if it can be looked for. Looking begins
anywhere, which takes some room for itself. -/
def ofText (text : String) : Except PatternFault Pattern := do
  let pattern ← (parse text).mapError .illWritten
  if pattern.size + 6 * stateSize + 16 > sizeLimit then .error .tooBig
  else if pattern.asksForWords then .error .wordsUnknown
  else .ok pattern

end Pattern

end KernelGuard
