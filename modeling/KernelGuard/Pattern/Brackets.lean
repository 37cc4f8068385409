import KernelGuard.Pattern.Escape

/-! Sets of characters written between brackets: single characters, ranges,
named sets, sets inside sets, and three operations on them. -/
namespace KernelGuard

/-- An operation on what stands to its left and right. -/
inductive SetOperation where
  | inter
  | diff
  | symmDiff
deriving DecidableEq, Repr

def SetOperation.apply : SetOperation → CharSet → CharSet → CharSet
  | inter => .inter
  | diff => .diff
  | symmDiff => .symmDiff

/-- A finished part of a set, with its place and what is nested in it. -/
structure SetPart where
  set : CharSet
  span : Span
  nesting : Nesting

/-- A set that is being read: what stands to the left of the last operation,
the parts since then, the last one first, and where they begin. -/
structure SetDraft where
  left : Option (SetPart × SetOperation)
  parts : List SetPart
  start : Position

namespace SetDraft

def add (draft : SetDraft) (part : SetPart) : SetDraft :=
  { draft with parts := part :: draft.parts }

/-- The parts since the last operation as one. -/
def members (draft : SetDraft) : SetPart :=
  match draft.parts.reverse with
  | [] => ⟨.none, ⟨draft.start, draft.start⟩, []⟩
  | [part] => part
  | first :: rest =>
    let span := ⟨first.span.start, (rest.getLast?.getD first).span.stop⟩
    ⟨rest.foldl (fun set part => .union set part.set) first.set, span,
      .around span ((first :: rest).map (·.nesting))⟩

end SetDraft

/-- A set whose bracket is open: what it stands in, the place of its opening,
and whether its complement is meant. -/
structure OpenSet where
  outer : SetDraft
  span : Span
  negated : Bool

namespace Scanner

/-- One end of a range, or a set, with its place. -/
def setItem : Scanner (Escape × Span) := do
  let start ← here
  let item ← match ← peek with
    | some '\\' => escape
    | some c => do
      bump
      pure (.char c false)
    | none => failHere .classUnclosed
  return (item, ← since start)

/-- Notes that a character is none of the bytes that a set may hold. -/
def checkMember (c : Char) (byte : Bool) (span : Span) : Scanner Unit := do
  if !(← flags).unicode && c.toNat ≥ 128 then
    keep (if byte then .invalidText else .unicodeNotAllowed) span

/-- The set of one item. -/
def itemSet : Escape × Span → Scanner SetPart
  | (.char c byte, span) => do
    checkMember c byte span
    return ⟨.single c, span, []⟩
  | (.set set, span) => return ⟨set, span, []⟩
  | (.anchor _, span) => fail .classEscapeInvalid span

/-- An item as the end of a range. -/
def itemChar : Escape × Span → Scanner (Char × Bool)
  | (.char c byte, _) => return (c, byte)
  | (_, span) => fail .classRangeBoundary span

/-- The character behind the next one and the gap after it. -/
def peekPastGap : Scanner (Option Char) := do
  let saved ← get
  bumpGap
  let second ← peek
  set saved
  return second

/-- A range, or a single item. A dash in front of a closing bracket or of
another dash makes no range. -/
def rangeOrItem (opening : Span) : Scanner SetPart := do
  let start ← here
  let first ← setItem
  skipGap
  match ← peek with
  | none => fail .classUnclosed opening
  | some c =>
    let second ← peekPastGap
    if c ≠ '-' || second = some ']' || second = some '-' then itemSet first
    else
      bumpGap
      if (← peek).isNone then fail .classUnclosed opening
      else
        let last ← setItem
        let span ← since start
        let (least, leastByte) ← itemChar first
        let (most, mostByte) ← itemChar last
        if least ≤ most then
          checkMember least leastByte first.2
          checkMember most mostByte last.2
          return ⟨.range least most, span, []⟩
        else fail .classRangeInvalid span

/-- Dashes right behind the opening, which stand for themselves. -/
def leadingDashes (opening : Position) : Nat → SetDraft → Scanner SetDraft
  | 0, draft => return draft
  | n + 1, draft => do
    match ← peek with
    | some '-' =>
      let span ← nextSpan
      bumpGap
      if (← peek).isNone then fail .classUnclosed ⟨opening, opening⟩
      else leadingDashes opening n (draft.add ⟨.single '-', span, []⟩)
    | _ => return draft

/-- Passes over a character of the opening, behind which something has to come. -/
def bumpOpening (start : Position) : Scanner Unit := do
  bumpGap
  if (← peek).isNone then fail .classUnclosed (← since start) else return

/-- An opening bracket. Dashes and a closing bracket right behind it are
members. -/
def openSet (outer : SetDraft) : Scanner (OpenSet × SetDraft) := do
  let start ← here
  bumpOpening start
  let negated := (← peek) = some '^'
  if negated then bumpOpening start
  let inside ← here
  let draft ← leadingDashes start (← get).rest.length ⟨none, [], inside⟩
  if draft.parts.isEmpty && (← peek) = some ']' then
    let span ← nextSpan
    bumpOpening start
    return (⟨outer, ← since start, negated⟩, draft.add ⟨.single ']', span, []⟩)
  else return (⟨outer, ← since start, negated⟩, draft)

/-- A set, or all spellings of its members, which for characters other than
bytes cannot be had. -/
def foldSet (part : SetPart) : Scanner SetPart := do
  let flags ← flags
  if flags.unicode && flags.insensitive && !part.set.isEmpty then
    keep .foldingUnavailable part.span
  return { part with set := .foldedIf flags.insensitive part.set }

/-- A set, or its complement, which has bytes that are no text. -/
def negateSet (negated : Bool) (part : SetPart) : Scanner SetPart := do
  if !(← flags).unicode && negated then keep .invalidText part.span
  return { part with set := .negatedIf negated part.set }

/-- A named set between colons and brackets, if there is one here. -/
def namedSet : Scanner (Option SetPart) := do
  let saved ← get
  let start ← here
  if ← bumpIf "[:" then
    let negated ← bumpIf "^"
    let name := (← get).rest.takeWhile (· ≠ ':')
    name.forM fun _ => bump
    match CharSet.ofName? (String.ofList name), ← bumpIf ":]" with
    | some set, true =>
      return some (← negateSet negated (← foldSet ⟨set, ← since start, []⟩))
    | _, _ =>
      set saved
      return none
  else return none

/-- What is read so far as one part. Operations are done from left to right. -/
def joinSet (draft : SetDraft) : Scanner SetPart := do
  match draft.left with
  | none => return draft.members
  | some (left, operation) =>
    let right ← foldSet draft.members
    let left ← foldSet left
    let span := ⟨left.span.start, right.span.stop⟩
    return ⟨operation.apply left.set right.set, span, .around span [left.nesting, right.nesting]⟩

/-- Reads on up to the bracket that closes the outermost open set. -/
def bracketsFrom : Nat → SetDraft → OpenSet → List OpenSet → Scanner SetPart
  | 0, _, inner, _ => fail .classUnclosed inner.span
  | n + 1, draft, inner, others => do
    skipGap
    let operate (operation : SetOperation) : Scanner SetPart := do
      bump
      bump
      let left ← joinSet draft
      bracketsFrom n ⟨some (left, operation), [], ← here⟩ inner others
    match ← peek, ← peekSecond with
    | none, _ => fail .classUnclosed inner.span
    | some '[', _ =>
      match ← namedSet with
      | some part => bracketsFrom n (draft.add part) inner others
      | none =>
        let (newest, fresh) ← openSet draft
        bracketsFrom n fresh newest (inner :: others)
    | some ']', _ =>
      bump
      let part ← joinSet draft
      let span ← since inner.span.start
      let part ← foldSet ⟨part.set, span, .around span [part.nesting]⟩
      let part ← negateSet inner.negated part
      match others with
      | [] => return part
      | next :: others => bracketsFrom n (inner.outer.add part) next others
    | some '&', some '&' => operate .inter
    | some '-', some '-' => operate .diff
    | some '~', some '~' => operate .symmDiff
    | some _, _ => bracketsFrom n (draft.add (← rangeOrItem inner.span)) inner others

/-- A set between brackets. -/
def brackets : Scanner SetPart := do
  let (first, draft) ← openSet ⟨none, [], ← here⟩
  bracketsFrom ((← get).rest.length + 1) draft first []

end Scanner

end KernelGuard
