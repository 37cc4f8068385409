import KernelGuard.Pattern.CharSet

/-! Patterns that are looked for in a text, and the looking. The places that a
pattern leads to are found for many starting places at once, so there is nothing
to go back on. -/
namespace KernelGuard

/-- A demand on whether there is a word before and behind a place. -/
inductive WordEdge where
  | boundary
  | noBoundary
  | start
  | stop
  | noneBefore
  | noneBehind
deriving DecidableEq, Repr

def WordEdge.holds (edge : WordEdge) (before behind : Bool) : Bool :=
  match edge with
  | boundary => before ≠ behind
  | noBoundary => before = behind
  | start => !before && behind
  | stop => before && !behind
  | noneBefore => !before
  | noneBehind => !behind

/-- A demand on the two characters around a place. A line ends at a line feed,
or also at a carriage return with or without one. Words are those of ASCII, or
those of all languages, which only a table of their letters could tell. -/
inductive Anchor where
  | textStart
  | textEnd
  | lineStart (returns : Bool)
  | lineEnd (returns : Bool)
  | word (edge : WordEdge) (unicode : Bool)
deriving DecidableEq, Repr

/-- Whether an anchor holds between a character and the next one. -/
def Anchor.holds (anchor : Anchor) (before behind : Option Char) : Bool :=
  match anchor with
  | textStart => before.isNone
  | textEnd => behind.isNone
  | lineStart returns =>
    before.all fun c => c = '\n' || (returns && c = '\r' && behind ≠ some '\n')
  | lineEnd returns =>
    behind.all fun c =>
      if returns then c = '\r' || (c = '\n' && before ≠ some '\r') else c = '\n'
  | word edge _ => edge.holds (before.any CharSet.word.contains) (behind.any CharSet.word.contains)

/-- A pattern. A repetition has a least number of rounds, and may have a
greatest. A group is remembered, which costs room. -/
inductive Pattern where
  | empty
  | char (set : CharSet)
  | anchor (demand : Anchor)
  | sequence (first second : Pattern)
  | choice (left right : Pattern)
  | repetition (body : Pattern) (least : Nat) (most : Option Nat)
  | group (body : Pattern)
deriving DecidableEq, Repr

namespace Pattern

/-- The places of both lists, those of the first one in front. -/
def merge (first second : List Nat) : List Nat :=
  first ++ second.filter fun place => !first.contains place

/-- Takes a step a given number of times. -/
def rounds (step : List Nat → List Nat) : Nat → List Nat → List Nat
  | 0, places => places
  | n + 1, places => rounds step n (step places)

/-- Everything within a given number of steps, zero included. -/
def spread (step : List Nat → List Nat) : Nat → List Nat → List Nat
  | 0, places => places
  | n + 1, places =>
    let more := merge places (step places)
    if more.length = places.length then places else spread step n more

/-- The places behind the pattern, for those where it may begin. No round of a
repetition leads back, so one round more than the text has characters reaches
whatever any number of rounds does. -/
def reach (text : Array Char) : Pattern → List Nat → List Nat
  | empty, places => places
  | char set, places =>
    (places.filter fun place => text[place]?.any set.contains).map (· + 1)
  | anchor demand, places =>
    places.filter fun place =>
      demand.holds (if place = 0 then none else text[place - 1]?) text[place]?
  | sequence first second, places => second.reach text (first.reach text places)
  | choice left right, places => merge (left.reach text places) (right.reach text places)
  | repetition body least most, places =>
    let enough := text.size + 1
    let step := fun places => body.reach text places
    spread step (match most with
      | none => enough
      | some most => min (most - least) enough) (rounds step (min least enough) places)
  | group body, places => body.reach text places

/-- Whether a pattern is found anywhere in a text. -/
def occursIn (pattern : Pattern) (text : String) : Bool :=
  let text := text.toList.toArray
  !(pattern.reach text (List.range (text.size + 1))).isEmpty

/-- Whether a pattern takes no characters, wherever it is found. -/
def isWidthless : Pattern → Bool
  | empty | anchor _ => true
  | char _ => false
  | sequence first second => first.isWidthless && second.isWidthless
  | choice left right => left.isWidthless && right.isWidthless
  | repetition body _ most => body.isWidthless || most = some 0
  | group body => body.isWidthless

/-- Whether a pattern can be found without taking a character. -/
def isNullable : Pattern → Bool
  | empty | anchor _ => true
  | char _ => false
  | sequence first second => first.isNullable && second.isNullable
  | choice left right => left.isNullable || right.isNullable
  | repetition body least _ => least = 0 || body.isNullable
  | group body => body.isNullable

/-- A repetition, in the least form. More than one round of what takes no
characters comes to the same as one, no round is nothing, and one round is the
body alone. -/
def times (body : Pattern) (least : Nat) (most : Option Nat) : Pattern :=
  let (least, most) :=
    if body.isWidthless then (min least 1, some ((most.map (min · 1)).getD 1)) else (least, most)
  if most = some 0 then empty
  else if least = 1 && most = some 1 then body
  else repetition body least most

/-- Whether a pattern asks for words of all languages. -/
def asksForWords : Pattern → Bool
  | anchor (.word _ unicode) => unicode
  | empty | char _ | anchor _ => false
  | sequence first second => first.asksForWords || second.asksForWords
  | choice left right => left.asksForWords || right.asksForWords
  | repetition body _ _ => body.asksForWords
  | group body => body.asksForWords

/-- The bytes of a state of the machine that a pattern is made into. -/
def stateSize : Nat := 32

/-- The bytes that a set comes to. A single character is a state for each byte
of it. Other ASCII sets are two states with their runs, and all further sets
have about as many states as it takes to walk through any character. -/
def setSize : CharSet → Nat
  | .range first last =>
    if first = last then stateSize * first.utf8Size else ofRuns (.range first last)
  | set => ofRuns set
where
  ofRuns (set : CharSet) : Nat :=
    8 * set.asciiRuns + if set.isAscii then 2 * stateSize else 9 * stateSize + 120

/-- The bytes that a pattern comes to. A repetition with counts is written out. -/
def size : Pattern → Nat
  | empty | anchor _ => stateSize
  | char set => setSize set
  | sequence first second => first.size + second.size
  | choice left right => left.size + right.size + 2 * stateSize + 8
  | repetition body least none =>
    if least = 0 then body.size + 8 + (if body.isNullable then 3 else 1) * stateSize
    else least * body.size + stateSize + 8
  | repetition body least (some most) =>
    if least = most then least * body.size
    else if least = 0 && most = 1 then body.size + 2 * stateSize + 8
    else
      (if least = 0 then stateSize else least * body.size) + stateSize +
        (most - least) * (body.size + stateSize + 8)
  | group body => body.size + 2 * stateSize

end Pattern

end KernelGuard
