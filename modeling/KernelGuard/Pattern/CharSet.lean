/-! Sets of characters, kept in the way they are put together. -/
namespace KernelGuard

/-- The spellings of a character when capitals do not matter. Only ASCII letters
have two. -/
def caseVariants (c : Char) : List Char :=
  if c.isLower then [c, c.toUpper] else if c.isUpper then [c, c.toLower] else [c]

/-- A set of characters. -/
inductive CharSet where
  | none
  | range (first last : Char)
  | union (left right : CharSet)
  | inter (left right : CharSet)
  | complement (set : CharSet)
  | folded (set : CharSet)
deriving DecidableEq, Repr

namespace CharSet

/-- Membership. A folded set holds every spelling of its members. -/
def contains : CharSet → Char → Bool
  | none, _ => false
  | range first last, c => decide (first ≤ c) && decide (c ≤ last)
  | union left right, c => left.contains c || right.contains c
  | inter left right, c => left.contains c && right.contains c
  | complement set, c => !set.contains c
  | folded set, c => (caseVariants c).any fun variant => set.contains variant

def single (c : Char) : CharSet := range c c

/-- The characters of a text. -/
def ofText (text : String) : CharSet :=
  text.toList.foldr (fun c set => union (single c) set) none

/-- Every character there is. -/
def all : CharSet := complement none

/-- The members of the left set that are not in the right one. -/
def diff (left right : CharSet) : CharSet := inter left (complement right)

/-- The members of one of two sets that are not in the other. -/
def symmDiff (left right : CharSet) : CharSet := union (diff left right) (diff right left)

/-- A set, or its complement. -/
def negatedIf (negated : Bool) (set : CharSet) : CharSet :=
  if negated then complement set else set

/-- A set, or all spellings of its members. -/
def foldedIf (insensitive : Bool) (set : CharSet) : CharSet :=
  if insensitive then folded set else set

/-- Whether a set plainly has no members. -/
def isEmpty : CharSet → Bool
  | none => true
  | range first last => decide (last < first)
  | union left right => left.isEmpty && right.isEmpty
  | inter left right => left.isEmpty || right.isEmpty
  | complement _ => false
  | folded set => set.isEmpty

/-- Whether a set plainly has ASCII members only. -/
def isAscii : CharSet → Bool
  | none => true
  | range _ last => decide (last.toNat < 128)
  | union left right => left.isAscii && right.isAscii
  | inter left right => left.isAscii || right.isAscii
  | complement _ => false
  | folded set => set.isAscii

/-- How many runs the ASCII members of a set make. -/
def asciiRuns (set : CharSet) : Nat :=
  (List.range 128).countP fun code =>
    set.contains (Char.ofNat code) && (code = 0 || !set.contains (Char.ofNat (code - 1)))

def lower : CharSet := range 'a' 'z'

def upper : CharSet := range 'A' 'Z'

def letters : CharSet := union upper lower

def digits : CharSet := range '0' '9'

/-- The characters of words: letters, digits and the low line. -/
def word : CharSet := union (union letters digits) (single '_')

/-- White space. -/
def space : CharSet := union (range '\t' '\r') (single ' ')

/-- The sets that may be named between colons inside brackets. -/
def ofName? : String → Option CharSet
  | "alnum" => some (union letters digits)
  | "alpha" => some letters
  | "ascii" => some (range '\x00' '\x7f')
  | "blank" => some (ofText "\t ")
  | "cntrl" => some (union (range '\x00' '\x1f') (single '\x7f'))
  | "digit" => some digits
  | "graph" => some (range '!' '~')
  | "lower" => some lower
  | "print" => some (range ' ' '~')
  | "punct" => some (diff (range '!' '~') (union letters digits))
  | "space" => some space
  | "upper" => some upper
  | "word" => some word
  | "xdigit" => some (union digits (union (range 'A' 'F') (range 'a' 'f')))
  | _ => Option.none

end CharSet

end KernelGuard
