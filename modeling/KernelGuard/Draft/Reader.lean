/-! Readers take a value off the front of a text or refuse it. A choice tries
its second reader only when the first one refuses, and a repetition takes as
much as it can, so every text is read in at most one way. -/
namespace KernelGuard

/-- A value from the front of a text together with the rest, or a refusal. -/
def Reader (α : Type) := List Char → Option (α × List Char)

namespace Reader

variable {α β : Type}

/-- Takes nothing. -/
protected def pure (value : α) : Reader α := fun text => some (value, text)

/-- Reads on where the first reader stopped. -/
protected def bind (first : Reader α) (next : α → Reader β) : Reader β := fun text =>
  match first text with
  | some (value, rest) => next value rest
  | none => none

instance : Monad Reader where
  pure := Reader.pure
  bind := Reader.bind

/-- The second reader, from the same place, when the first one refuses. -/
protected def orElse (first second : Reader α) : Reader α := fun text =>
  match first text with
  | some result => some result
  | none => second text

/-- A value that may be missing. -/
def optional (reader : Reader α) : Reader (Option α) := fun text =>
  match reader text with
  | some (value, rest) => some (some value, rest)
  | none => some (none, text)

/-- Refuses the values that a table does not hold. -/
def mapped (reader : Reader α) (table : α → Option β) : Reader β := fun text =>
  match reader text with
  | some (value, rest) => (table value).map (·, rest)
  | none => none

/-- As many values as there are. A value that takes nothing ends the row, so the
row is finite. -/
def rowFrom (reader : Reader α) (text : List Char) : List α × List Char :=
  match reader text with
  | some (value, rest) =>
    if rest.length < text.length then
      let (values, remainder) := rowFrom reader rest
      (value :: values, remainder)
    else ([], text)
  | none => ([], text)
termination_by text.length

/-- As many values as there are, maybe none. -/
def many (reader : Reader α) : Reader (List α) := fun text => some (reader.rowFrom text)

/-- At least one value. -/
def many1 (reader : Reader α) : Reader (List α) := do
  let first ← reader
  let more ← reader.many
  return first :: more

/-- How many characters are left, which says where in a given text a reader
stands. -/
def mark : Reader Nat := fun text => some (text.length, text)

/-- Succeeds only where nothing is left. -/
def ending : Reader Unit := fun text =>
  match text with
  | [] => some ((), [])
  | _ :: _ => none

/-- One given character. -/
def char (expected : Char) : Reader Unit := fun text =>
  match text with
  | [] => none
  | c :: rest => if c = expected then some ((), rest) else none

/-- The characters of a given word. What follows does not matter. -/
def exactly (word : String) : Reader Unit := fun text =>
  (List.isPrefixOf? word.toList text).map ((), ·)

/-- The longest run of characters of a class, maybe empty. -/
def takeWhile (class? : Char → Bool) : Reader (List Char) := fun text =>
  some (text.takeWhile class?, text.dropWhile class?)

/-- The longest run of characters of a class, at least one. -/
def takeWhile1 (class? : Char → Bool) : Reader (List Char) :=
  mapped (takeWhile class?) fun run => if run = [] then none else some run

end Reader

end KernelGuard
