/-! Text cut into fields at a separator, and into lines. -/
namespace KernelGuard

/-- The fields between separators, empty ones included; there is always one. -/
def fieldsOf (separator : Char) : List Char → List (List Char)
  | [] => [[]]
  | c :: rest =>
    if c = separator then [] :: fieldsOf separator rest
    else
      match fieldsOf separator rest with
      | [] => [[c]]
      | field :: fields => (c :: field) :: fields

/-- The fields of a text. -/
def fields (separator : Char) (text : String) : List String :=
  (fieldsOf separator text.toList).map String.ofList

/-- The lines of a text. A line feed ends a line, together with one carriage
return in front of it, and the last line need not be ended. -/
def linesOf (text : String) : List String :=
  let parts := fieldsOf '\n' text.toList
  let ended := parts.dropLast.map fun line =>
    if line.getLast? = some '\r' then line.dropLast else line
  match parts.getLast? with
  | none | some [] => ended.map String.ofList
  | some last => (ended ++ [last]).map String.ofList

end KernelGuard
