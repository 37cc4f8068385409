import KernelGuard.Blank
import KernelGuard.Command.Fields
import KernelGuard.Journal
import KernelGuard.Pattern.Syntax

/-! Which journal entries are shown. The verbosity sets one threshold for all
topics; a written filter sets thresholds by topic, may ask for a pattern in the
message, and wins over the verbosity. -/
namespace KernelGuard

/-- Entries of the topics whose name begins as given are shown up to a rank.
Without a beginning all topics are meant, which an empty one says too. -/
structure Directive where
  topic : Option String
  threshold : Nat
deriving DecidableEq, Repr

namespace Directive

/-- How much of a topic a directive gives, in bytes. -/
def reach (directive : Directive) : Nat := (directive.topic.map (·.utf8ByteSize)).getD 0

/-- Whether a directive is about a topic. -/
def fits (directive : Directive) (topic : Topic) : Bool :=
  directive.topic.all fun start => start.toList.isPrefixOf topic.text.toList

end Directive

/-- Directives, those that give more of a topic later, and the pattern that has
to be in a message, if there is one. -/
structure LogFilter where
  directives : List Directive
  pattern : Option Pattern
deriving DecidableEq, Repr

namespace LogFilter

/-- The threshold for all topics at a verbosity. -/
def ofVerbosity (verbosity : Nat) : LogFilter :=
  let level := match verbosity with
    | 0 => Level.warn
    | 1 => .info
    | 2 => .debug
    | _ => .trace
  ⟨[⟨none, level.rank⟩], none⟩

/-- The threshold with a name, in any case of letters; `off` shows nothing. -/
def threshold? (name : String) : Option Nat :=
  let name := name.map Char.toLower
  if name = "off" then some 0 else (Level.all.find? (·.text = name)).map (·.rank)

/-- One part of a written filter: a threshold for all topics, a topic that is
shown in full, or a topic and its threshold. What cannot be read is handed back. -/
def directive (part : String) : Except String Directive :=
  match fields '=' part with
  | [name] => .ok (match threshold? name with
    | some threshold => ⟨none, threshold⟩
    | none => ⟨some name, Level.trace.rank⟩)
  | [topic, name] =>
    let name := trimBlanks name
    if name = "" then .ok ⟨some topic, Level.trace.rank⟩
    else
      match threshold? name with
      | some threshold => .ok ⟨some topic, threshold⟩
      | none => .error ("invalid logging spec '" ++ name ++ "'")
  | _ => .error ("invalid logging spec '" ++ part ++ "'")

/-- Adds a directive at the end, or puts it in the place of the one for the same
topic. -/
def insert (directive : Directive) : List Directive → List Directive
  | [] => [directive]
  | first :: rest =>
    if first.topic = directive.topic then directive :: rest else first :: insert directive rest

/-- Takes the parts of a written filter in order. Parts that cannot be read are
reported and passed over. -/
def ofParts (directives : List Directive) : List String → List Directive × List String
  | [] => (directives, [])
  | part :: rest =>
    if part = "" then ofParts directives rest
    else
      match directive part with
      | .ok directive => ofParts (insert directive directives) rest
      | .error report =>
        let (directives, reports) := ofParts directives rest
        (directives, report :: reports)

/-- Puts a directive behind those that give as much of a topic, or less. -/
def place (directive : Directive) (sorted : List Directive) : List Directive :=
  let (shorter, longer) := sorted.span fun other => decide (other.reach ≤ directive.reach)
  shorter ++ directive :: longer

/-- Directives by how much of a topic they give. Those that give as much keep
their order. With none at all only errors are shown. -/
def sorted (directives : List Directive) : List Directive :=
  if directives.isEmpty then [⟨none, Level.error.rank⟩]
  else directives.foldl (fun sorted directive => place directive sorted) []

/-- The pattern of a written filter. One that cannot be read is reported, and
asks for nothing. -/
def ofPattern : Option String → Option Pattern × List String
  | none => (none, [])
  | some text =>
    match Pattern.ofText text with
    | .ok pattern => (some pattern, [])
    | .error fault => (none, ["invalid regex filter - " ++ fault.message text])

/-- A written filter: parts separated by commas, and behind a slash a pattern. -/
def ofText (text : String) : LogFilter × List String :=
  let ofFields (parts : String) (pattern : Option String) : LogFilter × List String :=
    let (directives, reports) := ofParts [] ((fields ',' parts).map trimBlanks)
    let (pattern, more) := ofPattern pattern
    (⟨sorted directives, pattern⟩, reports ++ more)
  match fields '/' text with
  | [parts] => ofFields parts none
  | [parts, pattern] => ofFields parts (some pattern)
  | _ => (⟨sorted [], none⟩, ["invalid logging spec '" ++ text ++ "' (too many '/'s)"])

/-- Whether an entry is shown. The last directive on its topic decides, and the
pattern has to be in its message. -/
def shows (filter : LogFilter) (entry : Entry) : Bool :=
  ((filter.directives.reverse.find? (·.fits entry.topic)).any fun directive =>
    entry.level.rank ≤ directive.threshold) &&
  filter.pattern.all (·.occursIn entry.message)

end LogFilter

end KernelGuard
