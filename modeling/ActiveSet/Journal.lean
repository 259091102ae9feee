import ActiveSet.Journal.Layout
import ActiveSet.Journal.Level
import ActiveSet.Progress

/-! Where the reports of a solve are written.

A journal keeps one logger for each part of the solver, under one common name, and makes further ones on
demand. A logger writes a record if the level of the record is positive and reaches both its effective
level and that of its handler. The effective level of a logger without one of its own is that of the
nearest logger above it, by dotted name, that has one.
-/

namespace ActiveSet

structure Handler where
  level : Int
  stream : String
  layout : String

structure Logger where
  name : String
  level : Int
  handler : Option Handler

structure Journal where
  loggers : List Logger
  /-- The level of loggers made later. -/
  level : Int

namespace Journal

def rootName : String := "generalqp"

def standardLayout : String := "[%(levelname)s] %(name)s: %(message)s"

def standardStream : String := "stderr"

def fullName : Option String → String
  | none => rootName
  | some name =>
    if name = rootName ∨ (rootName ++ ".").isPrefixOf name then name else rootName ++ "." ++ name

def fresh (level : Int) (name : String) : Logger :=
  ⟨name, level, some ⟨level, standardStream, standardLayout⟩⟩

def parts : List String := ["qr", "ldl", "active_set", "feasibility", "qp"]

def initial : Journal :=
  ⟨parts.map fun p => fresh Level.warning (rootName ++ "." ++ p), Level.warning⟩

def logger (j : Journal) (name : Option String) : Journal × Logger :=
  let name := fullName name
  match j.loggers.find? fun l => l.name = name with
  | some l => (j, l)
  | none =>
    let l := fresh j.level name
    ({ j with loggers := j.loggers ++ [l] }, l)

def setLevel (j : Journal) (level : Int) : Journal where
  level := level
  loggers := j.loggers.map fun l =>
    { l with level, handler := l.handler.map fun h => { h with level } }

/-- Gives every logger a new level and handler. An empty layout prints the bare message. A layout without
a directive is noticed at the first logger, which then has its new level and no handler. -/
def configure (j : Journal) (level : Int) (layout stream : Option String) :
    Journal × Except Fault Unit :=
  let layout := layout.getD standardLayout
  let layout := if layout = "" then "%(message)s" else layout
  if Layout.accepted layout then
    let handler := some ⟨level, stream.getD standardStream, layout⟩
    (⟨j.loggers.map fun l => { l with level, handler }, level⟩, .ok ())
  else
    let loggers := match j.loggers with
      | first :: rest => { first with level, handler := none } :: rest
      | [] => []
    ({ j with loggers }, .error .layout)

def above (name : String) : List String :=
  let pieces := name.splitOn "."
  (List.range pieces.length).reverse.tail.map fun k => ".".intercalate (pieces.take (k + 1))

def effectiveLevel (j : Journal) (l : Logger) : Int :=
  let levels := (above l.name).filterMap fun name =>
    (j.loggers.find? fun l => l.name = name).map Logger.level
  ((l.level :: levels).find? fun level => level ≠ 0).getD Level.warning

structure Argument where
  text : String
  whole : String

/-- Puts the arguments in place of `%d` and `%s`, one after the other; `%%` stands for one percent sign. -/
def fillArguments : List Char → List Argument → String
  | '%' :: '%' :: rest, args => "%" ++ fillArguments rest args
  | '%' :: 'd' :: rest, a :: args => a.whole ++ fillArguments rest args
  | '%' :: 's' :: rest, a :: args => a.text ++ fillArguments rest args
  | c :: rest, args => c.toString ++ fillArguments rest args
  | [], _ => ""

/-- A message with its arguments. Without arguments it is taken as it is. -/
def compose (message : String) (arguments : List Argument) : String :=
  if arguments.isEmpty then message else fillArguments message.toList arguments

def Handler.record (h : Handler) (name : String) (level : Int) (message : String) : String :=
  Layout.fill
    [("levelname", Level.name level), ("levelno", toString level), ("name", name), ("message", message)]
    h.layout ++ "\n"

/-- Writes a message: the stream it goes to and the text, if it is written at all. Without a handler the
bare message is written from the level of a warning on. -/
def write (j : Journal) (name : Option String) (level : Int) (message : String) :
    Journal × Option (String × String) :=
  let (j, l) := j.logger name
  if 0 < level ∧ j.effectiveLevel l ≤ level then
    match l.handler with
    | some h =>
      (j, if h.level ≤ level then some (h.stream, Handler.record h l.name level message) else none)
    | none => (j, if Level.warning ≤ level then some (standardStream, message ++ "\n") else none)
  else (j, none)

end Journal

structure Record where
  part : String
  level : Int
  message : String

namespace Event

/-- What is written down of an event. A snapshot that is handed to the caller is not. -/
def record? : Event Float → Option Record
  | columnRemoved idx left =>
    some ⟨"qr", Level.debug,
      "removed QR column " ++ toString idx ++ ", " ++ toString left ++ " columns left"⟩
  | artificialLeft count =>
    some ⟨"ldl", Level.debug,
      "reduced Hessian not positive definite: " ++ toString count ++ " artificial constraints"⟩
  | indexIgnored idx =>
    some ⟨"ldl", Level.warning,
      "Ignoring index " ++ toString idx ++ ": removing an artificial constraint."⟩
  | rowAdded iteration row =>
    some ⟨"active_set", Level.debug,
      "iteration " ++ toString iteration ++ ": added constraint " ++ toString row⟩
  | rowRemoved iteration row =>
    some ⟨"active_set", Level.debug,
      "iteration " ++ toString iteration ++ ": removed constraint " ++ toString row⟩
  | refining iteration residual =>
    some ⟨"active_set", Level.debug,
      "iteration " ++ toString iteration ++ ": projected gradient " ++ Decimal.scientific 3 residual ++
        ", refining the step"⟩
  | rayFound => some ⟨"active_set", Level.info, "The problem is unbounded (unbounded ray found)."⟩
  | shown _ => none
  | tableHeader gaps => some ⟨"qp", Level.info, Table.header gaps⟩
  | tableRow info => some ⟨"qp", Level.info, info.row⟩
  | brokeDown iteration cause =>
    some ⟨"qp", Level.warning, "iteration " ++ toString iteration ++ ": " ++ cause.text⟩
  | limitReached limit =>
    some ⟨"qp", Level.warning, "Maximum iterations (" ++ toString limit ++ ") reached"⟩
  | unboundedBelow =>
    some ⟨"qp", Level.warning, "Problem is unbounded; returning the last feasible iterate"⟩

end Event

namespace Journal

def writeEvents (j : Journal) (events : List (Event Float)) : List (String × String) :=
  (events.filterMap Event.record?).filterMap fun r =>
    (j.write (some (rootName ++ "." ++ r.part)) r.level r.message).2

end Journal

end ActiveSet
