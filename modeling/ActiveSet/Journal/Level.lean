import ActiveSet.Fault

/-! The levels of log records, by number and by name.
-/

namespace ActiveSet

namespace Level

def debug : Int := 10
def info : Int := 20
def warning : Int := 30

/-- The names of levels; the first name of a level is the one that is printed. -/
def names : List (String × Int) :=
  [("CRITICAL", 50), ("FATAL", 50), ("ERROR", 40), ("WARNING", 30), ("WARN", 30), ("INFO", 20),
   ("DEBUG", 10), ("NOTSET", 0)]

/-- Names that stand for something else: the plain record layout, which is a text, and the styles of
layouts, which are not even that. -/
def taken : List (String × Fault) := [("BASIC_FORMAT", .levelName), ("_STYLES", .levelKind)]

/-- Capital letters; besides the small Latin ones, the dotless i and the long s have capitals there. -/
def capital (c : Char) : Char :=
  if c = 'ı' then 'I' else if c = 'ſ' then 'S' else c.toUpper

def ofName (name : String) : Except Fault Int :=
  let name := String.ofList (name.toList.map capital)
  match taken.find? fun p => p.1 = name with
  | some (_, cause) => .error cause
  | none => .ok (((names.find? fun p => p.1 = name).map Prod.snd).getD warning)

def name (level : Int) : String :=
  ((names.find? fun p => p.2 = level).map Prod.fst).getD ("Level " ++ toString level)

end Level

end ActiveSet
