/-! Layouts of log records: text with directives such as `%(name)s`, which the fields of a record replace.

A directive may have flags, a width and a precision before the letter at its end. A layout must have at
least one directive, wherever it stands.
-/

namespace ActiveSet

namespace Layout

structure Directive where
  field : String
  /-- Filled up on the right. -/
  left : Bool
  width : Nat
  /-- The number of characters that are kept. -/
  precision : Option Nat
  letter : Char

def isWord (c : Char) : Bool := c.isAlphanum || c = '_'

def isFlag (c : Char) : Bool := c = '#' || c = '0' || c = '+' || c = ' ' || c = '-'

def isLetter (c : Char) : Bool := "diouxefgcrsa%".toList.contains c.toLower

def number (text : List Char) : Option Nat × List Char :=
  let digits := text.takeWhile Char.isDigit
  (if digits.isEmpty then none else (String.ofList digits).toNat?, text.dropWhile Char.isDigit)

def directive? : List Char → Option (Directive × List Char)
  | '%' :: '(' :: text =>
    let field := text.takeWhile isWord
    match text.dropWhile isWord with
    | ')' :: text =>
      let flags := text.takeWhile isFlag
      let (width, text) := number (text.dropWhile isFlag)
      let (precision, text) :=
        match text with
        | '.' :: digit :: rest => if digit.isDigit then number (digit :: rest) else (none, text)
        | _ => (none, text)
      match text with
      | letter :: rest =>
        if field.isEmpty || !isLetter letter then none
        else
          some (⟨String.ofList field, flags.contains '-', width.getD 0, precision, letter⟩, rest)
      | [] => none
    | _ => none
  | _ => none

def hasDirective : List Char → Bool
  | [] => false
  | c :: rest => (directive? (c :: rest)).isSome || hasDirective rest

def Directive.place (d : Directive) (value : String) : String :=
  let kept := (d.precision.map value.toList.take).getD value.toList
  let gap := List.replicate (d.width - kept.length) ' '
  String.ofList (if d.left then kept ++ gap else gap ++ kept)

/-- Replaces the directives of a text, at most one for each unit of fuel; one whose field is not known is
left as it is, and `%%` stands for one percent sign. -/
def fillWith (fields : List (String × String)) : Nat → List Char → String
  | 0, text => String.ofList text
  | _, [] => ""
  | fuel + 1, '%' :: '%' :: rest => "%" ++ fillWith fields fuel rest
  | fuel + 1, c :: rest =>
    match directive? (c :: rest) with
    | some (d, after) =>
      match fields.find? fun f => f.1 = d.field with
      | some f => d.place f.2 ++ fillWith fields fuel after
      | none => c.toString ++ fillWith fields fuel rest
    | none => c.toString ++ fillWith fields fuel rest

def fill (fields : List (String × String)) (layout : String) : String :=
  fillWith fields layout.length layout.toList

def accepted (layout : String) : Bool := hasDirective layout.toList

end Layout

end ActiveSet
