import ScriptLint.Yaml.Cursor

/-!
Plain texts, which stand without quotes. They end before a colon at the end of a word, before a comment and, inside
brackets, before the marks that have a meaning there. Outside brackets their further lines must be indented.
-/
namespace ScriptLint.Yaml.Plain
set_option autoImplicit false

def word (inFlow : Bool) : List Char → List Char
  | [] => []
  | c :: rest =>
    if isBlank c || isBreak c then []
    else if c == ':' && (endsWord rest.head? || (inFlow && rest.head?.any isFlowMark)) then []
    else if inFlow && isFlowMark c then []
    else c :: word inFlow rest

/-- Passes white space. A tab may stand in an indentation of fewer than `least` columns only when nothing else is on its
line. -/
def gap? (least : Int) (fuel : Nat) (gap : Gap) (c : Cursor) : Option (Gap × Cursor) :=
  match fuel with
  | 0 => none
  | fuel + 1 =>
    match c.next? with
    | none => some (gap, c)
    | some d =>
      if isBreak d then gap? least fuel { gap with breaks := gap.breaks + 1 } c.passBreak
      else if !isBlank d then some (gap, c)
      else if !c.fresh then gap? least fuel { gap with blanks := gap.blanks ++ [d] } (c.pass 1)
      else if c.column < least ∧ d = '\t' then do
        let after ← c.passTrailing?
        if endsLine after.next? then gap? least fuel gap after else none
      else gap? least fuel gap (c.pass 1)

/-- The words of a text that follow `before`, and the place after the white space that ends it. -/
def wordsAt? (inFlow : Bool) (least : Int) (fuel : Nat) (before : List Char) (c : Cursor) :
    Option (List Char × Cursor) :=
  match fuel with
  | 0 => none
  | fuel + 1 =>
    if c.isDocumentMark || c.next? == some '#' then some ([], c)
    else if inFlow && c.next? == some '-' && c.second?.any isFlowMark then none
    else
      let found := word inFlow c.rest
      if found.isEmpty then some ([], c)
      else
        let after := c.skip found.length
        match gap? least (after.rest.length + 1) {} after with
        | none => none
        | some (gap, next) =>
          if next.index = after.index ∨ (!inFlow ∧ next.column < least) then some (before ++ found, next)
          else (wordsAt? inFlow least fuel gap.text next).map fun more => (before ++ found ++ more.1, more.2)

def textAt? (inFlow : Bool) (least : Int) (c : Cursor) : Option (String × Cursor) :=
  if inFlow ∧ c.column < least then none
  else
    match wordsAt? inFlow least (c.rest.length + 1) [] c with
    | some (text, after) => if text.isEmpty then none else some (String.ofList text, after)
    | none => none

end ScriptLint.Yaml.Plain
