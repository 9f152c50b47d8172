import GitShell.Chain.Execute
import GitShell.Text.Literal

/-!
# Session — Trace

How a trace shows what a line was read as and how it ended: a value is its name with its parts in
parentheses or braces, a list is in brackets, a text is a literal.
-/

namespace GitShell.Trace

/-- Parts with commas between them. -/
def commas (parts : List Text) : Text := Text.join ", ".toList parts

/-- A list. -/
def list (parts : List Text) : Text := '[' :: commas parts ++ [']']

/-- A value with one part. -/
def tagged (name part : Text) : Text := name ++ '(' :: part ++ [')']

/-- A value with named parts. -/
def braces (name : Text) (parts : List (String × Text)) : Text :=
  name ++ " \x7b ".toList ++ commas (parts.map fun (n, t) => n.toList ++ ": ".toList ++ t)
    ++ " \x7d".toList

def ofBool (b : Bool) : Text := if b then "true".toList else "false".toList

def ofKind : Kind → Text
  | .word => "String".toList
  | .join .and => "And".toList
  | .join .or => "Or".toList
  | .join .next => "End".toList
  | .halfJoin => "PartialAction".toList
  | .unterminated => "UnterminatedString".toList
  | .endOfOptions => "EndOfOptions".toList

def ofJoin (j : Join) : Text := ofKind (.join j)

def ofSpan (s : Span) : Text :=
  braces "Span".toList [("start", Text.ofNat s.start), ("end", Text.ofNat s.stop)]

def ofToken (t : Token) : Text :=
  braces "Token".toList [("kind", ofKind t.kind), ("span", ofSpan t.span),
    ("content", Text.literal t.content), ("quoted", ofBool t.quoted)]

def ofArguments (ts : List Text) : Text := list (ts.map Text.literal)

def ofGroup (g : Group) : Text :=
  braces "Group".toList [("action", ofJoin g.join), ("args", ofArguments g.arguments)]

def ofReason : Reason → Text
  | .unterminated => "UnterminatedString".toList
  | .halfJoin expected got => braces "PartialAction".toList
      [("expected", Text.literal expected), ("got", Text.literal got)]
  | .leadingJoin join => braces "LeadingAction".toList [("action", Text.literal join)]
  | .trailingJoin join => braces "TrailingAction".toList [("action", Text.literal join)]
  | .missingWord previous join => braces "MissingString".toList
      [("previous", Text.literal previous), ("action", Text.literal join)]

def ofLineError (e : LineError) : Text :=
  braces "LineError".toList [("span", ofSpan e.span), ("reason", ofReason e.reason)]

/-- What a line was parsed to. -/
def ofParse : Except LineError (List Group) → Text
  | .ok gs => tagged "Ok".toList (list (gs.map ofGroup))
  | .error e => tagged "Err".toList (ofLineError e)

def ofStatus : RunStatus → Text
  | .exited code => tagged "Exited".toList (Text.ofInt code)
  | .interrupted => "Interrupted".toList

def ofOutcome : Outcome → Text
  | .success code => tagged "Success".toList (Text.ofInt code)
  | .failure code => tagged "Failure".toList (Text.ofInt code)
  | .exit => "Exit".toList

end GitShell.Trace
