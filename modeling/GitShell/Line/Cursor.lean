import GitShell.Line.Token

/-!
# Line — Cursor

A cursor is a place among the tokens of a line: on a token, before the first (the head) or after the
last (the tail).  The tokens to its left are kept nearest first, so what governs a token, its
command and whether options are still allowed, is found by recursion on them.

* A token is in command position when it can be an argument and nothing, a join or half a join
  comes before it.
* Options end at `--`: after it, up to the next join, no word is an option.
-/

namespace GitShell

/-- A place among the tokens of a line. -/
inductive Cursor where
  /-- Before the first of the tokens. -/
  | head (right : List Token)
  /-- On a token, with the tokens before it, nearest first, and the tokens after it. -/
  | on (left : List Token) (token : Token) (right : List Token)
  /-- After the last of the tokens, nearest first. -/
  | tail (left : List Token)
deriving DecidableEq

/-! ### The shape of an option -/

/-- One or two dashes, then nothing or a text whose first character is no dash and whose others are
no line feeds. -/
def optionShaped : Text → Bool
  | '-' :: r => afterDash r || (match r with | '-' :: r' => afterDash r' | _ => false)
  | _ => false
where
  afterDash : Text → Bool
    | [] => true
    | c :: r => c != '-' && !r.contains '\n'

example : optionShaped "--stat".toList ∧ optionShaped "-".toList ∧ ¬ optionShaped "---x".toList := by
  decide

/-! ### What governs a token -/

/-- A token after `left` that is the first argument of a command. -/
def commandPosition (left : List Token) (t : Token) : Bool :=
  t.kind.isArgument &&
    match left with
    | [] => true
    | p :: _ => p.kind.isJoin || p.kind == .halfJoin

/-- No `--` stands between a token after `left` and its command, both included. -/
def optionsAllowedAt : List Token → Token → Bool
  | left, t =>
    if t.kind = .endOfOptions then false
    else if commandPosition left t then true
    else
      match left with
      | [] => false
      | p :: l => optionsAllowedAt l p

namespace Cursor

/-! ### Places -/

/-- The number of tokens to the left, or -1 at the head. -/
def index : Cursor → Int
  | head _ => -1
  | on left _ _ => left.length
  | tail left => left.length

/-- All tokens of the line. -/
def tokens : Cursor → List Token
  | head right => right
  | on left t right => left.reverse ++ t :: right
  | tail left => left.reverse

def token? : Cursor → Option Token
  | on _ t _ => some t
  | _ => none

def isHead : Cursor → Bool
  | head _ => true
  | _ => false

def isTail : Cursor → Bool
  | tail _ => true
  | _ => false

/-! ### Moves -/

/-- The token at `n` of `tokens`, after `left`; the tail if there are not so many. -/
def seek (left : List Token) : List Token → Nat → Cursor
  | [], _ => tail left
  | t :: right, 0 => on left t right
  | t :: right, n + 1 => seek (t :: left) right n

/-- The place at an index; an index too low is the head, one too high the tail. -/
def atIndex (tokens : List Token) : Int → Cursor
  | .ofNat n => seek [] tokens n
  | .negSucc _ => head tokens

/-- The place at an index of the same line. -/
def goto (c : Cursor) (i : Int) : Cursor := atIndex c.tokens i

/-- The place one token to the left; the head stays. -/
def before : Cursor → Cursor
  | head right => head right
  | on [] t right => head (t :: right)
  | on (p :: left) t right => on left p (t :: right)
  | tail [] => head []
  | tail (p :: left) => on left p []

/-- The place one token to the right; the tail stays. -/
def after : Cursor → Cursor
  | head [] => tail []
  | head (t :: right) => on [] t right
  | on left t [] => tail (t :: left)
  | on left t (n :: right) => on (t :: left) n right
  | tail left => tail left

/-- A move stays on the line. -/
theorem tokens_before (c : Cursor) : c.before.tokens = c.tokens := by
  cases c with
  | head right => rfl
  | on left t right => cases left <;> simp [before, tokens]
  | tail left => cases left <;> simp [before, tokens]

theorem tokens_after (c : Cursor) : c.after.tokens = c.tokens := by
  cases c with
  | head right => cases right <;> simp [after, tokens]
  | on left t right => cases right <;> simp [after, tokens]
  | tail left => rfl

/-- The first token; the head of an empty line. -/
def first (c : Cursor) : Cursor :=
  match c.tokens with
  | [] => head []
  | t :: right => on [] t right

/-- The last token after `left`, where `right` are the tokens from there on. -/
def lastOf (left : List Token) : List Token → Cursor
  | [] => tail left
  | [t] => on left t []
  | t :: u :: right => lastOf (t :: left) (u :: right)

/-- The last token; the tail of an empty line. -/
def last (c : Cursor) : Cursor := lastOf [] c.tokens

/-- The place of every token, in order. -/
def walkFrom (left : List Token) : List Token → List Cursor
  | [] => []
  | t :: right => on left t right :: walkFrom (t :: left) right

def walk (c : Cursor) : List Cursor := walkFrom [] c.tokens

/-! ### The token under the cursor -/

def kind? (c : Cursor) : Option Kind := c.token?.map (·.kind)

def raw (c : Cursor) : Text := (c.token?.map (·.raw)).getD []

def content (c : Cursor) : Text := (c.token?.map (·.content)).getD []

/-- The number of characters between the token and the next one. -/
def gapToNext : Cursor → Nat
  | on _ t (n :: _) => t.gapTo n
  | _ => 0

/-- The number of characters between the token and the one before it. -/
def gapToPrevious : Cursor → Nat
  | on (p :: _) t _ => p.gapTo t
  | _ => 0

def isFirst : Cursor → Bool
  | on [] _ _ => true
  | _ => false

def isLast : Cursor → Bool
  | on _ _ [] => true
  | _ => false

/-- The token can be an argument: a word or `--`. -/
def isArgument (c : Cursor) : Bool := c.kind?.any Kind.isArgument

def isJoin (c : Cursor) : Bool := c.kind?.any Kind.isJoin

/-- The token is the first argument of a command. -/
def isCommand : Cursor → Bool
  | on left t _ => commandPosition left t
  | _ => false

/-- The token has the shape of an option and is no command. -/
def isOption : Cursor → Bool
  | on left t _ => t.kind == .word && optionShaped t.raw && !commandPosition left t
  | _ => false

/-- Options may still be given here: no `--` since the command. -/
def optionsAllowed : Cursor → Bool
  | on left t _ => optionsAllowedAt left t
  | tail (p :: left) => optionsAllowedAt left p
  | _ => false

/-! ### Searches to the left -/

/-- The command of the token `t` after `left`, if only arguments lie between. -/
def commandFrom (left : List Token) (t : Token) (right : List Token) : Option Cursor :=
  if t.kind.isArgument then
    if commandPosition left t then some (on left t right)
    else
      match left with
      | [] => none
      | p :: l => commandFrom l p (t :: right)
  else none

/-- The command that the argument under the cursor belongs to. -/
def currentCommand : Cursor → Option Cursor
  | on left t right => commandFrom left t right
  | _ => none

/-- The nearest place at or before the token `t` after `left` that satisfies `p`. -/
def findFrom (p : Cursor → Bool) (left : List Token) (t : Token) (right : List Token) :
    Option Cursor :=
  if p (on left t right) then some (on left t right)
  else
    match left with
    | [] => none
    | u :: l => findFrom p l u (t :: right)

/-- The last token of the line that satisfies `p`. -/
def findLast (p : Cursor → Bool) (c : Cursor) : Option Cursor :=
  match c.last with
  | on left t right => findFrom p left t right
  | _ => none

end Cursor

/-- The cursor at index 0: the first token, or the tail of an empty line. -/
def Cursor.ofTokens (tokens : List Token) : Cursor := Cursor.seek [] tokens 0

end GitShell
