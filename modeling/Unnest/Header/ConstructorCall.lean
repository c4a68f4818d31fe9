import Unnest.Token.Basic

/-!
# Constructor calls

A constructor body may begin with a call of another constructor, `super(…);` or `this(…);`. In a
header the call stands in front of the body.

* `leadingCall?`: the call at the beginning of a body.
-/

namespace Unnest

/-- A call of another constructor at the beginning of a constructor body. -/
structure LeadingCall where
  /-- Whether a constructor of the same class is called. -/
  delegates : Bool
  /-- The tokens between the parentheses. -/
  args : List Token
  /-- The number of tokens up to and with the semicolon, comments in front included. -/
  length : Nat
deriving Repr

/-- The number of tokens in front of the parenthesis that closes `depth + 1` open ones. -/
def closingParen? : (depth : Nat) → List Token → Option Nat
  | _, [] => none
  | depth, t :: ts =>
    if t.kind = .lparen then (closingParen? (depth + 1) ts).map (· + 1)
    else if t.kind = .rparen then
      match depth with
      | 0 => some 0
      | depth + 1 => (closingParen? depth ts).map (· + 1)
    else (closingParen? depth ts).map (· + 1)

/-- Whether a token is `this`. -/
def Token.isThis (t : Token) : Bool := t.kind == .keyword && t.text == lit "this"

/-- The call at the beginning of a body with these tokens, comments in front of it apart. -/
def leadingCall? (tokens : List Token) : Option LeadingCall :=
  let comments := tokens.takeWhile (·.kind == .comment)
  match tokens.dropWhile (·.kind == .comment) with
  | callee :: paren :: rest =>
    if (callee.kind == .kwSuper || callee.isThis) && paren.kind == .lparen then
      (closingParen? 0 rest).bind fun n =>
        match rest.drop (n + 1) with
        | semi :: _ =>
          if semi.kind = .semi then
            some
              { delegates := callee.isThis, args := rest.take n, length := comments.length + n + 4 }
          else none
        | [] => none
    else none
  | _ => none

end Unnest
