import Unnest.Token.Basic

/-!
# Lexemes

What stands at the head of the rest of a line. `lexeme c cs` looks at the byte `c` and the bytes
`cs` behind it and says which token begins there and how many of the bytes `cs` belong to it, that a
block comment begins there which does not end on this line, or why no token can begin there. Nothing
in front of `c` matters.

The scanners for the parts of a lexeme (`closingMark`, `closingQuote`, `digitsLength`,
`exponentLength`) count bytes, so the text of a token is always a leading piece of `c :: cs`.
-/

namespace Unnest

/-- What begins at the head of the rest of a line. -/
inductive Lexeme
  /-- A token: the first byte and `more` bytes behind it. -/
  | token (kind : TokenKind) (more : Nat)
  /-- A block comment that is still open at the end of the line. -/
  | openComment
  | fault (cause : Cause)
deriving DecidableEq, Repr

namespace Lexeme

/-- A space, a tab or a form feed: white space inside a line. -/
def isBlank (b : UInt8) : Bool := b == chr ' ' || b == chr '\t' || b == 12

/-- A byte that can begin a name: a letter, `_`, `$`, or a byte of a multi-byte character. -/
def isNameStart (b : UInt8) : Bool := isLetter b || b == chr '_' || b == chr '$' || 128 ≤ b

def isNameByte (b : UInt8) : Bool := isNameStart b || isDigit b

/-! ### Comments and quoted literals -/

/-- The number of bytes in front of the first `*/`. -/
def closingMark : Text → Option Nat
  | [] => none
  | b :: bs =>
    if b == chr '*' && bs.head? == some (chr '/') then some 0 else (closingMark bs).map (· + 1)

/-- The number of bytes up to and including the first `quote` that no backslash escapes. -/
def closingQuote (quote : UInt8) : Text → Option Nat
  | [] => none
  | b :: bs =>
    if b == chr '\\' then
      match bs with
      | [] => none
      | _ :: rest => (closingQuote quote rest).map (· + 2)
    else if b == quote then some 1
    else (closingQuote quote bs).map (· + 1)

/-- A string or character literal that begins with `quote`. -/
def quoted (quote : UInt8) (cs : Text) : Lexeme :=
  let isString := quote == chr '"'
  if isString && (lit "\"\"").isPrefixOf cs then .fault .textBlock
  else match closingQuote quote cs with
    | some more => .token (if isString then .stringLit else .charLit) more
    | none => .fault (if isString then .unterminatedString else .unterminatedCharacter)

/-! ### Numbers -/

/-- The number of leading bytes that are underscores or digits of the given class. -/
def digitsLength (isOk : UInt8 → Bool) (s : Text) : Nat :=
  (s.takeWhile (fun b => isOk b || b == chr '_')).length

/-- The length of a leading fraction: a point that no second point follows, and digits. -/
def fractionLength : Text → Nat
  | [] => 0
  | b :: bs =>
    if b == chr '.' && bs.head? != some (chr '.') then 1 + digitsLength isDigit bs else 0

/-- The length of a leading exponent; an exponent without digits is none. -/
def exponentLength : Text → Nat
  | [] => 0
  | b :: bs =>
    if b == chr 'e' || b == chr 'E' then
      let sign := match bs with
        | [] => 0
        | s :: _ => if s == chr '+' || s == chr '-' then 1 else 0
      match digitsLength isDigit (bs.drop sign) with
      | 0 => 0
      | n + 1 => 1 + sign + (n + 1)
    else 0

/-- A suffix that makes a number a floating-point one. -/
def isFloatSuffix (b : UInt8) : Bool :=
  b == chr 'f' || b == chr 'F' || b == chr 'd' || b == chr 'D'

/-- A number whose digits end after `length` bytes: `rest` stands behind them. An integer may bear
the suffix of a long one, and no name may follow directly. -/
def closeNumber (isFloat : Bool) (length : Nat) (rest : Text) : Lexeme :=
  let suffix := match rest with
    | [] => 0
    | b :: _ => if !isFloat && (b == chr 'l' || b == chr 'L') then 1 else 0
  match rest.drop suffix with
  | [] => .token (if isFloat then .floatLit else .intLit) (length + suffix - 1)
  | b :: _ =>
    if isNameByte b then .fault .malformedNumber
    else .token (if isFloat then .floatLit else .intLit) (length + suffix - 1)

/-- A number in decimal notation, the text `s` beginning with a digit or a point and a digit. -/
def decimalNumber (s : Text) : Lexeme :=
  let whole := digitsLength isDigit s
  let fraction := fractionLength (s.drop whole)
  let exponent := exponentLength (s.drop (whole + fraction))
  let length := whole + fraction + exponent
  match s.drop length with
  | [] => closeNumber (0 < fraction || 0 < exponent) length []
  | b :: rest =>
    if isFloatSuffix b then .token .floatLit length
    else closeNumber (0 < fraction || 0 < exponent) length (b :: rest)

/-- A number that begins with the byte `c`. -/
def number (c : UInt8) (cs : Text) : Lexeme :=
  match cs with
  | [] => decimalNumber [c]
  | x :: rest =>
    if c == chr '0' && (x == chr 'x' || x == chr 'X') then
      let digits := digitsLength isHexDigit rest
      closeNumber false (2 + digits) (rest.drop digits)
    else if c == chr '0' && (x == chr 'b' || x == chr 'B') then
      let digits := digitsLength (fun b => b == chr '0' || b == chr '1') rest
      closeNumber false (2 + digits) (rest.drop digits)
    else decimalNumber (c :: cs)

/-! ### Operators and punctuation -/

/-- The bytes that are a token wherever they stand. -/
def punctuation : List (Char × TokenKind) :=
  [('{', .lbrace), ('}', .rbrace), ('(', .lparen), (')', .rparen), ('[', .lbracket),
    (']', .rbracket), (';', .semi), (',', .comma), ('@', .atSign), ('?', .question),
    ('~', .operator)]

/-- The operators of several bytes; of two that fit, the first is taken. There is no `>>`, so that
nested type arguments close one bracket at a time. -/
def longOperators : List String :=
  ["<<=", "->", "::", "++", "--", "&&", "||", "==", "!=", "<=", "<<", "+=", "-=", "*=", "/=", "%=",
    "&=", "|=", "^=", ">="]

/-- The operators of one byte. -/
def shortOperators : List (Char × TokenKind) :=
  [('<', .lt), ('>', .gt), ('=', .equal), (':', .colon), ('&', .amp), ('+', .operator),
    ('-', .operator), ('*', .operator), ('/', .operator), ('%', .operator), ('!', .operator),
    ('|', .operator), ('^', .operator)]

/-- The kind that a table gives to a byte. -/
def kindOf? (table : List (Char × TokenKind)) (b : UInt8) : Option TokenKind :=
  (table.find? (fun entry => chr entry.1 == b)).map (·.2)

/-- An operator, or a byte that no token begins with. -/
def operator (c : UInt8) (cs : Text) : Lexeme :=
  match longOperators.find? (fun op => (lit op).isPrefixOf (c :: cs)) with
  | some op => .token .operator ((lit op).length - 1)
  | none =>
    match kindOf? shortOperators c with
    | some kind => .token kind 0
    | none => .fault .unexpectedCharacter

end Lexeme

open Lexeme in
/-- The lexeme that begins with the byte `c` and the bytes `cs` behind it. -/
def lexeme (c : UInt8) (cs : Text) : Lexeme :=
  if c == chr '/' && cs.head? == some (chr '/') then .token .comment cs.length
  else if c == chr '/' && cs.head? == some (chr '*') then
    match closingMark cs.tail with
    | some inside => .token .comment (inside + 3)
    | none => .openComment
  else
    match kindOf? punctuation c with
    | some kind => .token kind 0
    | none =>
      if c == chr '"' || c == chr '\'' then quoted c cs
      else if isDigit c || (c == chr '.' && cs.head?.any isDigit) then number c cs
      else if isNameStart c then
        let tail := cs.takeWhile isNameByte
        .token (.ofWord (c :: tail)) tail.length
      else if c == chr '.' then
        if (lit "..").isPrefixOf cs then .token .ellipsis 2 else .token .dot 0
      else operator c cs

end Unnest
