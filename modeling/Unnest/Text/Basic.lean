/-!
# Texts

A text is a list of bytes. Columns count bytes, so nothing here decodes a character: a byte of
`0x80` or above belongs to some UTF-8 sequence and is carried along unread.

* `lit`, `chr`: the bytes of a string and of an ASCII character;
* `Text.decimal`, `Text.ofInt`: numbers as they are printed;
* `Text.splitOn`: the parts of a text between separators (never an empty list);
* `Text.beforeNul`: what a reader that stops at a NUL byte sees of a text.
-/

namespace Unnest

/-- A sequence of bytes, in practice the UTF-8 encoding of some source or output. -/
abbrev Text := List UInt8

/-- The bytes of a string. -/
def lit (s : String) : Text := s.toUTF8.data.toList

/-- The byte of an ASCII character. -/
def chr (c : Char) : UInt8 := c.toUInt8

/-! ### Classes of bytes -/

/-- `0` to `9`. -/
def isDigit (b : UInt8) : Bool := chr '0' ≤ b && b ≤ chr '9'

/-- A hexadecimal digit of either case. -/
def isHexDigit (b : UInt8) : Bool :=
  isDigit b || (chr 'a' ≤ b && b ≤ chr 'f') || (chr 'A' ≤ b && b ≤ chr 'F')

def isLetter (b : UInt8) : Bool :=
  (chr 'a' ≤ b && b ≤ chr 'z') || (chr 'A' ≤ b && b ≤ chr 'Z')

/-- The lower-case form of an ASCII letter; every other byte is unchanged. -/
def toLower (b : UInt8) : UInt8 := if chr 'A' ≤ b && b ≤ chr 'Z' then b + 32 else b

/-- The six white-space bytes of ASCII. -/
def isSpace (b : UInt8) : Bool := b == 32 || (9 ≤ b && b ≤ 13)

namespace Text

/-! ### Numbers -/

/-- A number in decimal, without leading zeros. -/
def decimal (n : Nat) : Text :=
  if n < 10 then [chr '0' + n.toUInt8] else decimal (n / 10) ++ [chr '0' + (n % 10).toUInt8]
termination_by n

/-- A number in decimal, with a minus sign in front when it is negative. -/
def ofInt : Int → Text
  | .ofNat n => decimal n
  | .negSucc n => chr '-' :: decimal (n + 1)

/-! ### Cutting and joining -/

/-- The parts of `s` between occurrences of `sep`; there is always at least one. -/
def splitOn (sep : UInt8) : Text → List Text
  | [] => [[]]
  | b :: bs =>
    if b == sep then [] :: splitOn sep bs
    else match splitOn sep bs with
      | [] => [[b]]
      | p :: ps => (b :: p) :: ps

/-- The part of `s` behind its last `sep`, or all of `s` when there is none. -/
def afterLast (sep : UInt8) (s : Text) : Text := (s.reverse.takeWhile (· != sep)).reverse

/-- The texts one after the other, with `sep` between neighbours. -/
def join (sep : Text) (parts : List Text) : Text := (parts.intersperse sep).flatten

/-- What a reader sees that takes a NUL byte for the end. -/
def beforeNul (s : Text) : Text := s.takeWhile (· != 0)

/-- `n` spaces. -/
def spaces (n : Nat) : Text := List.replicate n (chr ' ')

end Text

end Unnest
