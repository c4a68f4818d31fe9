import Unnest.Error

/-!
# Tokens

The words of a source file. Modifier keywords form one family (`TokenKind.modifier`), so that a run
of modifiers is recognised by a single pattern; the other reserved words that the grammar looks at
have a kind each, and all remaining ones share `TokenKind.keyword`.

* `TokenKind.all`: every kind, in a fixed order;
* `TokenKind.ofWord`: the kind of an identifier-like word;
* `Token.endLine`: the line on which a token ends.
-/

namespace Unnest

/-- The keywords that may stand in front of a declaration. -/
inductive Modifier
  | pub | priv | prot | static | final | abstract | native | synchronized | transient | volatile
  | strictfp | dflt
deriving DecidableEq, Repr

/-- The kinds of token. -/
inductive TokenKind
  | eof
  | comment
  | ident
  | intLit
  | floatLit
  | charLit
  | stringLit
  | boolLit
  | nullLit
  | kwClass
  | kwInterface
  | kwEnum
  | kwExtends
  | kwImplements
  | kwThrows
  | kwNew
  | kwPackage
  | kwImport
  | kwVoid
  | kwSuper
  | modifier (m : Modifier)
  | primitive
  | keyword
  | lbrace
  | rbrace
  | lparen
  | rparen
  | lbracket
  | rbracket
  | lt
  | gt
  | semi
  | comma
  | dot
  | ellipsis
  | atSign
  | equal
  | question
  | colon
  | amp
  | operator
deriving DecidableEq, Repr

/-- The coarse classes of token kinds. -/
inductive TokenCategory
  | keyword
  | identifier
  | literal
  | operator
  | comment
  | punctuation
  | eof
deriving DecidableEq, Repr

def Modifier.all : List Modifier :=
  [.pub, .priv, .prot, .static, .final, .abstract, .native, .synchronized, .transient, .volatile,
    .strictfp, .dflt]

namespace TokenKind

def all : List TokenKind :=
  [eof, comment, ident, intLit, floatLit, charLit, stringLit, boolLit, nullLit, kwClass,
    kwInterface, kwEnum, kwExtends, kwImplements, kwThrows, kwNew, kwPackage, kwImport, kwVoid,
    kwSuper] ++ Modifier.all.map modifier ++
  [primitive, keyword, lbrace, rbrace, lparen, rparen, lbracket, rbracket, lt, gt, semi, comma, dot,
    ellipsis, atSign, equal, question, colon, amp, operator]

/-- The name under which a kind is shown. -/
def name : TokenKind → String
  | eof => "End"
  | comment => "Comment"
  | ident => "Ident"
  | intLit => "IntLit"
  | floatLit => "FloatLit"
  | charLit => "CharLit"
  | stringLit => "StringLit"
  | boolLit => "BoolLit"
  | nullLit => "NullLit"
  | kwClass => "Class"
  | kwInterface => "Interface"
  | kwEnum => "Enum"
  | kwExtends => "Extends"
  | kwImplements => "Implements"
  | kwThrows => "Throws"
  | kwNew => "New"
  | kwPackage => "Package"
  | kwImport => "Import"
  | kwVoid => "Void"
  | kwSuper => "Super"
  | modifier .pub => "Public"
  | modifier .priv => "Private"
  | modifier .prot => "Protected"
  | modifier .static => "Static"
  | modifier .final => "Final"
  | modifier .abstract => "Abstract"
  | modifier .native => "Native"
  | modifier .synchronized => "Synchronized"
  | modifier .transient => "Transient"
  | modifier .volatile => "Volatile"
  | modifier .strictfp => "Strictfp"
  | modifier .dflt => "Default"
  | primitive => "PrimitiveType"
  | keyword => "Keyword"
  | lbrace => "LBrace"
  | rbrace => "RBrace"
  | lparen => "LParen"
  | rparen => "RParen"
  | lbracket => "LBracket"
  | rbracket => "RBracket"
  | lt => "Lt"
  | gt => "Gt"
  | semi => "Semi"
  | comma => "Comma"
  | dot => "Dot"
  | ellipsis => "Ellipsis"
  | atSign => "At"
  | equal => "Equal"
  | question => "Question"
  | colon => "Colon"
  | amp => "Amp"
  | operator => "Operator"

/-- The class a kind belongs to. -/
def category : TokenKind → TokenCategory
  | eof => .eof
  | comment => .comment
  | ident => .identifier
  | intLit | floatLit | charLit | stringLit | boolLit | nullLit => .literal
  | lbrace | rbrace | lparen | rparen | lbracket | rbracket | semi | comma | dot | ellipsis
      | atSign =>
    .punctuation
  | lt | gt | equal | question | colon | amp | operator => .operator
  | _ => .keyword

def isModifier : TokenKind → Bool
  | modifier _ => true
  | _ => false

/-- The reserved words with their kinds. -/
def reserved : List (String × TokenKind) :=
  [("class", kwClass), ("interface", kwInterface), ("enum", kwEnum), ("extends", kwExtends),
    ("implements", kwImplements), ("throws", kwThrows), ("new", kwNew), ("package", kwPackage),
    ("import", kwImport), ("void", kwVoid), ("super", kwSuper),
    ("public", modifier .pub), ("private", modifier .priv),
    ("protected", modifier .prot), ("static", modifier .static), ("final", modifier .final),
    ("abstract", modifier .abstract), ("native", modifier .native),
    ("synchronized", modifier .synchronized), ("transient", modifier .transient),
    ("volatile", modifier .volatile), ("strictfp", modifier .strictfp),
    ("default", modifier .dflt),
    ("true", boolLit), ("false", boolLit), ("null", nullLit),
    ("boolean", primitive), ("byte", primitive), ("char", primitive), ("short", primitive),
    ("int", primitive), ("long", primitive), ("float", primitive), ("double", primitive),
    ("assert", keyword), ("break", keyword), ("case", keyword), ("catch", keyword),
    ("const", keyword), ("continue", keyword), ("do", keyword), ("else", keyword),
    ("finally", keyword), ("for", keyword), ("goto", keyword), ("if", keyword),
    ("instanceof", keyword), ("return", keyword), ("switch", keyword), ("this", keyword),
    ("throw", keyword), ("try", keyword), ("while", keyword)]

/-- The kind of a word: its own when it is reserved, an identifier otherwise. -/
def ofWord (word : Text) : TokenKind :=
  match reserved.find? (fun entry => lit entry.1 == word) with
  | some entry => entry.2
  | none => ident

end TokenKind

/-- A token with its text as written and its place. -/
structure Token where
  kind : TokenKind := .eof
  text : Text := []
  file : Text := []
  line : Int := 1
  col : Int := 1
  /-- White space or the start of a line precedes the token. -/
  spaceBefore : Bool := false
deriving DecidableEq, Repr, Inhabited

namespace Token

def place (t : Token) : Place := { file := t.file, line := t.line, col := t.col }

def error (t : Token) (cause : Cause) : SourceError := .ofPlace cause t.place t.text

/-- The token behind the last token of a source. -/
def ofEnd (file : Text) (line : Nat) : Token := { kind := .eof, text := lit "<EOF>", file, line }

/-- The line on which a token ends; only comments span lines. -/
def endLine (t : Token) : Int := t.line + t.text.count (chr '\n')

/-- Whether a token is a comment that runs to the end of its line. -/
def isLineComment (t : Token) : Bool := t.kind == .comment && (lit "//").isPrefixOf t.text

end Token

end Unnest
