import Unnest.Group.Nest
import Unnest.Grammar.Body

/-!
# Files

A file has an optional package declaration, imports, and class declarations with semicolons between
them. Annotations of the package are passed over.
-/

namespace Unnest

namespace Parser

/-- The package declaration, which may bear annotations; empty when there is none. -/
def packageDecl : Parser Text := do
  let s ← get
  let bare := s.skipModifiers
  if bare.isAt .kwPackage then
    set bare
    let _ ← expect .kwPackage (lit "'package'")
    let name ← qualifiedName
    let _ ← expect .semi (lit "';' after package name")
    return name
  else
    return []

def importDecl : Parser Import := do
  let _ ← expect .kwImport (lit "'import'")
  let isStatic := (← get).isAt (.modifier .static)
  if isStatic then
    advance
  let name ← qualifiedName
  let isWildcard := (← get).isAt .dot
  if isWildcard then
    advance
    if !(← current).token?.any (·.text == lit "*") then
      fail (.expected (lit "'*' or a name after '.'"))
    advance
  let _ ← expect .semi (lit "';' after import")
  return { name, isStatic, isWildcard }

/-- Whether a class declaration begins at the cursor. -/
def isAtTypeDecl (s : Cursor) : Bool :=
  let s := s.skipModifiers
  s.isAt .kwClass || s.isAt .kwInterface || s.isAt .kwEnum

/-- The next class declaration with the elements it covers, or nothing for a semicolon. -/
def topLevel (inside : Inside) : Parser (Option TypeDecl) := do
  let s ← get
  if s.isAt .semi then
    advance
    return none
  else if isAtTypeDecl s then
    let decl ← typeDecl inside
    let span : Span := ⟨s.pos, (← get).pos⟩
    return some { decl with head := { decl.head with span } }
  else
    fail .noTypeDeclaration

/-- A file. -/
def file (inside : Inside) : Parser File := do
  let place := (← get).here.place
  let package ← packageDecl
  let imports ← many do
    if (← get).isAt .kwImport then
      return some (← importDecl)
    else
      return none
  let types ← many do
    if (← get).hasNext then
      return some (← topLevel inside)
    else
      return none
  return { place, package, imports, types := types.filterMap id }

end Parser

/-- The file whose elements a root group holds. -/
def File.ofGroup (root : Group) : Except SourceError File :=
  (Parser.file (Inside.ofElements root.children)).runOn root

/-- The file of a source text. -/
def File.ofSource (source : Source) : Except SourceError File := do
  File.ofGroup (← Group.ofSource source)

end Unnest
