import Unnest.Decl.Basic

/-!
# Names for anonymous classes

An anonymous class becomes a class of its own and needs a name for that. Inside a top-level class
`T` the anonymous classes are `T_1`, `T_2`, … in source order: a class comes before the ones in its
arguments, and these before the ones in its members.

* `File.labelled`: the file with the name of each anonymous class filled in.
-/

namespace Unnest

/-- The `n`-th anonymous class inside `top`, counted from 1. -/
def anonymousName (top : Text) (n : Nat) : Text := top ++ lit "_" ++ Text.decimal n

mutual

/-- Pieces of code with their anonymous classes named, and the number of the next free name. -/
def labelPieces (top : Text) (next : Nat) : List Piece → List Piece × Nat
  | [] => ([], next)
  | .token t :: ps =>
    let (ps, next) := labelPieces top next ps
    (.token t :: ps, next)
  | .creation a :: ps =>
    let (a, next) := a.labelled top next
    let (ps, next) := labelPieces top next ps
    (.creation a :: ps, next)

/-- An anonymous class named, with the ones inside it. -/
def Anonymous.labelled (top : Text) (next : Nat) : Anonymous → Anonymous × Nat
  | ⟨place, base, none, members, endLine, _⟩ =>
    let (members, after) := labelMembers top (next + 1) members
    (⟨place, base, none, members, endLine, some (anonymousName top next)⟩, after)
  | ⟨place, base, some ⟨argsPlace, pieces⟩, members, endLine, _⟩ =>
    let (pieces, inner) := labelPieces top (next + 1) pieces
    let (members, after) := labelMembers top inner members
    (⟨place, base, some ⟨argsPlace, pieces⟩, members, endLine, some (anonymousName top next)⟩,
      after)

/-- Declarators with the anonymous classes of their initializers named. -/
def labelDeclarators (top : Text) (next : Nat) : List Declarator → List Declarator × Nat
  | [] => ([], next)
  | ⟨name, dims, line, col, none⟩ :: ds =>
    let (ds, next) := labelDeclarators top next ds
    (⟨name, dims, line, col, none⟩ :: ds, next)
  | ⟨name, dims, line, col, some ⟨place, pieces⟩⟩ :: ds =>
    let (pieces, next) := labelPieces top next pieces
    let (ds, next) := labelDeclarators top next ds
    (⟨name, dims, line, col, some ⟨place, pieces⟩⟩ :: ds, next)

/-- A member with the anonymous classes in it named. -/
def Member.labelled (top : Text) (next : Nat) : Member → Member × Nat
  | .field head declarators =>
    let (declarators, next) := labelDeclarators top next declarators
    (.field head declarators, next)
  | .method head none => (.method head none, next)
  | .method head (some ⟨place, pieces⟩) =>
    let (pieces, next) := labelPieces top next pieces
    (.method head (some ⟨place, pieces⟩), next)
  | .constructor head ⟨place, pieces⟩ =>
    let (pieces, next) := labelPieces top next pieces
    (.constructor head ⟨place, pieces⟩, next)
  | .nested head members =>
    let (members, next) := labelMembers top next members
    (.nested head members, next)
  | .initializer head ⟨place, pieces⟩ =>
    let (pieces, next) := labelPieces top next pieces
    (.initializer head ⟨place, pieces⟩, next)
  | .constant head none none => (.constant head none none, next)
  | .constant head (some ⟨place, pieces⟩) none =>
    let (pieces, next) := labelPieces top next pieces
    (.constant head (some ⟨place, pieces⟩) none, next)
  | .constant head none (some body) =>
    let (body, next) := body.labelled top next
    (.constant head none (some body), next)
  | .constant head (some ⟨place, pieces⟩) (some body) =>
    let (pieces, next) := labelPieces top next pieces
    let (body, next) := body.labelled top next
    (.constant head (some ⟨place, pieces⟩) (some body), next)

/-- Members with the anonymous classes in them named. -/
def labelMembers (top : Text) (next : Nat) : List Member → List Member × Nat
  | [] => ([], next)
  | m :: ms =>
    let (m, next) := m.labelled top next
    let (ms, next) := labelMembers top next ms
    (m :: ms, next)

end

/-- A top-level class with the anonymous classes in it named. -/
def TypeDecl.labelled (d : TypeDecl) : TypeDecl :=
  { d with members := (labelMembers d.head.name 1 d.members).1 }

/-- A file with its anonymous classes named; the numbers begin anew in each top-level class. -/
def File.labelled (f : File) : File := { f with types := f.types.map (·.labelled) }

end Unnest
