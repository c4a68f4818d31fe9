import Unnest.Header.MemberText

/-!
# The text of a header

A header announces all classes in declaration order, defines them with bases before derived classes,
defines their members, and has every class initialized as soon as the program starts.

* `File.header`: the header of a file.
-/

namespace Unnest

namespace Header

/-- The first lines, up to the announcements. -/
def banner (h : Header) : Text :=
  lit "// Generated by nestport" ++
    (if h.options.sourceName.isEmpty then [] else lit " from " ++ h.options.sourceName) ++
    lit ". Do not edit.\n#pragma once\n\n" ++
    lit "#include <cstdint>\n#include <stdexcept>\n#include <utility>\n#include \"" ++
    h.options.runtimeHeader ++ lit "\"\n" ++
    (if h.file.package.isEmpty then []
      else lit "\nnamespace " ++ qualifiedText h.file.package ++ lit " \x7b\n") ++ lit "\n"

/-- The last lines: the end of the namespace of the package. -/
def footer (h : Header) : Text :=
  if h.file.package.isEmpty then []
  else lit "\n\x7d // namespace " ++ qualifiedText h.file.package ++ lit "\n"

/-- The variable whose initialization initializes a class. Templates have none. -/
def staticTrigger (c : ClassInfo) : Text :=
  if c.isTemplate || !c.needsInitStatic then []
  else lit "[[maybe_unused]] inline const bool " ++ c.emitted ++ lit "_staticInit = (" ++
    c.emitted ++
    lit "::initStatic(), true);\n"

/-- The classes in the order of their definition, with their numbers. -/
def inOrder (h : Header) : List (Nat × ClassInfo) :=
  h.plan.emission.filterMap fun i => (h.plan.class? i).map fun c => (i, c)

def text (h : Header) : Except SourceError Text := do
  let members ← h.inOrder.mapM fun (i, c) => h.memberDefinitions i c
  return h.banner ++ h.plan.classes.flatMap forwardDeclaration ++
    h.inOrder.flatMap (fun (i, c) => h.definition i c) ++ members.flatten ++
    h.inOrder.flatMap (fun (_, c) => staticTrigger c) ++ h.footer

end Header

/-- The header of a file. -/
def File.header (options : HeaderOptions) (f : File) : Except SourceError Text := do
  (← Header.ofFile options f).text

end Unnest
