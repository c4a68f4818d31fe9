import Unnest.Text.Basic

/-!
# Usage

The help text of the command.

* `usage`: the help text for a program name.
-/

namespace Unnest

def programName : Option Text → Text
  | none | some [] => lit "nestport"
  | some path => Text.afterLast (chr '/') path

def usage (program : Option Text) : Text :=
  lit "Usage: " ++ programName program ++ lit " [options] file...\n" ++
    lit "\n" ++
    lit "Translate class declarations into C++ headers, one header per input file.\n" ++
    lit "\n" ++
    lit "Options:\n" ++
    lit "  -h, --help              Print this help and exit\n" ++
    lit "  -o <file>               Write the header to <file> ('-' for stdout; " ++
    lit "single input only)\n" ++
    lit "  --out-dir <dir>         Write <stem>.h for every input into <dir>\n" ++
    lit "  -j <n>                  Transpile up to <n> files in parallel (default: 1)\n" ++
    lit "  -k, --keep-going        Continue with remaining files after a failure\n" ++
    lit "  --known-type <name>     Accept <name> as an external base type (repeatable)\n" ++
    lit "  --dump-ast              Print the parsed AST to stdout\n" ++
    lit "  --log-tokens            Print the token stream to stdout\n" ++
    lit "  --color[=auto|always|never]  Colorize diagnostics (auto: NESTPORT_COLOR)\n" ++
    lit "  --metrics[=json|text]   Print a phase timing summary (default: text)\n" ++
    lit "  --                      End of options\n" ++
    lit "\n" ++
    lit "Exit status: 0 success, 1 translation errors, 2 usage or I/O errors.\n"

end Unnest
