/-! # Help

    The help text of the command. -/

namespace ComponentDecl.Command

/-- The lines of the help text. -/
def helpLines : List String :=
  ["Usage: sveltedts [OPTIONS] FILES...",
   "",
   "  Restructure component declaration files into a class plus a namespace of Props",
   "  / Events / Slots type aliases.",
   "",
   "Options:",
   "  --comments FILE                 JSON file with \x60componentDescription\x60 and",
   "                                  \x60props\x60 doc comments (single file only).",
   "  -o, --output FILE               Write the result here instead of stdout",
   "                                  (single file only).",
   "  --in-place                      Overwrite the input files.",
   "  --helper-variable TEXT          Name of the synthetic helper variable",
   "                                  (default: __propDef).",
   "  --type-argument-policy [ignore|warn|error]",
   "                                  What to do when the base type does not have",
   "                                  exactly 3 type arguments.",
   "  --rollback / --no-rollback      Restore a file's original text when processing",
   "                                  fails.",
   "  --fail-fast                     Stop at the first failed file.",
   "  --debug / --no-debug            Enable debug logging.",
   "  -h, --help                      Show this message and exit."]

/-- The help text. -/
def help : String := String.join (helpLines.map (· ++ "\n"))

end ComponentDecl.Command
