import LazyTree.CommandLine.Arguments

/-!
The texts that tell how the program is used.
-/
namespace LazyTree.CommandLine

def versionText : String := "dtree 0.1.0\n"

def helpLines : HelpTopic → List String
  | .program =>
    [ "Lazily synchronized, sorted directory tree kept in step with a live filesystem",
      "",
      "Usage: dtree [OPTIONS] <BASE> <COMMAND>",
      "",
      "Commands:",
      "  show   Select a path and print the tree once",
      "  watch  Select a path and re-print the tree after every filesystem change",
      "  help   Print this message or the help of the given subcommand(s)",
      "",
      "Arguments:",
      "  <BASE>  Host directory mapped to the virtual root `/`",
      "",
      "Options:",
      "      --config <PATH>  Explicit config file, merged over the discovered ones",
      "  -v, --verbose        Log refresh activity to stderr",
      "  -h, --help           Print help",
      "  -V, --version        Print version" ]
  | .show =>
    [ "Select a path and print the tree once",
      "",
      "Usage: dtree <BASE> show [OPTIONS] <PATH>",
      "",
      "Arguments:",
      "  <PATH>  Virtual path to select, e.g. /projects/app/src",
      "",
      "Options:",
      "      --json  Print a JSON snapshot instead of text",
      "      --all   Show hidden and ignored directories",
      "  -h, --help  Print help" ]
  | .watch =>
    [ "Select a path and re-print the tree after every filesystem change",
      "",
      "Usage: dtree <BASE> watch <PATH>",
      "",
      "Arguments:",
      "  <PATH>  Virtual path to select",
      "",
      "Options:",
      "  -h, --help  Print help" ]
  | .help =>
    [ "Print this message or the help of the given subcommand(s)",
      "",
      "Usage: dtree <BASE> help [COMMAND]...",
      "",
      "Arguments:",
      "  [COMMAND]...  Print help for the subcommand(s)" ]

def helpText (topic : HelpTopic) : String :=
  String.join ((helpLines topic).map (fun line => line ++ "\n"))

end LazyTree.CommandLine
