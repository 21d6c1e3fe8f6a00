import ApiClient.CommandLine.Arguments

/-!
# What the program says about itself
-/

namespace ApiClient.CommandLine

def versionText : String := "apigen 0.4.0\n"

def usageText : String :=
  "OpenAPI 3.x to TypeScript client generator\n\n"
    ++ "Usage: apigen <COMMAND>\n\n"
    ++ "Commands:\n"
    ++ "  generate     Generate a TypeScript client module from an OpenAPI spec\n"
    ++ "  validate     Validate an OpenAPI spec by running generation without writing output\n"
    ++ "  init         Initialize a new apigen configuration\n"
    ++ "  completions  Generate shell completions\n"
    ++ "  help         Print this message\n"

def commandWords : String := " ".intercalate (commandNames ++ ["help"])

/-- A script that makes a shell complete the names of the commands. -/
def Shell.script : Shell → String
  | .bash => "complete -W \"" ++ commandWords ++ "\" apigen\n"
  | .elvish =>
    "set edit:completion:arg-completer[apigen] = \x7b |@words| put " ++ commandWords ++ " \x7d\n"
  | .fish => "complete -c apigen -n __fish_use_subcommand -f -a \"" ++ commandWords ++ "\"\n"
  | .powershell =>
    "Register-ArgumentCompleter -Native -CommandName apigen -ScriptBlock \x7b '" ++ commandWords
      ++ "' -split ' ' \x7d\n"
  | .zsh => "#compdef apigen\n_arguments '1:command:(" ++ commandWords ++ ")'\n"

end ApiClient.CommandLine
