import RemoteMenu.Rehearsal.Arguments

/-!
# Help
-/

namespace RemoteMenu.Rehearsal

def versionLine : String := "menusync 0.1.0"

def programHelp : List String :=
  ["Plan and rehearse head-unit menu updates",
    "",
    "Usage: menusync [OPTIONS] <COMMAND>",
    "",
    "Commands:",
    "  plan     Show what would change between two menus",
    "  dry-run  Run a full reconciliation against a simulated host",
    "  help     Print this message or the help of the given subcommand(s)",
    "",
    "Options:",
    "  -v, --verbose...       Increase logging verbosity",
    "  -c, --config <CONFIG>  Config file (defaults to ~/.menusync/config.toml)",
    "      --json             Print machine readable JSON",
    "  -h, --help             Print help",
    "  -V, --version          Print version"]

def planHelp : List String :=
  ["Show what would change between two menus",
    "",
    "Usage: menusync plan [OPTIONS] --target <TARGET>",
    "",
    "Options:",
    "      --current <CURRENT>  Menu the host shows now (JSON, with remote ids)",
    "      --target <TARGET>    Menu the application wants (JSON)",
    "  -c, --config <CONFIG>    Config file (defaults to ~/.menusync/config.toml)",
    "      --json               Print machine readable JSON",
    "  -h, --help               Print help"]

def dryRunHelp : List String :=
  ["Run a full reconciliation against a simulated host",
    "",
    "Usage: menusync dry-run [OPTIONS] --target <TARGET>",
    "",
    "Options:",
    "      --current <CURRENT>  ",
    "      --target <TARGET>    ",
    "      --fail-adds          Simulate a host that rejects every add",
    "  -c, --config <CONFIG>    Config file (defaults to ~/.menusync/config.toml)",
    "      --json               Print machine readable JSON",
    "  -h, --help               Print help"]

def helpHelp : List String :=
  ["Print this message or the help of the given subcommand(s)",
    "",
    "Usage: menusync help [COMMAND]...",
    "",
    "Arguments:",
    "  [COMMAND]...  Print help for the subcommand(s)"]

def Topic.lines : Topic → List String
  | .part .program => programHelp
  | .part (.command .plan) => planHelp
  | .part (.command .dryRun) => dryRunHelp
  | .help => helpHelp

end RemoteMenu.Rehearsal
