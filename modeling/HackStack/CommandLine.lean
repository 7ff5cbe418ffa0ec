import HackStack.CommandLine.Arguments
import HackStack.CommandLine.Report
import HackStack.Run

/-! The program as its command line runs it. -/
namespace HackStack.CommandLine

structure Answer where
  code : Nat
  output : String := ""
  log : List String := []
  report : String := ""
  tree : FileTree

def versionText : String := "vmil-translator 0.2.0\n"

def usageText : String :=
  "Usage: vmil-translator [OPTIONS] <INPUT>\n"

def helpText : String :=
  "Translates stack VM intermediate language into Hack assembly\n\n" ++ usageText ++
  "\nArguments:\n" ++
  "  <INPUT>  A .vm file, or a directory whose .vm files make up one program\n" ++
  "\nOptions:\n" ++
  "  -o, --output <FILE>  Where to write the assembly [env: VMIL_OUTPUT=]\n" ++
  "      --bootstrap      Emit the bootstrap code that calls Sys.init " ++
  "(default for directories)\n" ++
  "      --no-bootstrap   Never emit bootstrap code\n" ++
  "  -v, --verbose...     Increase output verbosity\n" ++
  "  -h, --help           Print help\n" ++
  "  -V, --version        Print version\n"

def answer (arguments : List String) (environment : Environment) (tree : FileTree) : Answer :=
  let decoded : Except Exit (Arguments × Options) := do
    let arguments ← Arguments.read arguments
    return (arguments, ← arguments.options environment)
  match decoded with
  | .error .help => { code := 0, output := helpText, tree }
  | .error .version => { code := 0, output := versionText, tree }
  | .error .usage => { code := 2, report := usageText, tree }
  | .ok (arguments, options) =>
    let level := logLevel environment.logLevel arguments.verbosity
    let outcome := run tree options
    match outcome.result with
    | .ok output =>
      { code := 0, log := logLines level (outcome.log.push (.finished output)).toList,
        tree := outcome.tree }
    | .error failure =>
      { code := 1, log := logLines level outcome.log.toList, report := report failure.chain,
        tree := outcome.tree }

end HackStack.CommandLine
