-- Running a command by its name, and what the caller sees of it.
import DroneShow.Command.Programs

namespace DroneShow

/-! ## Faults on the error output -/

/-- Text in quotes, with quotes and backslashes escaped. -/
def quoted (text : String) : String :=
  let escape (c : Char) : List Char := if c = '"' || c = '\\' then ['\\', c] else [c]
  String.ofList ('"' :: text.toList.flatMap escape ++ ['"'])

def FileFault.describe : FileFault → String
  | .system code kind message =>
    "Os \x7b code: " ++ toString code ++ ", kind: " ++ kind ++ ", message: " ++ quoted message
      ++ " \x7d"
  | .other text => "Custom \x7b kind: Other, error: " ++ quoted text ++ " \x7d"

/-- A fault as the commands report it: its kind, with the reason. -/
def Fault.describe : Fault → String
  | .outOfMemory => "OutOfMemory"
  | .invalidArgument reason => "InvalidArgument(" ++ quoted reason ++ ")"
  | .parse reason => "Parse(" ++ quoted reason ++ ")"
  | .overflow reason => "Overflow(" ++ quoted reason ++ ")"
  | .notFound => "NotFound"
  | .unsupported reason => "Unsupported(" ++ quoted reason ++ ")"
  | .file fault => "Io(" ++ fault.describe ++ ")"
  | .misuse call => call.message

namespace Command

inductive Program where
  | survey | cut | play
deriving DecidableEq, Repr

def Program.ofName? : String → Option Program
  | "traj_stats" => some .survey
  | "traj_cut" => some .cut
  | "showtraj" => some .play
  | _ => none

/-- What a command leaves: its exit code and its output. -/
structure Outcome where
  exit : Nat
  output : String
  errors : String
deriving DecidableEq

variable {m : Type → Type} [Monad m]

def task (files : Files m) : Program → List String → Task m String
  | .survey => survey files
  | .cut => cut files
  | .play => play files

/-- Runs a command. A fault is reported and makes the exit code one. -/
def run (files : Files m) (program : Program) (args : List String) : m Outcome := do
  match ← (task files program args).run with
  | .ok output => pure ⟨0, output, ""⟩
  | .error fault => pure ⟨1, "", "Error: " ++ fault.describe ++ "\n"⟩

end Command

end DroneShow
