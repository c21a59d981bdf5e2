-- The command line. The first argument names the command.
import DroneShow.Command.Run

namespace DroneShow

/-- The error number of a failure that a path can cause. Some calls report it
with its sign turned. -/
def errorCode? : IO.Error → Option Nat
  | .noFileOrDirectory _ code _ | .inappropriateType _ code _ | .invalidArgument _ code _ =>
    some code.toInt32.toInt.natAbs
  | _ => none

/-- The fault behind a failure of the system. -/
def fileFault (e : IO.Error) : FileFault :=
  ((errorCode? e).bind FileFault.ofCode?).getD (.other (toString e))

/-- Files of the working directory. -/
def systemFiles : Files IO where
  read name := do
    try
      let bytes ← IO.FS.readBinFile name
      pure (.ok bytes.data)
    catch e => pure (.error (fileFault e))
  write name bytes := do
    try
      IO.FS.writeBinFile name ⟨bytes⟩
      pure (.ok ())
    catch e => pure (.error (fileFault e))

/-- Runs the command that the first argument names. -/
def runCommandLine (args : List String) : IO UInt32 := do
  match args with
  | [] =>
    IO.eprintln "usage: traj_stats | traj_cut | showtraj, followed by the arguments of the command"
    return 2
  | name :: rest =>
    match Command.Program.ofName? name with
    | none =>
      IO.eprintln s!"unknown command: {name}"
      return 2
    | some program =>
      let outcome ← Command.run systemFiles program rest
      IO.print outcome.output
      IO.eprint outcome.errors
      return outcome.exit.toUInt32

end DroneShow

def main (args : List String) : IO UInt32 := DroneShow.runCommandLine args
