/-
  ScriptLang.Main — the program: its arguments and files, and the outcome of its command.
-/

import ScriptLang.Command.Run

namespace ScriptLang

open Command (FileFault)

/-- What the system says of a failure. -/
def fileFault : IO.Error → FileFault
  | .noFileOrDirectory _ code details => ⟨details, code.toNat⟩
  | .permissionDenied _ code details => ⟨details, code.toNat⟩
  | .inappropriateType _ code details => ⟨details, code.toNat⟩
  | .invalidArgument _ code details => ⟨details, code.toNat⟩
  | error => ⟨error.toString, 5⟩

/-- The result of an action, or the reason of its failure. -/
def attempt {α : Type} (action : IO α) : IO (Except FileFault α) := do
  match ← action.toBaseIO with
  | .ok a => return .ok a
  | .error error => return .error (fileFault error)

def systemFiles : Command.Files IO where
  create path text := attempt (IO.FS.writeFile path text)
  read path := attempt (return (← IO.FS.readBinFile path).toList)

end ScriptLang

def main (arguments : List String) : IO UInt32 := do
  let report ← ScriptLang.Command.run ScriptLang.systemFiles arguments
  IO.print report.output
  IO.eprint report.errors
  return report.code.toUInt32
