/-
  ScriptLang.Command.Run — what a command does, and with which outcome.

  A command reaches files only through `Files`, so its order of work is plain: the log is
  created, with a heading, before anything else; then the file is read. `Report` is what
  the caller sees.
  A lexical or grammatical fault goes to the error output and the exit code is 65; a file
  that cannot be created or read, or is no UTF-8, gives exit code 1.
  - `tokenize` lists each token on a line, up to the end token or the first fault.
-/

import ScriptLang.Command.Arguments
import ScriptLang.Command.Folder
import ScriptLang.Grammar.Program
import ScriptLang.Tree.Json
import ScriptLang.Tree.Source

namespace ScriptLang.Command

structure Report where
  code : Nat
  output : String
  errors : String
  deriving DecidableEq, Repr

/-! ## Working on a text -/

def line (text : String) : String := text ++ "\n"

def tokenize (l : Lexer) : Report :=
  let results := l.items.map Prod.fst
  let listing := results.filterMap fun r => match r with
    | .ok t => some (line t.display)
    | .error _ => none
  let faults := results.filterMap fun r => match r with
    | .ok _ => none
    | .error fault => some (line fault.message)
  ⟨if faults.isEmpty then 0 else 65, String.join listing, String.join faults⟩

def parse (json : Bool) (l : Lexer) : Report :=
  match parseSource l with
  | .ok root =>
    ⟨0, if json then line (String.ofList (Scope.toJson root).pretty) else String.ofList (Scope.source root), ""⟩
  | .error fault => ⟨65, "", line fault.message⟩

def perform (action : Action) (l : Lexer) : Report :=
  match action with
  | .tokenize => tokenize l
  | .parse json => parse json l

/-! ## Working on files -/

/-- A failure and the reason below it. -/
def failed (attempt : String) (fault : FileFault) : Report :=
  ⟨1, "", "Error: " ++ attempt ++ "\n\nCaused by:\n    " ++ line fault.message⟩

def usage : Report := ⟨2, "", line "Usage: scrawl [--log [FILE]] tokenize|parse [FILE] [--json]"⟩

/-- The first line of a log. -/
def logHeading (log : String) : String := line ("INFO  scrawl: Logging to " ++ log)

variable {m : Type → Type} [Monad m]

/-- What is done once the log is there. -/
def runFile (files : Files m) (invocation : Invocation) : m Report := do
  match invocation.file with
  | none => return ⟨0, line "No input filepath was provided. Exiting...", ""⟩
  | some file =>
    match ← files.read file with
    | .error fault => return failed ("Failed to read " ++ file) fault
    | .ok bytes =>
      match Lexer.ofBytes bytes with
      | .error fault => return ⟨1, "", line ("Error: " ++ fault.message)⟩
      | .ok l => return perform invocation.action l

def runInvocation (files : Files m) (invocation : Invocation) : m Report := do
  match invocation.log with
  | none => runFile files invocation
  | some log =>
    match ← files.create log (logHeading log) with
    | .error fault => return failed ("Failed to create " ++ log) fault
    | .ok _ => runFile files invocation

/-- The whole command, from its arguments. -/
def run (files : Files m) (arguments : List String) : m Report :=
  match Invocation.ofArguments? arguments with
  | none => pure usage
  | some invocation => runInvocation files invocation

end ScriptLang.Command
