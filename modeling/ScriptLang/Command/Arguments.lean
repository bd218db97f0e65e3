/-
  ScriptLang.Command.Arguments — what a command line asks for.

  A command line names an action, then a file if any. `--json`, after `parse` only, asks for
  the JSON form. `--log` may stand anywhere and asks for a log file, named by what follows an
  equals sign or by the next argument unless that looks like an option; a log without a name
  is `scrawl.log`. After `--` every argument is taken as it is.

  `--log` may stand once before the action and once after it; the one after it counts. No
  name is empty. Anything else is no command, and `ofArguments?` gives nothing.
-/

namespace ScriptLang.Command

inductive Action where
  /-- List the tokens of a file. -/
  | tokenize
  /-- Print a file as a tree, in canonical form or as JSON. -/
  | parse (json : Bool)
  deriving DecidableEq, Repr

structure Invocation where
  action : Action
  file : Option String
  log : Option String
  deriving DecidableEq, Repr

def defaultLog : String := "scrawl.log"

/-- An argument that starts with a dash and is more than a dash. -/
def isOption (argument : String) : Bool :=
  match argument.toList with
  | '-' :: _ :: _ => true
  | _ => false

/-- What follows `--log=`. -/
def inlineLog? (argument : String) : Option String :=
  let key := "--log=".toList
  if key.isPrefixOf argument.toList then some (String.ofList (argument.toList.drop key.length)) else none

/-! ## One argument after another -/

/-- What the arguments so far have settled. -/
structure Draft where
  action : Option Action
  file : Option String
  /-- The log named before the action. -/
  outerLog : Option String
  /-- The log named since then. -/
  log : Option String
  /-- `--log` was the last argument. -/
  awaitsLog : Bool
  /-- `--` was one of the arguments. -/
  verbatim : Bool

namespace Draft

def start : Draft := ⟨none, none, none, none, false, false⟩

def nameLog (d : Draft) (log : String) : Option Draft :=
  if log = "" ∨ d.log.isSome then none else some { d with log := some log, awaitsLog := false }

/-- The action, then the file. -/
def word (d : Draft) (argument : String) : Option Draft :=
  match d.action with
  | none =>
    if d.verbatim then none
    else if argument = "tokenize" then some { d with action := some .tokenize, outerLog := d.log, log := none }
    else if argument = "parse" then some { d with action := some (.parse false), outerLog := d.log, log := none }
    else none
  | some _ => if argument = "" ∨ d.file.isSome then none else some { d with file := some argument }

def option (d : Draft) (argument : String) : Option Draft :=
  if argument = "--" then some { d with verbatim := true }
  else if argument = "--json" then
    if d.action = some (.parse false) then some { d with action := some (.parse true) } else none
  else if argument = "--log" then
    if d.log.isSome then none else some { d with awaitsLog := true }
  else (inlineLog? argument).bind d.nameLog

def add (d : Draft) (argument : String) : Option Draft :=
  if d.verbatim then d.word argument
  else if isOption argument then
    if d.awaitsLog then (d.nameLog defaultLog).bind fun d => d.option argument else d.option argument
  else if d.awaitsLog then d.nameLog argument
  else d.word argument

def finish (d : Draft) : Option Invocation := do
  let d ← if d.awaitsLog then d.nameLog defaultLog else some d
  return ⟨← d.action, d.file, d.log <|> d.outerLog⟩

end Draft

def Invocation.ofArguments? (arguments : List String) : Option Invocation :=
  (arguments.foldlM Draft.add Draft.start).bind Draft.finish

end ScriptLang.Command
