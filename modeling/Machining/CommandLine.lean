import Machining.Files.Basic
import Machining.Json.Pretty
import Machining.Options.Json
import Machining.Program.Json
import Machining.Program.Outline
import Machining.Program.Preview
import Machining.Text.Quoted

/-!
The two command line tools. One prints the outline of a program, the other the program with its operations
reversed where planned. Arguments are followed from left to right, and the first problem ends the run: then
nothing is printed but the problem. An option takes the next argument as its value, whatever that looks like, and an
option file is read when it is met and sets both rules. The file of the program is read last. What is wrong with an
option file is told in the words of its reader, which `explain` gives for every text.
-/

namespace Machining.CommandLine

inductive Tool
  | outline
  | zigzag
  deriving DecidableEq, Repr

def Tool.switch : Tool → String
  | .outline => "--json"
  | .zigzag => "--preview"

def Tool.usage : Tool → String
  | .outline => "usage: ngc-structure FILE [--json] [--config FILE]"
  | .zigzag => "usage: ngc-zigzag FILE [--preview] [--boundary STRATEGY] [--config FILE]"

inductive Problem
  | missingConfig
  | unknownBoundary
  | unexpected (argument : String)
  | noFile (tool : Tool)
  | unreadable (path : String) (cause : ReadError)
  | invalidOptions (path cause : String)
  deriving DecidableEq, Repr

def Problem.message : Problem → String
  | .missingConfig => "--config needs a file name"
  | .unknownBoundary => "--boundary needs line_number_or_tool_change or annotated"
  | .unexpected argument => "unexpected argument " ++ Text.quoted argument
  | .noFile tool => tool.usage
  | .unreadable path cause => "cannot read " ++ path ++ ": " ++ cause.reason
  | .invalidOptions path cause => "invalid options in " ++ path ++ ": " ++ cause

inductive Argument
  | switch
  | config (path : Option String)
  | boundary (name : Option String)
  | file (path : String)
  deriving DecidableEq, Repr

def Argument.ofList (tool : Tool) : List String → List Argument
  | [] => []
  | a :: rest =>
    if a = tool.switch then .switch :: ofList tool rest
    else if a = "--config" then
      match rest with
      | [] => [.config none]
      | path :: rest => .config (some path) :: ofList tool rest
    else if a = "--boundary" ∧ tool = .zigzag then
      match rest with
      | [] => [.boundary none]
      | name :: rest => .boundary (some name) :: ofList tool rest
    else .file a :: ofList tool rest

structure Request where
  file : Option String := none
  switched : Bool := false
  options : Options := {}
  deriving DecidableEq, Repr

section

variable {m : Type → Type} [Monad m] (read : String → m (Except ReadError String)) (explain : String → String)

def readText (path : String) : ExceptT Problem m String := do
  match ← read path with
  | .ok text => return text
  | .error cause => throw (.unreadable path cause)

def loadOptions (path : String) : ExceptT Problem m Options := do
  let text ← readText read path
  match Options.parse? text with
  | some o => return o
  | none => throw (.invalidOptions path (explain text))

def Request.follow (r : Request) : Argument → ExceptT Problem m Request
  | .switch => return { r with switched := true }
  | .config none => throw .missingConfig
  | .config (some path) => do return { r with options := ← loadOptions read explain path }
  | .boundary name =>
    match name.bind BoundaryRule.ofName? with
    | some rule => return { r with options := { r.options with boundary := rule } }
    | none => throw .unknownBoundary
  | .file path => if r.file.isNone then return { r with file := some path } else throw (.unexpected path)

def Tool.result (tool : Tool) (r : Request) (text : String) : String :=
  match tool, r.switched with
  | .outline, false => (segment r.options text).outline
  | .outline, true => (segment r.options text).toJson.pretty ++ "\n"
  | .zigzag, false => optimize r.options text
  | .zigzag, true => (segment r.options text).previewTable ++ "\n"

def Tool.answer (tool : Tool) (args : List String) : ExceptT Problem m String := do
  let r ← (Argument.ofList tool args).foldlM (Request.follow read explain) {}
  match r.file with
  | some path => return tool.result r (← readText read path)
  | none => throw (.noFile tool)

structure Outcome where
  stdout : String
  stderr : String
  code : Nat
  deriving DecidableEq, Repr

def Outcome.of : Except Problem String → Outcome
  | .ok text => ⟨text, "", 0⟩
  | .error problem => ⟨"", "Error: " ++ problem.message ++ "\n", 1⟩

def Tool.run (tool : Tool) (args : List String) : m Outcome := do
  return .of (← (tool.answer read explain args).run)

end

end Machining.CommandLine
