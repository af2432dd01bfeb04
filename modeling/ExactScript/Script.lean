import ExactScript.Source.Parse
import ExactScript.Resolver
import ExactScript.Typing
import ExactScript.Program.OfExpr
import ExactScript.Program.Codec
import ExactScript.Machine

/-!
# Scripts

From source text to a value: a script is parsed, its names are resolved, it is checked if that is asked
for, compiled, and run. An error says which of these it comes from.
-/

namespace ExactScript

inductive ScriptError where
  | parse (e : Source.ParseError)
  | resolve (e : ResolveError)
  | typing (e : TypeError)
  | compile (e : CompileError)
  | run (e : RunError)
  | codec (e : CodecError)

namespace ScriptError

def message : ScriptError → String
  | parse e => "Parse error:\n" ++ e.message
  | resolve e => "Resolve error: " ++ e.message
  | typing e => "Type error: " ++ e.message
  | compile e => "Compilation error: " ++ e.message
  | run e => "Runtime error: " ++ e.message
  | codec e => "Bytecode error: " ++ e.message

end ScriptError

/-! ## Stages -/

/-- The program of a resolved tree, which is checked first if `typecheck` says so. -/
def compileTree (typecheck : Bool) (tree : List (Expr Symbol)) : Except ScriptError Program := do
  if typecheck then
    let _ ← (typeIndex tree).mapError .typing
  (Program.ofTree tree).mapError .compile

/-- The program of a script. -/
def compileSource (typecheck : Bool) (src : String) : Except ScriptError Program := do
  let syntaxTree ← (Source.parse src).mapError .parse
  let tree ← (resolve syntaxTree).mapError .resolve
  compileTree typecheck tree

/-- Runs a script on a fresh machine for at most `fuel` steps. No result means that they were not
enough. -/
def runSource (fuel : Nat) (typecheck : Bool) (maxCallDepth : Nat) (src : String) :
    Option (Except ScriptError Value) :=
  match compileSource typecheck src with
  | .error e => some (.error e)
  | .ok p =>
    let m := Machine.load { maxCallDepth } p
    (m.execute fuel).1.map fun r => r.mapError .run

end ExactScript
