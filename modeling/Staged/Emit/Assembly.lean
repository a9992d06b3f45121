/-
  Staged.Emit.Assembly — inline assembly.

  The constraints are a list separated by commas. An entry that starts with `=` is an
  output and one that starts with `~` names what is overwritten; every other entry that
  is not blank is an input and needs an argument.
-/

import Staged.Emit.Operand
import Staged.Text.Basic

namespace Staged.Emit

/-- The constraints with the blanks in front of them removed, blank ones left out. -/
def constraintList (constraints : String) : List (List Char) :=
  ((constraints.splitOn ",").map fun c => c.toList.dropWhile Text.isBlank).filter (!·.isEmpty)

/-- The numbers of inputs and outputs. -/
def countConstraints (constraints : String) : Nat × Nat :=
  let all := constraintList constraints
  (all.countP fun c => c.head? != some '=' && c.head? != some '~',
    all.countP fun c => c.head? == some '=')

def lowerAssemblyArgs : List Operand → Emit (List Ir.Value)
  | [] => return []
  | a :: args => do
    let v ← a.rvalue .nothing
    requireSized v.type a.range
    return v.ir :: (← lowerAssemblyArgs args)

def lowerAssembly (view : Viewpoint) (template constraints : String) (args : List Operand)
    (result : TypeExpr) (volatile : Bool) (range : Span) : Emit Value := do
  let result ← resolveType view result
  let (inputs, outputs) := countConstraints constraints
  if inputs ≠ args.length then refuse (.assemblyInputs inputs args.length) range
  if result ≠ .void ∧ outputs = 0 then refuse (.assemblyOutput result) range
  let operands ← lowerAssemblyArgs args
  if result = .void then
    push (.asm none template constraints operands volatile)
    return .void range
  else
    let r ← compute result fun r => .asm (some r) template constraints operands volatile
    return .temporary r result range

end Staged.Emit
