/-
  Staged.Ir.Module — functions, globals and strings of a whole program, and its text.

  Functions are numbered as they are added, and a name means the last function that has
  it. An external function is declared once; declaring its name again, with whatever
  types, gives the function that has the name. Equal strings share one number.
-/

import Staged.Ir.Function

namespace Staged.Ir

structure Global where
  name : String
  type : Ty
  init : Const
  isVar : Bool
  deriving Repr

structure Module where
  name : String
  functions : Array Function := #[]
  globals : Array Global := #[]
  strings : Array String := #[]
  deriving Repr

namespace Module

def addFunction (m : Module) (f : Function) : Module × FunctionId :=
  ({ m with functions := m.functions.push f }, m.functions.size)

/-- The last function of that name. -/
def functionNamed? (m : Module) (name : String) : Option FunctionId :=
  (m.functions.toList.zipIdx.reverse.find? (·.1.name == name)).map (·.2)

def declareExternal (m : Module) (name : String) (params : List Ty) (result : Ty)
    (variadic : Bool) : Module × FunctionId :=
  match m.functionNamed? name with
  | some id => (m, id)
  | none => m.addFunction (.ofExternal name params result variadic)

def addGlobal (m : Module) (g : Global) : Module × GlobalId :=
  ({ m with globals := m.globals.push g }, m.globals.size)

def internString (m : Module) (s : String) : Module × StringId :=
  match m.strings.findIdx? (· == s) with
  | some id => (m, id)
  | none => ({ m with strings := m.strings.push s }, m.strings.size)

def invalid? (m : Module) : Option Function.Invalid := m.functions.toList.findSome? (·.invalid?)

end Module

/-! ## Text -/

def Block.lines (label : Ty → String) (id : BlockId) (b : Block) : List String :=
  let head := match b.label with
    | some l => s!"  {blockText id}: ; {l}"
    | none => s!"  {blockText id}:"
  let last := match b.term with
    | some t => "    " ++ t.text
    | none => "    ; <open>"
  head :: b.instrs.toList.map (fun i => "    " ++ i.text label) ++ [last]

def Function.lines (label : Ty → String) (f : Function) : List String :=
  let params := f.params.map fun p => s!"{p.text}: {label p.type}"
  let params := ", ".intercalate (params ++ if f.variadic then ["..."] else [])
  let word := if f.external then "declare" else "fn"
  let head := s!"{word} {f.name}({params}) -> {label f.result}"
  if f.external then [head]
  else
    (head ++ " \x7b") ::
      (f.blocks.toList.zipIdx.flatMap fun (b, i) => b.lines label i) ++ ["\x7d"]

namespace Module

def globalLine (label : Ty → String) (id : GlobalId) (g : Global) : String :=
  let word := if g.isVar then "global" else "constant"
  s!"{globalText id} = {word} {label g.type} {g.init.text} ; {g.name}"

def lines (label : Ty → String) (m : Module) : List String :=
  let strings := m.strings.toList.zipIdx.map fun (s, i) => s!"{stringText i} = {Text.quote s}"
  let globals := m.globals.toList.zipIdx.map fun (g, i) => globalLine label i g
  let data := strings ++ globals
  [s!"; module {m.name}", ""] ++ data ++ (if data.isEmpty then [] else [""]) ++
    m.functions.toList.flatMap fun f => f.lines label ++ [""]

def text (label : Ty → String) (m : Module) : String :=
  String.join ((m.lines label).map (· ++ "\n"))

end Module

end Staged.Ir
