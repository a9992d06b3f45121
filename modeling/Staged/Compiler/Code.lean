/-
  Staged.Compiler.Code — writing instructions into the function under construction.

  Instructions go to the end of the current block, except that memory is always reserved
  at the start of the entry block. Closing a block that is closed changes nothing, so
  code after a jump never redirects it. A finished function has every block closed: in a
  function without a result an open block returns, and in any other only a block that
  nothing jumps to may be open.
-/

import Staged.Compiler.State

namespace Staged.Emit

/-! ## The function under construction -/

def function : Emit FunctionState := do
  match (← get).func with
  | some f => return f
  | none => breach .noFunction

def setFunction (f : FunctionState) : Emit Unit := modify fun s => { s with func := some f }

def prototype (id : Ir.FunctionId) : Emit Ir.Function := do
  match (← get).ir.functions[id]? with
  | some f => return f
  | none => breach (.missingPrototype id)

/-- Start the body of a function whose prototype is known. -/
def beginFunction (id : Ir.FunctionId) (result : Ty) (self : Option Instance) : Emit Unit := do
  if (← get).func.isSome then breach .nestedFunction
  let (f, entry) := (← prototype id).newBlock (some "entry")
  setFunction { id, function := { f with entry }, current := entry, result, self }

/-- How an open block is closed at the end of a function, if it may be open. -/
def endOf (f : Ir.Function) (result : Ty) (id : Ir.BlockId) : Option Ir.Terminator :=
  if result = .void then some (.ret none)
  else if id ≠ f.entry ∧ f.blocks.all (!·.successors.contains id) then some .unreachable
  else none

/-- Close the blocks of a function that are open, unless one of them must not be. -/
def closeAll? (f : Ir.Function) (result : Ty) : Option Ir.Function := do
  let blocks ← f.blocks.toList.zipIdx.mapM fun (b, id) =>
    if b.isClosed then some b else (endOf f result id).map b.close
  some { f with blocks := blocks.toArray }

/-- End the body of a function. -/
def finishFunction (range : Span) : Emit Unit := do
  let f ← function
  modify fun s => { s with func := none }
  let done ← require (closeAll? f.function f.result) (.missingGive f.function.name f.result) range
  if (← get).ir.functions[f.id]?.isNone then breach .lostFunction
  modify fun s => { s with ir := { s.ir with functions := s.ir.functions.modify f.id fun _ => done } }

/-! ## Instructions and blocks -/

/-- Change the current block, which has to exist. -/
def modifyCurrent (g : Ir.Block → Ir.Block) : Emit Unit := do
  let f ← function
  if (f.function.block? f.current).isNone then breach .missingBlock
  setFunction { f with function := f.function.modifyBlock f.current g }

def push (i : Ir.Instr) : Emit Unit := modifyCurrent (·.push i)

def fresh (type : Ty) : Emit Ir.Register := do
  let f ← function
  let (function, r) := f.function.newRegister type
  setFunction { f with function }
  return r

/-- Write an instruction with a result. -/
def compute (type : Ty) (instr : Ir.Register → Ir.Instr) : Emit Ir.Register := do
  let r ← fresh type
  push (instr r)
  return r

/-- Reserve memory for a value for as long as the function runs. -/
def alloca (type : Ty) (name : Option String) : Emit Ir.Register := do
  let r ← fresh (← intern (.markTo type true))
  let f ← function
  if (f.function.block? f.function.entry).isNone then breach .missingEntry
  setFunction { f with
    function := f.function.modifyBlock f.function.entry (·.pushAlloca (.alloca r type name)) }
  return r

def newBlock (label : String) : Emit Ir.BlockId := do
  let f ← function
  let (function, id) := f.function.newBlock (some label)
  setFunction { f with function }
  return id

def switchTo (block : Ir.BlockId) : Emit Unit := do
  setFunction { ← function with current := block }

def currentBlock : Emit Ir.BlockId := return (← function).current

def terminate (t : Ir.Terminator) : Emit Unit := modifyCurrent (·.close t)

/-- Whether code written now could never run. -/
def isClosed : Emit Bool := do
  match (← get).func with
  | some f => return (f.function.block? f.current).any (·.isClosed)
  | none => return false

def jump (target : Ir.BlockId) : Emit Unit := terminate (.jump target)

def branch (cond : Ir.Value) (thenBlock elseBlock : Ir.BlockId) : Emit Unit :=
  terminate (.branch cond thenBlock elseBlock)

/-! ## Memory -/

def load (ptr : Ir.Value) (type : Ty) : Emit Ir.Register := compute type (.load · ptr)

def store (value ptr : Ir.Value) : Emit Unit := push (.store value ptr)

/-- The address a reference holds. -/
def referenceAddress (v : Value) : Emit Value := do
  if v.isTemporary then return v
  return .temporary (← load v.ir v.type) v.type v.range

/-- The value itself, loaded if it is stored. -/
def rvalue (v : Value) : Emit Value := do
  match v.type.refInfo? with
  | some (sub, _) =>
    let address ← referenceAddress v
    return .temporary (← load address.ir sub) sub v.range
  | none =>
    if v.isTemporary then return v
    match v.fixed? with
    | some c => constant c v.range
    | none => return .temporary (← load v.ir v.type) v.type v.range

/-- Where the value lives, if it lives anywhere. -/
def place? (v : Value) : Emit (Option Value) := do
  match v.type.refInfo? with
  | some (sub, isVar) =>
    let address ← referenceAddress v
    return some (.stored address.ir sub isVar .pointee v.range)
  | none => return if v.isTemporary then none else some v

/-- Where the value lives; a temporary is stored first. -/
def place (v : Value) : Emit Value := do
  match ← place? v with
  | some p => return p
  | none =>
    let slot ← alloca v.type none
    store v.ir slot
    return { Value.stored slot v.type true .tempSlot v.range with known := v.known }

def tempSlot (type : Ty) (range : Span) : Emit Value :=
  return .stored (← alloca type none) type true .tempSlot range

/-- The memory that was asked for, or new memory. -/
def targetSlot (type : Ty) (expect : Expect) (range : Span) : Emit Value :=
  match expect.slot with
  | some slot => if slot.type = type then return slot else tempSlot type range
  | none => tempSlot type range

def fieldPtr (base : Ir.Value) (aggregate : Ty) (index : Nat) (member : Ty) :
    Emit Ir.Register := do
  compute (← intern (.markTo member true)) (.fieldPtr · base aggregate index)

def elementPtr (base : Ir.Value) (element : Ty) (isVar : Bool) (index : Ir.Value) :
    Emit Ir.Register := do
  compute (← intern (.markTo element isVar)) (.elementPtr · base element index)

/-- Address and length of a string. -/
def stringParts (v : Ir.Value) : Emit (Ir.Register × Ir.Register) := do
  let data ← compute (← intern (.markTo .u8 false)) (.extract · v 0)
  let length ← compute .usize (.extract · v 1)
  return (data, length)

/-- The address of the elements of a slice. -/
def sliceData (v : Ir.Value) (element : Ty) (isVar : Bool) : Emit Ir.Register := do
  compute (← intern (.markTo element isVar)) (.extract · v 0)

def castTo (op : Ir.CastOp) (value : Ir.Value) (target : Ty) : Emit Ir.Register :=
  compute target (.cast · op value)

/-- A value put together from its members. -/
def aggregateFrom (type : Ty) : Nat → Ir.Value → List Ir.Value → Emit Ir.Value
  | _, sofar, [] => return sofar
  | index, sofar, member :: rest => do
    let r ← compute type (.insert · sofar member index)
    aggregateFrom type (index + 1) r rest

def aggregate (type : Ty) (members : List Ir.Value) (range : Span) : Emit Value :=
  return .temporary (← aggregateFrom type 0 (.const (.undef type)) members) type range

/-! ## Locals -/

def pushScope : Emit Unit := do
  let f ← function
  setFunction { f with scopes := [] :: f.scopes }

def popScope : Emit Unit := do
  let f ← function
  setFunction { f with scopes := if f.scopes.length > 1 then f.scopes.drop 1 else f.scopes }

/-- Run an action in a scope of its own. -/
def inScope (action : Emit Unit) : Emit Unit := do
  pushScope
  action
  popScope

def declareLocal (v : LocalVar) : Emit Unit := do
  let f ← function
  match f.scopes with
  | [] => setFunction { f with scopes := [[v]] }
  | scope :: outer =>
    match scope.find? (·.name.text == v.name.text) with
    | some existing =>
      refuse (.duplicateLocal v.name.text (some existing.name.range)) v.name.range
    | none => setFunction { f with scopes := (v :: scope) :: outer }

def findLocal? (name : String) : Emit (Option LocalVar) :=
  return (← get).func.bind (·.findLocal? name)

/-- The local a name means, if the name can be one. -/
def localOf? (name : QName) : Emit (Option LocalVar) := do
  match name.single? with
  | some n => findLocal? n.text
  | none => return none

def localValue (v : LocalVar) (range : Span) : Value :=
  if v.isRef then { Value.temporary v.address v.type range with known := v.known }
  else { Value.stored v.address v.type v.isVar .stack range with known := v.known }

def selfValue (range : Span) : Emit Value := do
  let self ← require ((← get).func.bind FunctionState.self) .selfOutside range
  return .stored self.address self.type self.isVar .pointee range

/-! ## Unfinished code -/

/-- Mark code that is not written yet: refused in a release, a warning otherwise. Inside
a function, what follows cannot be reached. -/
def unfinished (message : Option String) (range : Span) : Emit Unit := do
  if (← read).mode = .release then refuse (.reachedTodo message) range
  let d : Diagnostic := { severity := .warning, message := Fault.todoText message }
  warn ((d.withCode Code.todoWarning.text).withPrimary range
    "code after this point is unreachable")
  if (← get).func.isSome then
    terminate .unreachable
    switchTo (← newBlock "todo.after")

end Staged.Emit
