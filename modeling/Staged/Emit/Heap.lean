/-
  Staged.Emit.Heap — memory from the heap.

  Allocation goes through the C functions `malloc`, `realloc` and `free`, which are
  declared when first used and work on bytes. Memory for one value gives a mark, memory
  for a number of values a slice of that length.
-/

import Staged.Emit.Cast

namespace Staged.Emit

def elementSize (element : Ty) (range : Span) : Emit Nat := do
  requireSized element range
  match (← types).sizeInBytes? element with
  | some size => return size
  | none => breach (.noSize ((← types).name element))

/-- A number of elements, as the type of lengths. -/
def lowerCount (count : Operand) : Emit Value := do
  let v ← count.rvalue (.of .usize)
  unless (← types).isIntegral v.type do mismatch .usize v.type count.range
  convertInt v .usize

/-- The number of bytes of that many elements. -/
def byteCount (count : Value) (size : Nat) : Emit Ir.Value := do
  match count.known.bind Constant.asInt? with
  | some n => return Ir.Const.int .usize (wide (n * size))
  | none => return ← compute .usize (.arith · .mul count.ir (Ir.Const.int .usize size))

def bytePointer : Emit Ty := intern (.markTo .u8 true)

def declareExternal (name : String) (params : List Ty) (result : Ty) (variadic : Bool) :
    Emit Ir.FunctionId :=
  modifyGet fun s =>
    let (ir, id) := s.ir.declareExternal name params result variadic
    (id, { s with ir })

/-- Call one of the functions that manage the heap; gives what it returns, if anything. -/
def callAllocator (name : String) (params : List Ty) (result : Ty) (args : List Ir.Value) :
    Emit (Option Ir.Value) := do
  let f ← declareExternal name params result false
  let v ← emitCall (.function f) args result default
  return if result = .void then none else some v.ir

/-- Call one of the functions that give memory. -/
def allocate (name : String) (params : List Ty) (args : List Ir.Value) : Emit Ir.Value := do
  match ← callAllocator name params (← bytePointer) args with
  | some raw => return raw
  | none => breach (.noResult name)

/-- The mark to memory that the heap gave. -/
def heapValue (raw : Ir.Value) (element : Ty) (count : Option Ir.Value) (range : Span) :
    Emit Value := do
  let single ← intern (.heapMark element false)
  let data ← castTo .bitcast raw single
  match count with
  | none => return .temporary data single range
  | some count => aggregate (← intern (.heapMark element true)) [data, count] range

def lowerHeapGet (view : Viewpoint) (type : TypeExpr) (count : Option Operand) (range : Span) :
    Emit Value := do
  let element ← resolveType view type
  let size ← elementSize element type.range
  match count with
  | none =>
    let raw ← allocate "malloc" [.usize] [Ir.Const.int .usize size]
    heapValue raw element none range
  | some o =>
    let count ← lowerCount o
    let bytes ← byteCount count size
    let raw ← allocate "malloc" [.usize] [bytes]
    heapValue raw element (some count.ir) range

/-- The address behind a heap mark, what it points to, and whether it is a slice. -/
def heapData (pointer : Value) (range : Span) : Emit (Ir.Value × Ty × Bool) := do
  match pointer.type with
  | .mark sub .heap _ slice isVar =>
    if slice then return (← sliceData pointer.ir sub isVar, sub, true)
    else return (pointer.ir, sub, false)
  | ty => refuse (.notHeapMark ty) range

def lowerHeapPut (pointer : Operand) (range : Span) : Emit Value := do
  let v ← pointer.rvalue .nothing
  let (data, _) ← heapData v pointer.range
  let bytePtr ← bytePointer
  let raw ← castTo .bitcast data bytePtr
  let _ ← callAllocator "free" [bytePtr] .void [raw]
  return .void range

def lowerHeapGrow (view : Viewpoint) (type : TypeExpr) (pointer count : Operand)
    (range : Span) : Emit Value := do
  let element ← resolveType view type
  let size ← elementSize element type.range
  let v ← pointer.rvalue .nothing
  let (data, sub, slice) ← heapData v pointer.range
  if sub ≠ element then mismatch (.heapMark element slice) v.type pointer.range
  let count ← lowerCount count
  let bytes ← byteCount count size
  let bytePtr ← bytePointer
  let raw ← castTo .bitcast data bytePtr
  let grown ← allocate "realloc" [bytePtr, .usize] [raw, bytes]
  heapValue grown element (some count.ir) range

end Staged.Emit
