/-
  Staged.Ir.Function — blocks and functions.

  A block is numbered by its place in the function and closed by its first terminator.
  Registers are numbered from the parameters on. An external function has no blocks;
  any other is complete when it has a block, every block is closed, and every jump goes
  to a block that exists (`Function.validate`).
-/

import Staged.Ir.Instr

namespace Staged.Ir

structure Block where
  /-- The part the block plays, such as `loop.cond`. -/
  label : Option String := none
  instrs : Array Instr := #[]
  term : Option Terminator := none
  deriving Repr, Inhabited

namespace Block

def isClosed (b : Block) : Bool := b.term.isSome

def successors (b : Block) : List BlockId := (b.term.map Terminator.successors).getD []

def push (b : Block) (i : Instr) : Block := { b with instrs := b.instrs.push i }

/-- Close a block, unless it is closed already. -/
def close (b : Block) (t : Terminator) : Block :=
  if b.isClosed then b else { b with term := some t }

/-- Put an allocation behind those that already stand at the start of the block. -/
def pushAlloca (b : Block) (i : Instr) : Block :=
  let leading := b.instrs.toList.takeWhile Instr.isAlloca
  { b with instrs := (leading ++ i :: b.instrs.toList.drop leading.length).toArray }

end Block

structure Function where
  name : String
  params : List Register
  result : Ty
  variadic : Bool := false
  external : Bool := false
  blocks : Array Block := #[]
  entry : BlockId := 0
  nextRegister : Nat
  deriving Repr

namespace Function

def ofSignature (name : String) (params : List Ty) (result : Ty) : Function :=
  { name, params := params.zipIdx.map fun (t, i) => ⟨i, t⟩, result,
    nextRegister := params.length }

def ofExternal (name : String) (params : List Ty) (result : Ty) (variadic : Bool) : Function :=
  { ofSignature name params result with variadic, external := true }

def newRegister (f : Function) (type : Ty) : Function × Register :=
  ({ f with nextRegister := f.nextRegister + 1 }, ⟨f.nextRegister, type⟩)

def newBlock (f : Function) (label : Option String) : Function × BlockId :=
  ({ f with blocks := f.blocks.push { label } }, f.blocks.size)

def block? (f : Function) (id : BlockId) : Option Block := f.blocks[id]?

def modifyBlock (f : Function) (id : BlockId) (g : Block → Block) : Function :=
  { f with blocks := f.blocks.modify id g }

def blockByLabel? (f : Function) (label : String) : Option BlockId :=
  f.blocks.findIdx? (·.label == some label)

def instrs (f : Function) : List Instr := f.blocks.toList.flatMap (·.instrs.toList)

/-- The registers that instructions assign, in the order of the code. -/
def assigned (f : Function) : List Register := f.instrs.filterMap Instr.dest?

inductive Invalid where
  | externalBody (name : String)
  | noBlocks (name : String)
  | openBlock (block : BlockId) (name : String)
  | missingTarget (block target : BlockId)
  deriving Repr

def Invalid.message : Invalid → String
  | externalBody name => s!"External function {name} has a body"
  | noBlocks name => s!"Function {name} has no blocks"
  | openBlock block name => s!"Block {blockText block} of {name} is not terminated"
  | missingTarget block target =>
    s!"Block {blockText block} jumps to missing block {blockText target}"

def invalidBlock? (f : Function) (id : BlockId) (b : Block) : Option Invalid :=
  if !b.isClosed then some (.openBlock id f.name)
  else (b.successors.find? fun s => (f.block? s).isNone).map (.missingTarget id)

/-- The first way in which the function is incomplete, if there is one. -/
def invalid? (f : Function) : Option Invalid :=
  if f.external then
    if f.blocks.isEmpty then none else some (.externalBody f.name)
  else if f.blocks.isEmpty then some (.noBlocks f.name)
  else f.blocks.toList.zipIdx.findSome? fun (b, i) => f.invalidBlock? i b

end Function

end Staged.Ir
