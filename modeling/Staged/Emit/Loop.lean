/-
  Staged.Emit.Loop — loops.

  `break` goes to the block after the loop and `continue` to the block that decides on the
  next iteration. Counted loops and loops over a sequence keep a counter in memory; the
  index a body sees is that counter. The item of a sequence is a reference to the element.
  C strings end at a zero byte, every other sequence has a length.
-/

import Staged.Emit.Expr

namespace Staged.Emit

def enterLoop (tag : Option Ident) (breakTo continueTo : Ir.BlockId) : Emit Unit := do
  let f ← function
  if let some t := tag then
    match (f.loopTagged? t.text).bind LoopTargets.tag with
    | some existing => refuse (.duplicateTag t.text existing.range) t.range
    | none => pure ()
  setFunction { f with loops := ⟨breakTo, continueTo, tag⟩ :: f.loops }

def exitLoop : Emit Unit := do
  let f ← function
  setFunction { f with loops := f.loops.drop 1 }

def declareLocals : List LocalVar → Emit Unit
  | [] => return
  | v :: vs => do
    declareLocal v
    declareLocals vs

/-- The body of a loop, in a scope with the locals of the loop. -/
def loopBody (tag : Option Ident) (breakTo continueTo : Ir.BlockId) (locals : List LocalVar)
    (body : Emit Unit) : Emit Unit := do
  enterLoop tag breakTo continueTo
  inScope do
    declareLocals locals
    body
  exitLoop

def lowerWhile (condition : Operand) (body : Emit Unit) (tag : Option Ident) : Emit Unit := do
  let condBlock ← newBlock "while.cond"
  let bodyBlock ← newBlock "while.body"
  let endBlock ← newBlock "while.end"
  jump condBlock
  switchTo condBlock
  let cond ← condition.condition
  branch cond.ir bodyBlock endBlock
  switchTo bodyBlock
  loopBody tag endBlock condBlock [] body
  jump condBlock
  switchTo endBlock

def lowerLoop (body : Emit Unit) (tag : Option Ident) : Emit Unit := do
  let bodyBlock ← newBlock "loop.body"
  let endBlock ← newBlock "loop.end"
  jump bodyBlock
  switchTo bodyBlock
  loopBody tag endBlock bodyBlock [] body
  jump bodyBlock
  switchTo endBlock

/-- A loop that counts up from zero. `holds` decides whether there is another iteration
and `locals` gives the locals of the body, both from the counter. -/
def countedLoop (type : Ty) (index : Option Ident) (body : Emit Unit) (tag : Option Ident)
    (holds : Ir.Value → Emit Ir.Register) (locals : Ir.Value → Emit (List LocalVar)) :
    Emit Unit := do
  let slot ← alloca type (some ((index.map Ident.text).getD "loop.index"))
  store (Ir.Const.int type 0) slot
  let condBlock ← newBlock "loop.cond"
  let bodyBlock ← newBlock "loop.body"
  let incrBlock ← newBlock "loop.incr"
  let restBlock ← newBlock "loop.rest"
  jump condBlock
  switchTo condBlock
  let counter ← load slot type
  let cond ← holds counter
  branch cond bodyBlock restBlock
  switchTo bodyBlock
  let counter ← load slot type
  let locals ← locals counter
  let indexLocal := index.toList.map fun name =>
    ({ name, address := slot, type, isVar := false, isRef := false } : LocalVar)
  loopBody tag restBlock incrBlock (locals ++ indexLocal) body
  jump incrBlock
  switchTo incrBlock
  let counter ← load slot type
  let next ← compute type (.arith · .add counter (Ir.Const.int type 1))
  store next slot
  jump condBlock
  switchTo restBlock

def lowerTimes (count : Operand) (index : Option Ident) (body : Emit Unit)
    (tag : Option Ident) : Emit Unit := do
  let total ← count.rvalue (.of .usize)
  let info ← require ((← types).intInfo? total.type) (.mismatch .usize total.type) count.range
  let pred := if info.signed then .slt else .ult
  countedLoop total.type index body tag (fun c => compute .bool (.compare · pred c total.ir))
    fun _ => return []

/-! ## Sequences -/

/-- What a loop over a sequence needs to know of it. -/
structure Sequence where
  base : Ir.Value
  element : Ty
  isVar : Bool
  /-- Absent for a sequence that ends at a zero byte. -/
  length : Option Ir.Value

/-- A sequence of fixed length that lives in memory. -/
def storedSequence (v : Value) (element : Ty) (length : Nat) : Emit Sequence := do
  let p ← place v
  return ⟨p.ir, element, p.isMutable, some (Ir.Const.int .usize length)⟩

def sequenceOf (v : Value) (range : Span) : Emit Sequence := do
  match v.type.value with
  | .array element length => storedSequence v element length
  | .vector element count false => storedSequence v element count
  | .mark sub _ _ true isVar =>
    let slice ← rvalue v
    let data ← sliceData slice.ir sub isVar
    let length ← compute .usize (.extract · slice.ir 1)
    return ⟨data, sub, isVar, some length⟩
  | .str =>
    let text ← rvalue v
    let (data, length) ← stringParts text.ir
    return ⟨data, .u8, false, some length⟩
  | .native .cstring =>
    let pointer ← rvalue v
    return ⟨pointer.ir, .u8, false, none⟩
  | ty => refuse (.notIterable ty) range

/-- Whether a sequence goes on at a position. -/
def hasElement (s : Sequence) (counter : Ir.Value) : Emit Ir.Register := do
  let r ← fresh .bool
  match s.length with
  | some length => push (.compare r .ult counter length)
  | none =>
    let ptr ← elementPtr s.base .u8 false counter
    let byte ← load ptr .u8
    push (.compare r .ne byte (Ir.Const.int .u8 0))
  return r

def lowerForIn (iterable : Operand) (item : Ident) (index : Option Ident) (body : Emit Unit)
    (tag : Option Ident) : Emit Unit := do
  let s ← sequenceOf (← iterable.lower .nothing) iterable.range
  let itemType ← intern (.ref s.element s.isVar)
  countedLoop .usize index body tag (hasElement s) fun counter => do
    let ptr ← elementPtr s.base s.element s.isVar counter
    return [{ name := item, address := ptr, type := itemType, isVar := s.isVar, isRef := true }]

/-! ## Jumps -/

def lowerJump (tag : Option Ident) (word : String) (target : LoopTargets → Ir.BlockId)
    (range : Span) : Emit Unit := do
  match (← function).loopFor? tag, tag with
  | some l, _ => jump (target l)
  | none, some t => refuse (.jumpTag word t.text) range
  | none, none => refuse (.jumpOutside word) range

end Staged.Emit
