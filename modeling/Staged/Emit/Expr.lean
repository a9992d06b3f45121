/-
  Staged.Emit.Expr — expressions as code.

  Lowering follows the syntax: each construct is lowered by its own rule from its
  operands, and an operand lowers the sub-expression under whatever its construct
  expects of it.
-/

import Staged.Emit.Access
import Staged.Emit.Aggregate
import Staged.Emit.Assembly
import Staged.Emit.Await
import Staged.Emit.Binary
import Staged.Emit.Copy
import Staged.Emit.Heap
import Staged.Emit.Name
import Staged.Emit.Unary

namespace Staged.Emit

/-- An expression that is always known. -/
def lowerKnown (view : Viewpoint) (e : Expr) (expect : Expect) : Emit Value := do
  constant (← evaluate view e expect.type) e.range

mutual

def lowerExpr (view : Viewpoint) : Expr → Expect → Emit Value
  | .int range value suffix, expect => lowerKnown view (.int range value suffix) expect
  | .float range value suffix, expect => lowerKnown view (.float range value suffix) expect
  | .bool range value, expect => lowerKnown view (.bool range value) expect
  | .char range value, expect => lowerKnown view (.char range value) expect
  | .str range value, expect => lowerKnown view (.str range value) expect
  | .null range, expect => lowerKnown view (.null range) expect
  | .none range, expect => lowerKnown view (.none range) expect
  | .sizeOf range type, expect => lowerKnown view (.sizeOf range type) expect
  | .typeValue range type, expect => lowerKnown view (.typeValue range type) expect
  | .default range, expect => do
    let ty ← require expect.value? .defaultUninferred range
    lowerDefault view ty expect range
  | .some range inner, expect => lowerSome ⟨inner, lowerExpr view inner⟩ expect range
  | .tuple range items, expect => lowerTuple (operands view items) expect range
  | .array range items, expect => lowerArray (operands view items) expect range
  | .entity _ name, expect => lowerName view name expect
  | .self range, _ => selfValue range
  | .selfMember range name, _ => do lowerMember view (← selfValue range) name range
  | .member range base name, _ => do
    lowerMember view (← lowerExpr view base .nothing) name range
  | .index range base position, _ =>
    lowerIndex view ⟨base, lowerExpr view base⟩ ⟨position, lowerExpr view position⟩ range
  | .unary range op operand, expect =>
    lowerUnary view op ⟨operand, lowerExpr view operand⟩ expect range
  | .deref range operand, _ => lowerDeref ⟨operand, lowerExpr view operand⟩ range
  | .addressOf range target isVar, expect =>
    lowerAddressOf ⟨target, lowerExpr view target⟩ isVar expect range
  | .copy range inner, expect => lowerCopy ⟨inner, lowerExpr view inner⟩ expect range
  | .move range inner, expect => lowerMove ⟨inner, lowerExpr view inner⟩ expect range
  | .binary range op lhs rhs, _ =>
    lowerBinary op ⟨lhs, lowerExpr view lhs⟩ ⟨rhs, lowerExpr view rhs⟩ range
  | .call range callee args, expect =>
    lowerCall view ⟨callee, lowerExpr view callee⟩ (operands view args) expect range
  | .methodCall range base name args variation, _ => do
    let base ← lowerExpr view base .nothing
    lowerMethodCall view base name (operands view args) variation range
  | .construct range type args, expect => do
    construct view (← resolveType view type) (operands view args) expect range
  | .plain range type fields values, expect => do
    lowerPlain view (← resolveType view type) fields (operands view values) expect range
  | .variant range type name value, expect => do
    lowerVariant (← resolveType view type) name (operand? view value) expect range
  | .heapGet range type count, _ => lowerHeapGet view type (operand? view count) range
  | .heapPut range pointer, _ => lowerHeapPut ⟨pointer, lowerExpr view pointer⟩ range
  | .heapGrow range type pointer count, _ =>
    lowerHeapGrow view type ⟨pointer, lowerExpr view pointer⟩ ⟨count, lowerExpr view count⟩ range
  | .cast range value target, _ => lowerCast view ⟨value, lowerExpr view value⟩ target range
  | .await range inner, _ => lowerAwait ⟨inner, lowerExpr view inner⟩ range
  | .assembly range template constraints args result volatile, _ =>
    lowerAssembly view template constraints (operands view args) result volatile range
  | .ifElse range condition thenValue elseValue, expect =>
    lowerIf ⟨condition, lowerExpr view condition⟩ ⟨thenValue, lowerExpr view thenValue⟩
      ⟨elseValue, lowerExpr view elseValue⟩ expect range
  | .todo range message, _ => do
    unfinished message range
    return .void range

def operands (view : Viewpoint) : List Expr → List Operand
  | [] => []
  | e :: es => ⟨e, lowerExpr view e⟩ :: operands view es

def operand? (view : Viewpoint) : Option Expr → Option Operand
  | some e => some ⟨e, lowerExpr view e⟩
  | none => none

end

/-- An expression as the part of a construct. -/
def operand (view : Viewpoint) (e : Expr) : Operand := ⟨e, lowerExpr view e⟩

end Staged.Emit
