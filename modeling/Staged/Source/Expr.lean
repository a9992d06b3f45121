/-
  Staged.Source.Expr — type expressions and expressions, one inductive family because
  the length of an array type is an expression and a cast names a type.

  Every node carries its span first. A literal without a suffix, `null`, `default` and
  `none` take their type from the context (`needsInference`).
-/

import Staged.Source.Span
import Staged.Source.Operator
import Staged.Source.Kind
import Staged.Number.Binary64

namespace Staged

/-- Who frees what a mark points to. -/
inductive Owner (α : Type) where
  | anonymous
  | heap
  | type (owner : α)
  deriving DecidableEq, Repr

mutual

inductive TypeExpr where
  | int (range : Span) (bits : Nat)
  | uint (range : Span) (bits : Nat)
  | float (range : Span) (kind : FloatKind)
  | bool (range : Span)
  | char (range : Span)
  | void (range : Span)
  | str (range : Span)
  | native (range : Span) (kind : Native)
  | named (range : Span) (name : QName)
  | mark (range : Span) (sub : TypeExpr) (owner : Owner TypeExpr)
      (nullable slice isVar : Bool)
  | ref (range : Span) (sub : TypeExpr) (isVar : Bool)
  | array (range : Span) (element : TypeExpr) (length : Expr)
  | vector (range : Span) (element : TypeExpr) (count : Nat) (scalable : Bool)
  | tuple (range : Span) (members : List TypeExpr) (packed : Bool)
  | function (range : Span) (result : TypeExpr) (args : List TypeExpr) (variadic : Bool)
  | future (range : Span) (sub : TypeExpr) (packed : Bool)
  | maybe (range : Span) (sub : TypeExpr)
  | typed (range : Span) (sub : TypeExpr)

inductive Expr where
  | int (range : Span) (value : Nat) (suffix : Option TypeExpr)
  | float (range : Span) (value : Binary64) (suffix : Option TypeExpr)
  | bool (range : Span) (value : Bool)
  | char (range : Span) (value : Char)
  | str (range : Span) (value : String)
  | null (range : Span)
  | default (range : Span)
  | none (range : Span)
  | some (range : Span) (inner : Expr)
  | tuple (range : Span) (items : List Expr)
  | array (range : Span) (items : List Expr)
  | entity (range : Span) (name : QName)
  | self (range : Span)
  | selfMember (range : Span) (name : Ident)
  | member (range : Span) (base : Expr) (name : Ident)
  | index (range : Span) (base position : Expr)
  | unary (range : Span) (op : UnaryOp) (operand : Expr)
  | deref (range : Span) (operand : Expr)
  | addressOf (range : Span) (place : Expr) (isVar : Bool)
  | copy (range : Span) (inner : Expr)
  | move (range : Span) (inner : Expr)
  | binary (range : Span) (op : BinaryOp) (lhs rhs : Expr)
  | call (range : Span) (callee : Expr) (args : List Expr)
  | methodCall (range : Span) (base : Expr) (name : Ident) (args : List Expr)
      (variation : Bool)
  | construct (range : Span) (type : TypeExpr) (args : List Expr)
  | plain (range : Span) (type : TypeExpr) (fields : Option (List Ident))
      (values : List Expr)
  | variant (range : Span) (type : TypeExpr) (name : Ident) (value : Option Expr)
  | heapGet (range : Span) (type : TypeExpr) (count : Option Expr)
  | heapPut (range : Span) (pointer : Expr)
  | heapGrow (range : Span) (type : TypeExpr) (pointer count : Expr)
  | cast (range : Span) (value : Expr) (target : TypeExpr)
  | await (range : Span) (inner : Expr)
  | assembly (range : Span) (template constraints : String) (args : List Expr)
      (result : TypeExpr) (volatile : Bool)
  | ifElse (range : Span) (condition thenValue elseValue : Expr)
  | sizeOf (range : Span) (type : TypeExpr)
  | typeValue (range : Span) (type : TypeExpr)
  | todo (range : Span) (message : Option String)

end

def TypeExpr.range : TypeExpr → Span
  | .int r _ | .uint r _ | .float r _ | .bool r | .char r | .void r | .str r
  | .native r _ | .named r _ | .mark r _ _ _ _ _ | .ref r _ _ | .array r _ _
  | .vector r _ _ _ | .tuple r _ _ | .function r _ _ _ | .future r _ _ | .maybe r _
  | .typed r _ => r

namespace Expr

def range : Expr → Span
  | .int r _ _ | .float r _ _ | .bool r _ | .char r _ | .str r _ | .null r | .default r
  | .none r | .some r _ | .tuple r _ | .array r _ | .entity r _ | .self r
  | .selfMember r _ | .member r _ _ | .index r _ _ | .unary r _ _ | .deref r _
  | .addressOf r _ _ | .copy r _ | .move r _ | .binary r _ _ _ | .call r _ _
  | .methodCall r _ _ _ _ | .construct r _ _ | .plain r _ _ _ | .variant r _ _ _
  | .heapGet r _ _ | .heapPut r _ | .heapGrow r _ _ _ | .cast r _ _ | .await r _
  | .assembly r _ _ _ _ _ | .ifElse r _ _ _ | .sizeOf r _ | .typeValue r _
  | .todo r _ => r

/-- An expression whose type comes from where it is used. -/
def needsInference : Expr → Bool
  | .int _ _ Option.none | .float _ _ Option.none | .null _ | .default _ | .none _ => true
  | _ => false

def isCopyOrMove : Expr → Bool
  | .copy _ _ | .move _ _ => true
  | _ => false

end Expr

end Staged
