/-
  Staged.Ir.Value — what instructions work on: registers and constants.

  A register is assigned once and has a type. Constants carry theirs too; an aggregate
  lists its members, and strings, globals and functions are named by their number in the
  module.
-/

import Staged.Ty.Basic
import Staged.Number.Shortest

namespace Staged.Ir

abbrev FunctionId := Nat
abbrev GlobalId := Nat
abbrev StringId := Nat
abbrev BlockId := Nat

structure Register where
  id : Nat
  type : Ty
  deriving DecidableEq, Repr

def Register.text (r : Register) : String := s!"%{r.id}"

def functionText (id : FunctionId) : String := s!"@fn{id}"
def globalText (id : GlobalId) : String := s!"@global{id}"
def stringText (id : StringId) : String := s!"@str{id}"
def blockText (id : BlockId) : String := s!"bb{id}"

inductive Const where
  | int (type : Ty) (value : Int)
  | float (type : Ty) (value : Binary64)
  | bool (type : Ty) (value : Bool)
  | null (type : Ty)
  | zero (type : Ty)
  | undef (type : Ty)
  | aggregate (type : Ty) (members : List Const)
  | str (type : Ty) (id : StringId)
  | globalAddr (type : Ty) (id : GlobalId)
  | functionAddr (type : Ty) (id : FunctionId)
  deriving Repr, Inhabited

namespace Const

def type : Const → Ty
  | int t _ | float t _ | bool t _ | null t | zero t | undef t | aggregate t _ | str t _
  | globalAddr t _ | functionAddr t _ => t

def asInt? : Const → Option Int
  | int _ v => some v
  | bool _ b => some b.toNat
  | _ => none

mutual

def text : Const → String
  | int _ v => toString v
  | float _ v => v.text
  | bool _ b => if b then "true" else "false"
  | null _ => "null"
  | zero _ => "zeroinitializer"
  | undef _ => "undef"
  | aggregate _ members => "\x7b" ++ ", ".intercalate (texts members) ++ "\x7d"
  | str _ id => "str(" ++ stringText id ++ ")"
  | globalAddr _ id => globalText id
  | functionAddr _ id => functionText id

def texts : List Const → List String
  | [] => []
  | c :: cs => text c :: texts cs

end

end Const

inductive Value where
  | reg (r : Register)
  | const (c : Const)
  deriving Repr, Inhabited

namespace Value

def type : Value → Ty
  | reg r => r.type
  | const c => c.type

def text : Value → String
  | reg r => r.text
  | const c => c.text

def isReg (v : Value) (r : Register) : Bool :=
  match v with
  | reg r' => r' == r
  | const _ => false

end Value

instance : Coe Register Value := ⟨Value.reg⟩
instance : Coe Const Value := ⟨Value.const⟩

end Staged.Ir
