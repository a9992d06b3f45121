/-
  Staged.Constant.Basic — values known before the program runs.

  A constant pairs a value with its type. The value alone does not determine the type:
  an `int` may be of any integer type or the number of a choice variant. Sameness
  compares floating-point numbers as numbers, so what is not a number differs from
  itself and the two zeros are the same.
-/

import Staged.Ty.Table
import Staged.Number.Shortest
import Staged.Text.Basic

namespace Staged

inductive Data where
  | int (value : Int)
  | float (value : Binary64)
  | bool (value : Bool)
  | char (value : Char)
  | str (value : String)
  | array (items : List Data)
  | tuple (items : List Data)
  | struct (items : List Data)
  | mix (variant : Nat) (payload : Option Data)
  | maybe (inner : Option Data)
  | type (value : Ty)
  | null
  | void
  deriving Repr, Inhabited

namespace Data

/-- What a value holds, in a word. -/
def kind : Data → String
  | int _ => "int" | float _ => "float" | bool _ => "bool" | char _ => "char" | str _ => "str"
  | array _ => "array" | tuple _ => "tuple" | struct _ => "struct" | mix _ _ => "mix"
  | maybe _ => "maybe" | type _ => "type" | null => "null" | void => "void"

/-- The number behind an integer, a character or a boolean. -/
def asInt? : Data → Option Int
  | int v => some v
  | char c => some c.toNat
  | bool b => some b.toNat
  | _ => none

def asBool? : Data → Option Bool
  | bool b => some b
  | _ => none

def asStr? : Data → Option String
  | str s => some s
  | _ => none

def asType? : Data → Option Ty
  | type t => some t
  | _ => none

/-- The parts of an aggregate whose members are reached by position. -/
def parts? : Data → Option (List Data)
  | struct items | tuple items => some items
  | _ => none

def items? : Data → Option (List Data)
  | array items => some items
  | _ => none

/-! ## Sameness -/

mutual

def same : Data → Data → Bool
  | int a, int b => a == b
  | float a, float b => a.eq b
  | bool a, bool b => a == b
  | char a, char b => a == b
  | str a, str b => a == b
  | array as, array bs => sameList as bs
  | tuple as, tuple bs => sameList as bs
  | struct as, struct bs => sameList as bs
  | mix v p, mix v' p' => v == v' && sameOption p p'
  | maybe p, maybe p' => sameOption p p'
  | type a, type b => a == b
  | null, null => true
  | void, void => true
  | _, _ => false

def sameList : List Data → List Data → Bool
  | [], [] => true
  | a :: as, b :: bs => same a b && sameList as bs
  | _, _ => false

def sameOption : Option Data → Option Data → Bool
  | none, none => true
  | some a, some b => same a b
  | _, _ => false

end

/-! ## Text -/

mutual

/-- How a value is written in messages; types are written by number. -/
def text (t : TypeTable) : Data → String
  | int v => toString v
  | float v => v.text
  | bool b => if b then "true" else "false"
  | char c => "'" ++ c.toString ++ "'"
  | str s => Text.quote s
  | array items => "[" ++ ", ".intercalate (texts t items) ++ "]"
  | tuple items => "(" ++ ", ".intercalate (texts t items) ++ ")"
  | struct items => "\x7b" ++ ", ".intercalate (texts t items) ++ "\x7d"
  | mix v (some p) => s!"variant{v}(" ++ text t p ++ ")"
  | mix v none => s!"variant{v}"
  | maybe (some p) => "some(" ++ text t p ++ ")"
  | maybe none => "none"
  | type ty => t.label ty
  | null => "null"
  | void => "void"

def texts (t : TypeTable) : List Data → List String
  | [] => []
  | d :: ds => text t d :: texts t ds

end

end Data

structure Constant where
  data : Data
  type : Ty
  deriving Repr, Inhabited

namespace Constant

def int (type : Ty) (v : Int) : Constant := ⟨.int v, type⟩

def bool (b : Bool) : Constant := ⟨.bool b, .bool⟩

def void : Constant := ⟨.void, .void⟩

/-- A type as a value. -/
def type' (t : Ty) : Constant := ⟨.type t, .typed t⟩

def asInt? (c : Constant) : Option Int := c.data.asInt?

def asBool? (c : Constant) : Option Bool := c.data.asBool?

def asStr? (c : Constant) : Option String := c.data.asStr?

def asType? (c : Constant) : Option Ty := c.data.asType?

def same (a b : Constant) : Bool := a.type == b.type && a.data.same b.data

end Constant

end Staged
