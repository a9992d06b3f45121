/-
  Staged.Ir.Instr — instructions and the terminators that end a block.

  Every instruction but a store, and but a call or an assembly text without a result,
  assigns one register. Types show in the text of an instruction only where its operands
  do not determine them, under a label chosen by the printer.
-/

import Staged.Ir.Value
import Staged.Text.Basic

namespace Staged.Ir

inductive Arith where
  | add | sub | mul | sdiv | udiv | srem | urem
  | fadd | fsub | fmul | fdiv | frem
  | and | or | xor | shl | lshr | ashr
  deriving DecidableEq, Repr

namespace Arith

def name : Arith → String
  | add => "add" | sub => "sub" | mul => "mul" | sdiv => "sdiv" | udiv => "udiv"
  | srem => "srem" | urem => "urem" | fadd => "fadd" | fsub => "fsub" | fmul => "fmul"
  | fdiv => "fdiv" | frem => "frem" | and => "and" | or => "or" | xor => "xor"
  | shl => "shl" | lshr => "lshr" | ashr => "ashr"

def all : List Arith :=
  [add, sub, mul, sdiv, udiv, srem, urem, fadd, fsub, fmul, fdiv, frem, and, or, xor, shl,
    lshr, ashr]

def ofName? (s : String) : Option Arith := all.find? (·.name == s)

end Arith

inductive Pred where
  | eq | ne | slt | sle | sgt | sge | ult | ule | ugt | uge
  | oeq | one | olt | ole | ogt | oge
  deriving DecidableEq, Repr

namespace Pred

def name : Pred → String
  | eq => "eq" | ne => "ne" | slt => "slt" | sle => "sle" | sgt => "sgt" | sge => "sge"
  | ult => "ult" | ule => "ule" | ugt => "ugt" | uge => "uge" | oeq => "oeq" | one => "one"
  | olt => "olt" | ole => "ole" | ogt => "ogt" | oge => "oge"

def all : List Pred :=
  [eq, ne, slt, sle, sgt, sge, ult, ule, ugt, uge, oeq, one, olt, ole, ogt, oge]

def ofName? (s : String) : Option Pred := all.find? (·.name == s)

def isFloat : Pred → Bool
  | oeq | one | olt | ole | ogt | oge => true
  | _ => false

end Pred

inductive CastOp where
  | trunc | zext | sext | fptrunc | fpext | fptosi | fptoui | sitofp | uitofp
  | ptrtoint | inttoptr | bitcast
  deriving DecidableEq, Repr

namespace CastOp

def name : CastOp → String
  | trunc => "trunc" | zext => "zext" | sext => "sext" | fptrunc => "fptrunc"
  | fpext => "fpext" | fptosi => "fptosi" | fptoui => "fptoui" | sitofp => "sitofp"
  | uitofp => "uitofp" | ptrtoint => "ptrtoint" | inttoptr => "inttoptr"
  | bitcast => "bitcast"

def all : List CastOp :=
  [trunc, zext, sext, fptrunc, fpext, fptosi, fptoui, sitofp, uitofp, ptrtoint, inttoptr,
    bitcast]

def ofName? (s : String) : Option CastOp := all.find? (·.name == s)

end CastOp

inductive Callee where
  | function (id : FunctionId)
  | indirect (value : Value)
  deriving Repr

def Callee.text : Callee → String
  | function id => functionText id
  | indirect value => value.text

inductive Instr where
  | alloca (dest : Register) (type : Ty) (name : Option String)
  | load (dest : Register) (ptr : Value)
  | store (value ptr : Value)
  | arith (dest : Register) (op : Arith) (lhs rhs : Value)
  | fneg (dest : Register) (operand : Value)
  | compare (dest : Register) (pred : Pred) (lhs rhs : Value)
  | cast (dest : Register) (op : CastOp) (value : Value)
  | fieldPtr (dest : Register) (base : Value) (aggregate : Ty) (index : Nat)
  | elementPtr (dest : Register) (base : Value) (element : Ty) (index : Value)
  | extract (dest : Register) (aggregate : Value) (index : Nat)
  | insert (dest : Register) (aggregate value : Value) (index : Nat)
  | call (dest : Option Register) (callee : Callee) (args : List Value)
  | select (dest : Register) (cond thenValue elseValue : Value)
  | phi (dest : Register) (incoming : List (Value × BlockId))
  | asm (dest : Option Register) (template constraints : String) (args : List Value)
      (volatile : Bool)
  deriving Repr

namespace Instr

def dest? : Instr → Option Register
  | alloca d _ _ | load d _ | arith d _ _ _ | fneg d _ | compare d _ _ _ | cast d _ _
  | fieldPtr d _ _ _ | elementPtr d _ _ _ | extract d _ _ | insert d _ _ _
  | select d _ _ _ | phi d _ => some d
  | call d _ _ | asm d _ _ _ _ => d
  | store _ _ => none

def isAlloca : Instr → Bool
  | alloca .. => true
  | _ => false

def isCall : Instr → Bool
  | call .. => true
  | _ => false

def valuesText (vs : List Value) : String := ", ".intercalate (vs.map Value.text)

/-- The assignment in front of an instruction that has a result. -/
def destText (d : Option Register) : String :=
  match d with
  | some r => r.text ++ " = "
  | none => ""

def text (label : Ty → String) : Instr → String
  | alloca d type name =>
    s!"{d.text} = alloca {label type}" ++ (match name with | some n => " ; " ++ n | none => "")
  | load d ptr => s!"{d.text} = load {label d.type}, {ptr.text}"
  | store value ptr => s!"store {value.text}, {ptr.text}"
  | arith d op l r => s!"{d.text} = {op.name} {l.text}, {r.text}"
  | fneg d v => s!"{d.text} = fneg {v.text}"
  | compare d p l r =>
    s!"{d.text} = " ++ (if p.isFloat then "fcmp" else "icmp") ++ s!" {p.name} {l.text}, {r.text}"
  | cast d op v => s!"{d.text} = {op.name} {v.text} to {label d.type}"
  | fieldPtr d base aggregate index =>
    s!"{d.text} = fieldptr {label aggregate}, {base.text}, {index}"
  | elementPtr d base element index =>
    s!"{d.text} = elementptr {label element}, {base.text}, {index.text}"
  | extract d aggregate index => s!"{d.text} = extractvalue {aggregate.text}, {index}"
  | insert d aggregate value index =>
    s!"{d.text} = insertvalue {aggregate.text}, {value.text}, {index}"
  | call d callee args => destText d ++ s!"call {callee.text}({valuesText args})"
  | select d cond t e => s!"{d.text} = select {cond.text}, {t.text}, {e.text}"
  | phi d incoming =>
    s!"{d.text} = phi " ++
      ", ".intercalate (incoming.map fun (v, b) => s!"[{v.text}, {blockText b}]")
  | asm d template constraints args volatile =>
    destText d ++ "asm" ++ (if volatile then " volatile" else "") ++
      s!" {Text.quote template}, {Text.quote constraints}({valuesText args})"

end Instr

inductive Terminator where
  | jump (target : BlockId)
  | branch (cond : Value) (thenBlock elseBlock : BlockId)
  | ret (value : Option Value)
  | switch (value : Value) (cases : List (Int × BlockId)) (default : BlockId)
  | unreachable
  deriving Repr

namespace Terminator

def successors : Terminator → List BlockId
  | jump b => [b]
  | branch _ t e => [t, e]
  | ret _ | unreachable => []
  | switch _ cases default => cases.map (·.2) ++ [default]

def text : Terminator → String
  | jump b => s!"jump {blockText b}"
  | branch cond t e => s!"branch {cond.text} ? {blockText t} : {blockText e}"
  | ret none => "return"
  | ret (some v) => s!"return {v.text}"
  | switch value cases default =>
    s!"switch {value.text} [" ++
      ", ".intercalate (cases.map fun (v, b) => s!"{v} => {blockText b}") ++
      s!", _ => {blockText default}]"
  | unreachable => "unreachable"

end Terminator

end Staged.Ir
