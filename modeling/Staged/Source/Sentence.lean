/-
  Staged.Source.Sentence — the statements of function bodies.

  Loops may carry a tag; `break` and `continue` without a tag mean the innermost loop.
-/

import Staged.Source.Expr

namespace Staged

mutual

inductive Sentence where
  | localVar (range : Span) (name : Ident) (type : Option TypeExpr) (value : Option Expr)
      (isVar isRef : Bool)
  | assign (range : Span) (lhs rhs : Expr)
  | opAssign (range : Span) (op : BinaryOp) (lhs rhs : Expr)
  | expr (range : Span) (value : Expr)
  | cond (range : Span) (branches : List Branch) (otherwise : Option (List Sentence))
  | whileDo (range : Span) (condition : Expr) (body : List Sentence) (tag : Option Ident)
  | times (range : Span) (count : Expr) (index : Option Ident) (body : List Sentence)
      (tag : Option Ident)
  | loop (range : Span) (body : List Sentence) (tag : Option Ident)
  | forIn (range : Span) (iterable : Expr) (item : Ident) (index : Option Ident)
      (body : List Sentence) (tag : Option Ident)
  | breakLoop (range : Span) (tag : Option Ident)
  | continueLoop (range : Span) (tag : Option Ident)
  | give (range : Span) (value : Option Expr)
  | block (range : Span) (body : List Sentence)
  | todo (range : Span) (message : Option String)

inductive Branch where
  | mk (condition : Expr) (body : List Sentence)

end

def Sentence.range : Sentence → Span
  | .localVar r _ _ _ _ _ | .assign r _ _ | .opAssign r _ _ _ | .expr r _ | .cond r _ _
  | .whileDo r _ _ _ | .times r _ _ _ _ | .loop r _ _ | .forIn r _ _ _ _ _ | .breakLoop r _
  | .continueLoop r _ | .give r _ | .block r _ | .todo r _ => r

end Staged
