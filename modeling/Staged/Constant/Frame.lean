/-
  Staged.Constant.Frame — the locals of one compile-time call.

  Scopes nest; the innermost comes first and there is always at least one. A name may
  be declared once per scope, hides the same name outside, and keeps its variability.
  A flow says how a sentence ended: a `break` or `continue` belongs to a loop when it
  carries no tag or the tag of that loop.
-/

import Staged.Constant.Basic

namespace Staged

structure KnownLocal where
  value : Constant
  isVar : Bool
  deriving Repr

abbrev Scope := List (String × KnownLocal)

structure Frame where
  function : String
  result : Ty
  inner : Scope := []
  outer : List Scope := []
  deriving Repr

namespace Frame

def push (f : Frame) : Frame := { f with inner := [], outer := f.inner :: f.outer }

/-- Leave the innermost scope; the last one stays. -/
def pop (f : Frame) : Frame :=
  match f.outer with
  | [] => f
  | s :: rest => { f with inner := s, outer := rest }

/-- Declare a name in the innermost scope, unless it is declared there. -/
def declare? (f : Frame) (name : String) (value : Constant) (isVar : Bool) : Option Frame :=
  if (f.inner.lookup name).isSome then none
  else some { f with inner := (name, ⟨value, isVar⟩) :: f.inner }

def get? (f : Frame) (name : String) : Option KnownLocal :=
  (f.inner :: f.outer).findSome? (·.lookup name)

/-- Replace the value of a name in one scope. -/
def setIn (name : String) (value : Constant) : Scope → Scope
  | [] => []
  | (n, l) :: rest =>
    if n == name then (n, { l with value }) :: rest else (n, l) :: setIn name value rest

/-- Replace the value of a name in the innermost scope that has it. -/
def setScopes (name : String) (value : Constant) : List Scope → List Scope
  | [] => []
  | s :: rest =>
    if (s.lookup name).isSome then setIn name value s :: rest
    else s :: setScopes name value rest

def set? (f : Frame) (name : String) (value : Constant) : Option Frame :=
  if (f.get? name).isNone then none
  else if (f.inner.lookup name).isSome then
    some { f with inner := setIn name value f.inner }
  else some { f with outer := setScopes name value f.outer }

end Frame

inductive Flow where
  | normal
  | brk (tag : Option String)
  | cont (tag : Option String)
  | give (value : Option Constant)
  deriving Repr

/-- Whether a jump with this tag belongs to a loop with that one. -/
def Flow.targets (tag loop : Option String) : Bool :=
  match tag with
  | none => true
  | some t => loop == some t

end Staged
