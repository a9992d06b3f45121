/-
  Staged.Module.Visibility — who may use a declaration, once it is known where the
  declaration stands.

  A declaration is public, or open to everything inside one module (its own, its lib,
  its file or its folder), or open to the members of one type. A viewpoint is where a
  use stands: a module and, inside a member function, the type it belongs to.
-/

import Staged.Source.Decl
import Staged.Ty.Basic

namespace Staged

abbrev ModId := Nat

/-- How the module that bounds a declaration was chosen. -/
inductive Level where
  | priv | lib | file | folder
  deriving DecidableEq, Repr

inductive Visibility where
  | pub
  | inside (level : Level) (module : ModId)
  | ofType (type : Ty)
  deriving DecidableEq, Repr, Inhabited

namespace Visibility

def isPublic : Visibility → Bool
  | pub => true
  | _ => false

/-- How such a visibility is written. -/
def spec : Visibility → VisSpec
  | pub => .pub
  | inside .priv _ => .priv
  | inside .lib _ => .lib
  | inside .file _ => .file
  | inside .folder _ => .folder
  | ofType _ => .type

/-- The module that bounds the declaration. -/
def module? : Visibility → Option ModId
  | inside _ module => some module
  | _ => none

/-- The type whose members may use the declaration. -/
def type? : Visibility → Option Ty
  | ofType type => some type
  | _ => none

def describe : Visibility → String
  | pub => "public"
  | inside .priv _ => "private"
  | inside .lib _ => "visible inside its lib"
  | inside .file _ => "visible inside its file"
  | inside .folder _ => "visible inside its folder"
  | ofType _ => "visible to its parent type"

end Visibility

structure Viewpoint where
  module : ModId
  memberOf : Option Ty := none
  deriving DecidableEq, Repr

end Staged
