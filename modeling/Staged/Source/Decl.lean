/-
  Staged.Source.Decl — declarations, modules and whole programs.

  A declaration may carry a guard, an expression evaluated before anything else of it;
  when the guard is false the declaration is skipped. `lib` blocks are modules inside a
  module; all other declarations become entities. Skill implementations and brings
  declare no name.
-/

import Staged.Source.Sentence

namespace Staged

/-- Who may use a declaration, as written. -/
inductive VisSpec where
  | priv | pub | lib | file | folder | type
  deriving DecidableEq, Repr, Inhabited

def VisSpec.name : VisSpec → String
  | priv => "Private" | pub => "Public" | lib => "Lib" | file => "File" | folder => "Folder"
  | type => "Type"

structure Argument where
  name : Ident
  type : Option TypeExpr
  isVar : Bool
  /-- The argument initialises the field of its name. -/
  member : Bool
  range : Span

structure FunctionDecl where
  name : Ident
  vis : VisSpec
  args : List Argument
  result : Option TypeExpr
  variadic : Bool
  /-- Absent for external functions. -/
  body : Option (List Sentence)

structure FieldDecl where
  name : Ident
  type : TypeExpr
  isVar : Bool
  vis : VisSpec

inductive MemberForm where
  | method (name : Ident) (variation : Bool)
  | static (name : Ident)
  | defaultConstructor
  | constructor
  | fromConvertor
  | toConvertor
  | binary (op : BinaryOp) (variation : Bool)
  | unary (op : UnaryOp)
  | copyConstructor
  | moveConstructor
  | copyAssignment
  | moveAssignment
  | destructor
  deriving DecidableEq, Repr

structure MemberDecl where
  form : MemberForm
  vis : VisSpec
  args : List Argument
  result : Option TypeExpr
  body : List Sentence
  range : Span

structure StructDecl where
  name : Ident
  vis : VisSpec
  fields : List FieldDecl
  members : List MemberDecl

structure MixVariantDecl where
  name : Ident
  payload : Option TypeExpr

structure MixDecl where
  name : Ident
  vis : VisSpec
  variants : List MixVariantDecl
  default : Option Ident
  packed : Bool

structure ChoiceVariantDecl where
  name : Ident
  value : Option Expr

structure ChoiceDecl where
  name : Ident
  vis : VisSpec
  variants : List ChoiceVariantDecl
  underlying : Option TypeExpr
  default : Option Ident

structure GlobalDecl where
  name : Ident
  vis : VisSpec
  type : Option TypeExpr
  value : Expr
  isVar : Bool

structure PrerunGlobalDecl where
  name : Ident
  vis : VisSpec
  type : Option TypeExpr
  value : Expr

structure PrerunFunctionDecl where
  name : Ident
  vis : VisSpec
  args : List Argument
  result : Option TypeExpr
  body : List Sentence

structure TypeDecl where
  name : Ident
  vis : VisSpec
  type : TypeExpr

structure PrototypeDecl where
  name : Ident
  variation : Bool
  args : List Argument
  result : Option TypeExpr
  range : Span

structure SkillDecl where
  name : Ident
  vis : VisSpec
  prototypes : List PrototypeDecl

structure DoSkillDecl where
  skill : Option QName
  target : TypeExpr
  members : List MemberDecl
  range : Span

structure BroughtName where
  name : Ident
  asName : Option Ident

inductive BringItem where
  | path (path : QName) (asName : Option Ident)
  | members (source : QName) (names : List BroughtName)
  | file (path : String) (asName : Option Ident) (range : Span)

structure BringDecl where
  vis : VisSpec
  items : List BringItem

/-- What an entity declares. -/
inductive DeclBody where
  | function (d : FunctionDecl)
  | struct (d : StructDecl)
  | mix (d : MixDecl)
  | choice (d : ChoiceDecl)
  | global (d : GlobalDecl)
  | prerunGlobal (d : PrerunGlobalDecl)
  | prerunFunction (d : PrerunFunctionDecl)
  | typeDef (d : TypeDecl)
  | skill (d : SkillDecl)
  | doSkill (d : DoSkillDecl)
  | bring (d : BringDecl)

namespace DeclBody

def name? : DeclBody → Option Ident
  | function d => some d.name
  | struct d => some d.name
  | mix d => some d.name
  | choice d => some d.name
  | global d => some d.name
  | prerunGlobal d => some d.name
  | prerunFunction d => some d.name
  | typeDef d => some d.name
  | skill d => some d.name
  | doSkill _ | bring _ => none

/-- The visibility as written; a skill implementation is as public as its members. -/
def vis : DeclBody → VisSpec
  | function d => d.vis
  | struct d => d.vis
  | mix d => d.vis
  | choice d => d.vis
  | global d => d.vis
  | prerunGlobal d => d.vis
  | prerunFunction d => d.vis
  | typeDef d => d.vis
  | skill d => d.vis
  | doSkill _ => .pub
  | bring d => d.vis

end DeclBody

structure EntityDecl where
  body : DeclBody
  guard : Option Expr
  range : Span

inductive Decl where
  | entity (d : EntityDecl)
  | lib (name : Ident) (vis : VisSpec) (guard : Option Expr) (decls : List Decl)
      (range : Span)

namespace Decl

def name? : Decl → Option Ident
  | entity d => d.body.name?
  | lib name _ _ _ _ => some name

def vis : Decl → VisSpec
  | entity d => d.body.vis
  | lib _ vis _ _ _ => vis

end Decl

inductive SourceKind where
  | file | folder
  deriving DecidableEq, Repr

structure SourceModule where
  name : String
  kind : SourceKind
  path : Option String
  file : Nat
  /-- Index of the enclosing module in the program. -/
  parent : Option Nat
  decls : List Decl

structure Program where
  modules : Array SourceModule

end Staged
