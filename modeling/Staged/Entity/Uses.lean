/-
  Staged.Entity.Uses — the names a declaration mentions, and how much it needs of each.

  A use is a name that is not a local, with what is needed of the entity behind it and
  the phase before which it is needed. Behind marks, references, function types and types
  as values it is enough that a type exists; everywhere else it has to be complete.
  Locals are in scope from their declaration to the end of the block.
-/

import Staged.Entity.Graph
import Staged.Source.Decl

namespace Staged

structure Use where
  name : QName
  need : Need
  phase : Phase
  /-- The first segment is the name of a local. -/
  headLocal : Bool

def QName.headIn (n : QName) (locals : List String) : Bool :=
  match n.segments with
  | [] => false
  | first :: _ => locals.contains first.text

def QName.uses (phase : Phase) (locals : List String) (need : Need) (n : QName) : List Use :=
  [⟨n, need, phase, n.headIn locals⟩]

mutual

def TypeExpr.uses (phase : Phase) (locals : List String) (need : Need) : TypeExpr → List Use
  | .named _ name => name.uses phase locals need
  | .mark _ sub owner _ _ _ =>
    sub.uses phase locals .partially ++ ownerUses phase locals owner
  | .ref _ sub _ => sub.uses phase locals .partially
  | .array _ element length => element.uses phase locals need ++ length.uses phase locals
  | .vector _ element _ _ => element.uses phase locals need
  | .tuple _ members _ => typesUses phase locals need members
  | .function _ result args _ =>
    result.uses phase locals .partially ++ typesUses phase locals .partially args
  | .future _ sub _ => sub.uses phase locals need
  | .maybe _ sub => sub.uses phase locals need
  | .typed _ sub => sub.uses phase locals .partially
  | .int .. | .uint .. | .float .. | .bool _ | .char _ | .void _ | .str _ | .native .. => []

def ownerUses (phase : Phase) (locals : List String) : Owner TypeExpr → List Use
  | .type owner => owner.uses phase locals .partially
  | .anonymous | .heap => []

def typesUses (phase : Phase) (locals : List String) (need : Need) : List TypeExpr → List Use
  | [] => []
  | ty :: tys => ty.uses phase locals need ++ typesUses phase locals need tys

def Expr.uses (phase : Phase) (locals : List String) : Expr → List Use
  | .int _ _ suffix | .float _ _ suffix => suffixUses phase locals suffix
  | .bool .. | .char .. | .str .. | .null _ | .default _ | .none _ | .self _
  | .selfMember .. | .todo .. => []
  | .entity _ name => name.uses phase locals .complete
  | .some _ e | .deref _ e | .copy _ e | .move _ e | .heapPut _ e | .await _ e
  | .unary _ _ e | .addressOf _ e _ | .member _ e _ => e.uses phase locals
  | .tuple _ items | .array _ items => exprsUses phase locals items
  | .index _ base position => base.uses phase locals ++ position.uses phase locals
  | .binary _ _ lhs rhs => lhs.uses phase locals ++ rhs.uses phase locals
  | .call _ callee args => callee.uses phase locals ++ exprsUses phase locals args
  | .methodCall _ base _ args _ => base.uses phase locals ++ exprsUses phase locals args
  | .construct _ type args => type.uses phase locals .complete ++ exprsUses phase locals args
  | .plain _ type _ values => type.uses phase locals .complete ++ exprsUses phase locals values
  | .variant _ type _ value =>
    type.uses phase locals .complete ++ optionUses phase locals value
  | .heapGet _ type count => type.uses phase locals .complete ++ optionUses phase locals count
  | .heapGrow _ type pointer count =>
    type.uses phase locals .complete ++ pointer.uses phase locals ++ count.uses phase locals
  | .cast _ value target => value.uses phase locals ++ target.uses phase locals .complete
  | .assembly _ _ _ args result _ =>
    exprsUses phase locals args ++ result.uses phase locals .complete
  | .ifElse _ condition thenValue elseValue =>
    condition.uses phase locals ++ thenValue.uses phase locals ++ elseValue.uses phase locals
  | .sizeOf _ type => type.uses phase locals .complete
  | .typeValue _ type => type.uses phase locals .partially

def suffixUses (phase : Phase) (locals : List String) : Option TypeExpr → List Use
  | some ty => ty.uses phase locals .complete
  | none => []

def optionUses (phase : Phase) (locals : List String) : Option Expr → List Use
  | some e => e.uses phase locals
  | none => []

def exprsUses (phase : Phase) (locals : List String) : List Expr → List Use
  | [] => []
  | e :: es => e.uses phase locals ++ exprsUses phase locals es

end

/-- The local a sentence brings into scope for the sentences after it. -/
def Sentence.declared : Sentence → List String
  | .localVar _ name _ _ _ _ => [name.text]
  | _ => []

def identTexts (name : Option Ident) : List String := (name.map Ident.text).toList

mutual

def Sentence.uses (phase : Phase) (locals : List String) : Sentence → List Use
  | .localVar _ _ type value _ isRef =>
    (match type with
      | some ty => ty.uses phase locals (if isRef then .partially else .complete)
      | none => []) ++ optionUses phase locals value
  | .assign _ lhs rhs | .opAssign _ _ lhs rhs => lhs.uses phase locals ++ rhs.uses phase locals
  | .expr _ e => e.uses phase locals
  | .cond _ branches otherwise =>
    branchesUses phase locals branches ++
      (match otherwise with
        | some body => sentencesUses phase locals body
        | none => [])
  | .whileDo _ condition body _ =>
    condition.uses phase locals ++ sentencesUses phase locals body
  | .times _ count index body _ =>
    count.uses phase locals ++ sentencesUses phase (identTexts index ++ locals) body
  | .loop _ body _ => sentencesUses phase locals body
  | .forIn _ iterable item index body _ =>
    iterable.uses phase locals ++
      sentencesUses phase (item.text :: identTexts index ++ locals) body
  | .give _ value => optionUses phase locals value
  | .block _ body => sentencesUses phase locals body
  | .breakLoop .. | .continueLoop .. | .todo .. => []

def sentencesUses (phase : Phase) (locals : List String) : List Sentence → List Use
  | [] => []
  | s :: rest =>
    s.uses phase locals ++ sentencesUses phase (s.declared ++ locals) rest

def branchesUses (phase : Phase) (locals : List String) : List Branch → List Use
  | [] => []
  | .mk condition body :: rest =>
    condition.uses phase locals ++ sentencesUses phase locals body ++
      branchesUses phase locals rest

end

/-! ## Declarations -/

def argsUses (need : Need) (phase : Phase) (args : List Argument) : List Use :=
  args.flatMap fun a => (a.type.map (·.uses phase [] need)).getD []

def typeUses (need : Need) (phase : Phase) (type : Option TypeExpr) : List Use :=
  (type.map (·.uses phase [] need)).getD []

def argNames (args : List Argument) : List String := args.map (·.name.text)

/-- The name under which copying and moving members see the other instance. -/
def otherName : String := "other"

/-- Signatures are needed in part before the prototypes; bodies come in phase three. -/
def membersUses (prototypes : Phase) (members : List MemberDecl) : List Use :=
  (members.flatMap fun m =>
    argsUses .partially prototypes m.args ++ typeUses .partially prototypes m.result) ++
  (members.flatMap fun m =>
    argsUses .complete .three m.args ++
      sentencesUses .three (otherName :: argNames m.args) m.body)

/-- The name a bring looks up for one of several members of a module. -/
def memberPath (module : QName) (name : Ident) : QName :=
  ⟨module.up, module.segments ++ [name], name.range⟩

def BringItem.uses : BringItem → List Use
  | .path p _ => p.uses .one [] .partially
  | .members source names =>
    names.flatMap fun n => (memberPath source n.name).uses .one [] .partially
  | .file .. => []

def DeclBody.uses : DeclBody → List Use
  | function d =>
    argsUses .partially .one d.args ++ typeUses .partially .one d.result ++
      (match d.body with
        | some body =>
          argsUses .complete .three d.args ++ typeUses .complete .three d.result ++
            sentencesUses .three (argNames d.args) body
        | none => [])
  | struct d =>
    (d.fields.flatMap fun f => f.type.uses .two [] .complete) ++ membersUses .two d.members
  | mix d => d.variants.flatMap fun v => typeUses .complete .two v.payload
  | choice d =>
    typeUses .complete .one d.underlying ++
      d.variants.flatMap fun v => optionUses .one [] v.value
  | global d => typeUses .complete .two d.type ++ d.value.uses .two []
  | prerunGlobal d => typeUses .complete .one d.type ++ d.value.uses .one []
  | prerunFunction d =>
    argsUses .complete .one d.args ++ typeUses .complete .one d.result ++
      sentencesUses .one (argNames d.args) d.body
  | typeDef d => d.type.uses .one [] .partially ++ d.type.uses .two [] .complete
  | skill d =>
    d.prototypes.flatMap fun p =>
      argsUses .partially .one p.args ++ typeUses .partially .one p.result
  | doSkill d =>
    ((d.skill.map (·.uses .two [] .complete)).getD []) ++ d.target.uses .two [] .complete ++
      membersUses .two d.members
  | bring d => d.items.flatMap BringItem.uses

/-- A guard is evaluated before the first phase. -/
def EntityDecl.uses (d : EntityDecl) (first : Phase) : List Use :=
  optionUses first [] d.guard ++ d.body.uses

end Staged
