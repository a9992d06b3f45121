/-
  Staged.Fault — every reason for which a program is refused.

  A fault says what is wrong in terms of types and names; its wording and its code are
  given here and nowhere else. Codes beginning with E1 are about names, E2 about types
  and values, E3 about variability and copying, E4 about declarations that wait for each
  other, E5 about unfinished code.

  A breach is a broken promise of the compiler itself or of the list of modules it was
  given; it has no code and points nowhere. Some promises cannot be broken here, and have no
  breach: a scope holds its locals themselves and not numbers of them, so no local is
  unknown; a single name is matched with its identifier, so it is not empty; every source
  module is registered with the module it becomes, so none lacks one; and a lib is no entity.
-/

import Staged.Constant.Fold
import Staged.Diagnostic
import Staged.Entity.Scheduler
import Staged.Module.Resolve

namespace Staged

inductive Code where
  | duplicateName | notFound | notAccessible | bringUnresolved | invalidPath
  | typeMismatch | bitwidthMismatch | unsupportedOperator | notSized | argumentCount
  | argumentType | missingConstructor | duplicateVariant | invalidVariant | notPrerun
  | prerunFailure | missingGive | invalidCast | notCallable | noMember | controlFlow
  | invalidExpression | duplicateField
  | notVariable | nonTrivialCopy | variabilityWidened | notAddressable | memberArgument
  | missingValue
  | unresolvedDependency | entityNotReady
  | metaTodo
  | trivialMove | maybeUnusable | todoWarning
  deriving DecidableEq, Repr

def Code.text : Code → String
  | duplicateName => "E1001" | notFound => "E1002" | notAccessible => "E1003"
  | bringUnresolved => "E1004" | invalidPath => "E1005"
  | typeMismatch => "E2001" | bitwidthMismatch => "E2002" | unsupportedOperator => "E2003"
  | notSized => "E2004" | argumentCount => "E2005" | argumentType => "E2006"
  | missingConstructor => "E2007" | duplicateVariant => "E2008" | invalidVariant => "E2009"
  | notPrerun => "E2010" | prerunFailure => "E2011" | missingGive => "E2012"
  | invalidCast => "E2013" | notCallable => "E2014" | noMember => "E2015"
  | controlFlow => "E2016" | invalidExpression => "E2017" | duplicateField => "E2018"
  | notVariable => "E3001" | nonTrivialCopy => "E3002" | variabilityWidened => "E3003"
  | notAddressable => "E3004" | memberArgument => "E3005" | missingValue => "E3006"
  | unresolvedDependency => "E4001" | entityNotReady => "E4002"
  | metaTodo => "E5001"
  | trivialMove => "W0001" | maybeUnusable => "W0002" | todoWarning => "W0003"

def ResolveError.code : ResolveError → Code
  | notFound .. => .notFound
  | notAccessible .. => .notAccessible
  | noParent .. | notAModule .. => .invalidPath

/-- What is called, as messages name it. -/
inductive Called where
  | value
  | localNamed (name : String)
  | function (name : String)
  | global (name : String)
  | static (type : Ty) (name : String)
  | method (name : String) (type : Ty)
  deriving Repr

def Called.text (t : TypeTable) : Called → String
  | value => "This value"
  | localNamed name => s!"Local `{name}`"
  | function name => s!"Function `{name}`"
  | global name => s!"Global `{name}`"
  | static type name => s!"Static function `{t.name type}::{name}`"
  | method name type => s!"Method `{name}` of `{t.name type}`"

/-- What stands where a value is wanted. -/
inductive NonValue where
  | prerunFunction | skill | declaration | module
  deriving Repr

def NonValue.text : NonValue → String
  | prerunFunction => "a prerun function"
  | skill => "a skill"
  | declaration => "a declaration"
  | module => "a module"

/-- What cannot be done before the program runs. -/
inductive NotPrerun where
  | indexing | call | expression | looping | referenceLocal | assigning
  | valueOf (type : Ty)
  | localNamed (name : String)
  | named (name : String)
  | assigningTo (name : String)
  deriving Repr

def NotPrerun.text (t : TypeTable) : NotPrerun → String
  | indexing => "Indexing this value"
  | call => "This call"
  | expression => "This expression"
  | looping => "Looping over this value"
  | referenceLocal => "A reference local"
  | assigning => "Assigning to this expression"
  | valueOf type => s!"A value of type `{t.name type}`"
  | localNamed name => s!"Local `{name}`"
  | named name => s!"`{name}`"
  | assigningTo name => s!"Assigning to `{name}`"

/-- Whose argument lacks a type. -/
inductive Signature where
  | function (name : String)
  | skillMethod (name skill : String)
  | prerunFunction (name : String)
  deriving Repr

def Signature.text : Signature → String
  | function name => s!"function `{name}`"
  | skillMethod name skill => s!"method `{name}` of skill `{skill}`"
  | prerunFunction name => s!"prerun function `{name}`"

/-- What should have a type whose values can be known. -/
inductive PrerunPlace where
  | global (name : String)
  | argument (name : String)
  | result (function : String)
  deriving Repr

def PrerunPlace.text : PrerunPlace → String
  | global name => s!"Prerun global `{name}`"
  | argument name => s!"Argument `{name}`"
  | result function => s!"The result of `{function}`"

inductive Fault where
  -- values and types
  | mismatch (expected found : Ty)
  | fold (error : FoldError)
  | reachedTodo (message : Option String)
  | referenceTo (type : Ty)
  | arrayLength
  | vectorElement (type : Ty)
  | notAType (name : String)
  | unsized (type : Ty)
  | sizeOfUnsized (type : Ty)
  | notNumeric (type : Ty)
  | literalTooLarge (negative : Bool) (value : Nat) (type : Ty)
  | nullUninferred
  | noneUninferred
  | defaultUninferred
  | emptyArray
  | notAValue (name : String) (what : NonValue)
  | selfOutside
  -- names and readiness
  | resolve (error : ResolveError)
  | notReady (entity : String)
  | duplicateName (name : String) (existing : Span)
  | declaredTwice (what name : String) (existing : Span)
  | duplicateLocal (name : String) (existing : Option Span)
  | duplicateTag (tag : String) (existing : Span)
  | bringNotFound (error : ResolveError)
  | bringEmpty
  | bringFile (path : String)
  | guardedLib (name : String)
  -- compile-time evaluation
  | notPrerun (what : NotPrerun)
  | noPrerunValues (place : PrerunPlace) (type : Ty)
  | indexOutOfLength (at_ : Int) (length : Nat)
  | knownNoMember (type : Ty) (name : String)
  | everyField
  | callDepth (limit : Nat) (function : String)
  | prerunArgument (name function : String) (expected found : Ty)
  | prerunNoGive (function : String) (type : Ty)
  | jumpEscaped (function : String)
  | loopLimit (limit : Nat)
  | knownLocalNeeds (name : String)
  | knownNotVariable (name : String)
  | noDefault (type : Ty)
  | choiceNoDefault (name : String)
  | mixNoDefault (name : String)
  -- plain initializers and fields
  | notExpanded (type : Ty)
  | fieldsUnknown (type : Ty)
  | fieldCount (type : Ty) (fields values : Nat)
  | noField (type : Ty) (name : String)
  | fieldTwice (name : String) (first : Span)
  | fieldMissing (name : String) (type : Ty)
  | fieldHidden (name : String) (type : Ty)
  | fieldHiddenAs (name : String) (type : Ty) (vis : Visibility)
  | noMember (type : Ty) (name : String)
  | tupleIndex (index : String) (members : Nat)
  | arrayIndex (at_ : Int) (length : Nat)
  | stringIndex (at_ : Int) (length : Nat)
  | notIndexable (type : Ty)
  -- variants
  | noVariants (type : Ty) (variant : String)
  | choiceCarries (type : Ty)
  | noVariant (type : Ty) (variant : String)
  | variantCarries (variant : String) (type : Ty)
  | variantNeeds (variant : String) (type payload : Ty)
  -- operators
  | bitwidths (op : BinaryOp) (left : Ty) (leftBits : Nat) (right : Ty) (rightBits : Nat)
  | operands (op : BinaryOp) (left right : Ty)
  | unsupported (op : String) (type : Ty)
  | onlyVariationOperator (op : BinaryOp) (type right : Ty)
  | noOperator (op : BinaryOp) (type right : Ty)
  | noVariationOperatorFor (op : BinaryOp) (type right : Ty)
  | noVariationOperator (type : Ty) (op : BinaryOp)
  | derefSlice (type : Ty)
  | derefOther (type : Ty)
  | castRefused (source target : Ty)
  | convertorHidden (source target : Ty) (vis : Visibility)
  -- calls and members
  | argumentCount (called : Called) (variadic : Bool) (expected given : Nat)
  | argumentType (index : Nat) (called : Called) (param found : Ty)
  | prerunArgumentCount (function : String) (expected given : Nat)
  | notCallable (name : String)
  | notCallableValue (called : Called) (type : Ty)
  | noStatic (type : Ty) (name : String)
  | memberHidden (kind : MemberKind) (name : String) (parent : Ty) (vis : Visibility)
  | noMethod (type : Ty) (name : String)
  | isVariationMethod (name : String) (type : Ty)
  | notVariationMethod (name : String) (type : Ty)
  | variationNeedsVariable (name : String) (type : Ty)
  | noConstructor (type : Ty) (args : Nat)
  | noConstructorFor (type : Ty) (given : List Ty) (candidate : Span)
  | constructorHidden (kind : MemberKind) (type : Ty) (vis : Visibility)
  -- memory
  | addressOfTemporary
  | bindTemporary
  | assignTemporary
  | assignNotVariable (type : Ty)
  | widened (type : Ty)
  | widenedMark (type : Ty)
  | implicitCopy (type : Ty)
  | noCopy (type : Ty)
  | moveNotVariable (type : Ty)
  | noMove (type : Ty)
  | notHeapMark (type : Ty)
  | notFuture (type : Ty)
  -- sentences
  | notIterable (type : Ty)
  | localReference (name : String) (type : Ty)
  | localNeeds (name : String)
  | localVoid (name : String)
  | referenceNeedsValue (name : String)
  | jumpTag (word tag : String)
  | jumpOutside (word : String)
  | giveNothing (type : Ty)
  | giveInVoid
  | missingGive (function : String) (type : Ty)
  | assemblyInputs (inputs args : Nat)
  | assemblyOutput (type : Ty)
  -- declarations
  | memberArgOutside (name : String)
  | memberArgIn (name : String) (kind : MemberKind)
  | argNeedsType (name : String) (signature : Option Signature)
  | argVoid (name : String)
  | variadicBody (name : String)
  | duplicateField (type name : String) (existing : Span)
  | fieldType (name : String) (type : Ty)
  | fieldInfinite (name type : String)
  | duplicateMixVariant (mix variant : String) (existing : Span)
  | variantType (variant : String) (type : Ty)
  | mixNoVariant (mix variant : String)
  | choiceNoVariant (choice variant : String)
  | defaultCarries (mix : String)
  | memberArity (kind : MemberKind) (type : Ty) (expected given : Nat)
  | givesValue (kind : MemberKind)
  | convertorNeedsType
  | memberClash (type : Ty) (kind : MemberKind) (existing : Span)
  | choiceUnderlying (type : Ty)
  | variantNotInt (variant : String) (type : Ty)
  | sameValue (first second choice : String) (value : Int) (existing : Span)
  | variantOverflow (value : Int) (variant : String) (type : Ty)
  | globalType (name : String) (type : Ty)
  | doSkillTarget (type : Ty)
  | notASkill (name : String)
  | skillMissing (skill method : String) (target : Ty) (required : Span)
  | skillSignature (method skill : String) (required : Span)
  deriving Repr

namespace Fault

def code : Fault → Code
  | mismatch .. | referenceTo _ | arrayLength | vectorElement _ | notAType _ | notNumeric _
  | literalTooLarge .. | notExpanded _ | notIndexable _ | operands .. | derefSlice _
  | derefOther _ | notHeapMark _ | notFuture _ | notIterable _ | localReference .. | localVoid _
  | giveInVoid | argVoid _ | fieldType .. | variantType .. | givesValue _ | choiceUnderlying _
  | variantNotInt .. | globalType .. | doSkillTarget _ | skillSignature .. => .typeMismatch
  | fold e => match e with
    | .unsupported .. => .unsupportedOperator
    | .invalidCast .. => .invalidCast
    | .divisionByZero | .shiftOutOfRange .. => .prerunFailure
  | reachedTodo _ => .metaTodo
  | unsized _ | sizeOfUnsized _ | fieldsUnknown _ | fieldInfinite .. => .notSized
  | nullUninferred | noneUninferred | defaultUninferred | emptyArray | notAValue ..
  | selfOutside | guardedLib _ | isVariationMethod .. | notVariationMethod ..
  | assemblyOutput _ | variadicBody _ | convertorNeedsType | notASkill _ => .invalidExpression
  | resolve e => e.code
  | notReady _ => .entityNotReady
  | duplicateName .. | declaredTwice .. | duplicateLocal .. | duplicateTag ..
  | memberClash .. => .duplicateName
  | bringNotFound _ | bringFile _ => .bringUnresolved
  | bringEmpty => .invalidPath
  | notPrerun _ | noPrerunValues .. => .notPrerun
  | indexOutOfLength .. | callDepth .. | loopLimit _ | tupleIndex .. | arrayIndex ..
  | stringIndex .. => .prerunFailure
  | knownNoMember .. | noField .. | noMember .. | noStatic .. | noMethod ..
  | skillMissing .. => .noMember
  | everyField | knownLocalNeeds _ | fieldMissing .. | variantNeeds .. | localNeeds _
  | referenceNeedsValue _ | argNeedsType .. => .missingValue
  | prerunArgument .. | argumentType .. => .argumentType
  | prerunNoGive .. | giveNothing _ | missingGive .. => .missingGive
  | jumpEscaped _ | jumpTag .. | jumpOutside _ => .controlFlow
  | knownNotVariable _ | onlyVariationOperator .. | variationNeedsVariable ..
  | assignNotVariable _ | moveNotVariable _ => .notVariable
  | noDefault _ | choiceNoDefault _ | mixNoDefault _ | noConstructor ..
  | noConstructorFor .. => .missingConstructor
  | fieldCount .. | argumentCount .. | prerunArgumentCount .. | assemblyInputs ..
  | memberArity .. => .argumentCount
  | fieldTwice .. | duplicateField .. => .duplicateField
  | fieldHidden .. | fieldHiddenAs .. | convertorHidden .. | memberHidden ..
  | constructorHidden .. => .notAccessible
  | noVariants .. | choiceCarries _ | noVariant .. | variantCarries .. | mixNoVariant ..
  | choiceNoVariant .. | defaultCarries _ => .invalidVariant
  | bitwidths .. | variantOverflow .. => .bitwidthMismatch
  | unsupported .. | noOperator .. | noVariationOperatorFor ..
  | noVariationOperator .. => .unsupportedOperator
  | castRefused .. => .invalidCast
  | notCallable _ | notCallableValue .. => .notCallable
  | addressOfTemporary | bindTemporary | assignTemporary => .notAddressable
  | widened _ | widenedMark _ => .variabilityWidened
  | implicitCopy _ | noCopy _ | noMove _ => .nonTrivialCopy
  | memberArgOutside _ | memberArgIn .. => .memberArgument
  | duplicateMixVariant .. | sameValue .. => .duplicateVariant

/-- The ending of a counted noun. -/
def plural (n : Nat) : String := if n = 1 then "" else "s"

/-- The first letter in upper case; the texts it is used on are ASCII. -/
def capitalized (s : String) : String :=
  match s.toList with
  | [] => ""
  | c :: rest => String.ofList (c.toUpper :: rest)

def todoText (message : Option String) : String :=
  match message with
  | some m => s!"Reached a TODO: {m}"
  | none => "Reached a TODO"

def message (t : TypeTable) : Fault → String
  | mismatch expected found =>
    s!"Expected a value of type `{t.name expected}`, but the provided value is of type `{t.name found}`"
  | fold e => e.message t
  | reachedTodo m => todoText m
  | referenceTo type => s!"Cannot create a reference to `{t.name type}`"
  | arrayLength => "The length of an array type must be a non-negative integer"
  | vectorElement type => s!"Vector elements must be numbers or booleans, not `{t.name type}`"
  | notAType name => s!"`{name}` is not a type"
  | unsized type => s!"Type `{t.name type}` is not sized and cannot be used here"
  | sizeOfUnsized type => s!"Type `{t.name type}` is not sized"
  | notNumeric type => s!"`{t.name type}` is not a numeric type"
  | literalTooLarge negative value type =>
    let sign := if negative then "-" else ""
    s!"The integer literal {sign}{value} does not fit in type `{t.name type}`"
  | nullUninferred => "The mark type of `null` could not be inferred"
  | noneUninferred => "The maybe type of `none` could not be inferred"
  | defaultUninferred => "The type of `default` could not be inferred"
  | emptyArray => "The element type of an empty array could not be inferred"
  | notAValue name what => s!"`{name}` is {what.text}, not a value"
  | selfOutside => "`''` can only be used inside member functions"
  | resolve e => e.message
  | notReady entity => s!"{entity} is used before it is ready"
  | duplicateName name _ => s!"`{name}` is already declared in this scope"
  | declaredTwice what name _ => s!"{what} `{name}` is declared more than once"
  | duplicateLocal name _ => s!"A local named `{name}` already exists in this scope"
  | duplicateTag tag _ => s!"A loop tagged `{tag}` already encloses this loop"
  | bringNotFound e => e.message
  | bringEmpty => "An empty path cannot be brought"
  | bringFile path => s!"No module was found for the file `{path}`"
  | guardedLib name => s!"lib `{name}` cannot be guarded"
  | notPrerun what => s!"{what.text t} cannot be evaluated at compile time"
  | noPrerunValues place type =>
    s!"{place.text} is of type `{t.name type}`, which has no prerun values"
  | indexOutOfLength i length => s!"Index {i} is out of range for a length of {length}"
  | knownNoMember type name =>
    s!"Compile-time value of type `{t.name type}` has no member named `{name}`"
  | everyField => "Every field needs a value"
  | callDepth limit function =>
    s!"Compile-time calls nest deeper than {limit} while calling `{function}`"
  | prerunArgument name function expected found =>
    s!"Argument `{name}` of `{function}` has type `{t.name expected}`, but the provided value is of type `{t.name found}`"
  | prerunNoGive function type =>
    s!"Prerun function `{function}` finished without giving a value of type `{t.name type}`"
  | jumpEscaped function => s!"`break` or `continue` escaped the body of `{function}`"
  | loopLimit limit => s!"Compile-time loop ran more than {limit} times"
  | knownLocalNeeds name => s!"Local `{name}` needs a type or a value"
  | knownNotVariable name => s!"Local `{name}` is not variable and cannot be assigned to"
  | noDefault type => s!"Type `{t.name type}` has no default value"
  | choiceNoDefault name => s!"Choice type `{name}` has no default variant"
  | mixNoDefault name => s!"Mix type `{name}` has no default variant"
  | notExpanded type =>
    s!"Plain initialization needs an expanded type, but `{t.name type}` is not one"
  | fieldsUnknown type => s!"The fields of `{t.name type}` are not known yet"
  | fieldCount type fields values =>
    s!"Type `{t.name type}` has {fields} fields, but {values} values were provided"
  | noField type name => s!"Type `{t.name type}` has no field named `{name}`"
  | fieldTwice name _ => s!"Field `{name}` is given a value more than once"
  | fieldMissing name type => s!"Field `{name}` of `{t.name type}` is not given a value"
  | fieldHidden name type => s!"Field `{name}` of `{t.name type}` is not accessible here"
  | fieldHiddenAs name type vis =>
    s!"Field `{name}` of `{t.name type}` is {vis.describe} and not accessible here"
  | noMember type name => s!"Type `{t.name type}` has no member named `{name}`"
  | tupleIndex index members =>
    s!"Index {index} is out of range for a tuple of {members} members"
  | arrayIndex i length => s!"Index {i} is out of range for an array of length {length}"
  | stringIndex i length => s!"Index {i} is out of range for a string of length {length}"
  | notIndexable type => s!"Values of type `{t.name type}` cannot be indexed"
  | noVariants type variant =>
    s!"`{t.name type}` is neither a mix nor a choice type, so it has no variant `{variant}`"
  | choiceCarries type => s!"Variants of choice type `{t.name type}` do not carry values"
  | noVariant type variant => s!"Type `{t.name type}` has no variant named `{variant}`"
  | variantCarries variant type =>
    s!"Variant `{variant}` of `{t.name type}` does not carry a value"
  | variantNeeds variant type payload =>
    s!"Variant `{variant}` of `{t.name type}` needs a value of type `{t.name payload}`"
  | bitwidths op left leftBits right rightBits =>
    s!"Operator `{op.symbol}` cannot be used between `{t.name left}` ({leftBits} bits) and `{t.name right}` ({rightBits} bits); convert one side with `'to`"
  | operands op left right =>
    s!"Operator `{op.symbol}` cannot be used between `{t.name left}` and `{t.name right}`"
  | unsupported op type => s!"Operator `{op}` is not supported for `{t.name type}`"
  | onlyVariationOperator op type right =>
    s!"The only operator `{op.symbol}` of `{t.name type}` accepting `{t.name right}` is a variation operator, but the left-hand side is not variable"
  | noOperator op type right =>
    s!"No operator `{op.symbol}` of `{t.name type}` accepts a right-hand side of type `{t.name right}`"
  | noVariationOperatorFor op type right =>
    s!"No variation operator `{op.symbol}` of `{t.name type}` accepts a right-hand side of type `{t.name right}`"
  | noVariationOperator type op =>
    s!"Type `{t.name type}` has no variation operator `{op.symbol}`"
  | derefSlice type =>
    s!"`{t.name type}` is a slice and cannot be dereferenced; index into it instead"
  | derefOther type =>
    s!"Only marks can be dereferenced, but this value is of type `{t.name type}`"
  | castRefused source target =>
    s!"Cannot cast a value of type `{t.name source}` to `{t.name target}`"
  | convertorHidden source target vis =>
    s!"The convertor of `{t.name source}` to `{t.name target}` is {vis.describe} and not accessible here"
  | argumentCount called variadic expected given =>
    let least := if variadic then "at least " else ""
    s!"{called.text t} expects {least}{expected} arguments, but {given} were provided"
  | argumentType index called param found =>
    s!"Argument {index} of {called.text t} expects a value of type `{t.name param}`, but the provided value is of type `{t.name found}`"
  | prerunArgumentCount function expected given =>
    s!"Prerun function `{function}` expects {expected} arguments, but {given} were provided"
  | notCallable name => s!"`{name}` cannot be called"
  | notCallableValue called type =>
    s!"{called.text t} is of type `{t.name type}` and cannot be called"
  | noStatic type name => s!"Type `{t.name type}` has no static function named `{name}`"
  | memberHidden kind name parent vis =>
    s!"{capitalized kind.describe} `{name}` of `{t.name parent}` is {vis.describe} and not accessible here"
  | noMethod type name => s!"Type `{t.name type}` has no method named `{name}`"
  | isVariationMethod name type =>
    s!"`{name}` is a variation method of `{t.name type}` and must be called as one"
  | notVariationMethod name type => s!"`{name}` is not a variation method of `{t.name type}`"
  | variationNeedsVariable name type =>
    s!"Variation method `{name}` needs a variable instance of `{t.name type}`"
  | noConstructor type args =>
    s!"Type `{t.name type}` has no constructor or convertor taking {args} argument{plural args}"
  | noConstructorFor type given _ =>
    let given := ", ".intercalate (given.map fun g => s!"`{t.name g}`")
    s!"Type `{t.name type}` has no constructor or convertor accepting arguments of type {given}"
  | constructorHidden kind type vis =>
    s!"The {kind.describe} of `{t.name type}` is {vis.describe} and not accessible here"
  | addressOfTemporary => "Only values that live in memory can be bound by address"
  | bindTemporary => "A temporary value cannot be bound to a reference"
  | assignTemporary => "Only values that live in memory can be assigned to"
  | assignNotVariable type =>
    s!"Cannot assign to this value of type `{t.name type}` as it is not variable"
  | widened type =>
    s!"Cannot get variable access to a value of type `{t.name type}` that is not variable"
  | widenedMark type =>
    s!"A variable mark cannot point to a value of type `{t.name type}` that is not variable"
  | implicitCopy type => s!"A value of type `{t.name type}` cannot be copied implicitly"
  | noCopy type => s!"Type `{t.name type}` has no copy constructor and cannot be copied"
  | moveNotVariable type =>
    s!"Cannot move out of a value of type `{t.name type}` that is not variable"
  | noMove type => s!"Type `{t.name type}` has no move constructor and cannot be moved"
  | notHeapMark type =>
    s!"Expected a heap mark, but the provided value is of type `{t.name type}`"
  | notFuture type =>
    s!"Only futures can be awaited, but this value is of type `{t.name type}`"
  | notIterable type => s!"Values of type `{t.name type}` cannot be looped over"
  | localReference name type =>
    s!"Local `{name}` has the reference type `{t.name type}`; declare it with `ref` instead"
  | localNeeds name => s!"Local `{name}` needs either a type or a value"
  | localVoid name => s!"Local `{name}` cannot hold a value of type `void`"
  | referenceNeedsValue name => s!"Reference `{name}` needs a value to refer to"
  | jumpTag word tag => s!"`{word}` names the loop tag `{tag}`, but no enclosing loop has it"
  | jumpOutside word => s!"`{word}` can only be used inside a loop"
  | giveNothing type =>
    s!"This function should give a value of type `{t.name type}`, but nothing is given here"
  | giveInVoid => "This function gives `void`, so `give` cannot carry a value"
  | missingGive function type =>
    s!"Function `{function}` does not give a value of type `{t.name type}` on every path"
  | assemblyInputs inputs args =>
    s!"The constraints of this assembly name {inputs} inputs, but {args} arguments were provided"
  | assemblyOutput type =>
    s!"Assembly giving a value of type `{t.name type}` needs an output constraint"
  | memberArgOutside name =>
    s!"Member argument `''{name}` can only be used in member functions"
  | memberArgIn name kind => s!"Member argument `''{name}` cannot be used in a {kind.describe}"
  | argNeedsType name signature => match signature with
    | some s => s!"Argument `{name}` of {s.text} needs a type"
    | none => s!"Argument `{name}` needs a type"
  | argVoid name => s!"Argument `{name}` cannot be of type `void`"
  | variadicBody name => s!"Function `{name}` has a body, so it cannot be variadic"
  | duplicateField type name _ => s!"Type `{type}` already has a field named `{name}`"
  | fieldType name type => s!"Field `{name}` cannot be of type `{t.name type}`"
  | fieldInfinite name type =>
    s!"Field `{name}` has the type `{type}` it belongs to, so the type would have infinite size"
  | duplicateMixVariant mix variant _ => s!"Mix type `{mix}` has two variants named `{variant}`"
  | variantType variant type =>
    s!"Variant `{variant}` cannot carry a value of type `{t.name type}`"
  | mixNoVariant mix variant => s!"Mix type `{mix}` has no variant named `{variant}`"
  | choiceNoVariant choice variant =>
    s!"Choice type `{choice}` has no variant named `{variant}`"
  | defaultCarries mix =>
    s!"The default variant of `{mix}` carries a value, so it cannot be created without one"
  | memberArity kind type expected given =>
    s!"The {kind.describe} of `{t.name type}` takes {expected} argument{plural expected}, but {given} were declared"
  | givesValue kind => s!"A {kind.describe} cannot give a value"
  | convertorNeedsType => "A `to` convertor must name the type it converts to"
  | memberClash type kind _ =>
    s!"`{t.name type}` already has a {kind.describe} that cannot be told apart from this one"
  | choiceUnderlying type =>
    s!"The underlying type of a choice type must be an integer, not `{t.name type}`"
  | variantNotInt variant type =>
    s!"The value of variant `{variant}` must be an integer, but it is of type `{t.name type}`"
  | sameValue first second choice value _ =>
    s!"Variants `{first}` and `{second}` of choice type `{choice}` both have the value {value}"
  | variantOverflow value variant type =>
    s!"The value {value} of variant `{variant}` does not fit in the underlying type `{t.name type}`"
  | globalType name type => s!"Global `{name}` cannot be of type `{t.name type}`"
  | doSkillTarget type => s!"Members cannot be added to the type `{t.name type}`"
  | notASkill name => s!"`{name}` is not a skill"
  | skillMissing skill method target _ =>
    s!"Skill `{skill}` requires the method `{method}`, but it is not provided for `{t.name target}`"
  | skillSignature method skill _ =>
    s!"Method `{method}` does not have the signature skill `{skill}` requires"

/-- The text on the place itself. -/
def primaryText : Fault → String
  | bringNotFound _ => "this could not be brought"
  | _ => ""

/-- Another place that explains the fault. -/
def secondary? : Fault → Option (Span × String)
  | resolve (.notAccessible _ _ _ declared) => some (declared, "declared here")
  | duplicateName _ r | declaredTwice _ _ r => some (r, "the existing declaration was found here")
  | duplicateLocal _ r => r.map (·, "the existing local was found here")
  | duplicateTag _ r => some (r, "the existing tag was found here")
  | fieldTwice _ r => some (r, "the first value was given here")
  | noConstructorFor _ _ r => some (r, "a candidate with the same number of arguments")
  | duplicateField _ _ r => some (r, "the existing field was found here")
  | duplicateMixVariant _ _ r => some (r, "the first variant was found here")
  | memberClash _ _ r => some (r, "the existing member was found here")
  | sameValue _ _ _ _ r => some (r, "the first variant with this value")
  | skillMissing _ _ _ r => some (r, "required here")
  | skillSignature _ _ r => some (r, "the required signature is declared here")
  | _ => none

def diagnostic (t : TypeTable) (range : Span) (f : Fault) : Diagnostic :=
  let d : Diagnostic := { severity := .error, message := f.message t }
  let d := (d.withCode f.code.text).withPrimary range f.primaryText
  let d := match f.secondary? with
    | some (r, text) => d.withSecondary r text
    | none => d
  match f with
  | implicitCopy _ => d.withHelp "use 'copy or 'move"
  | _ => d

end Fault

/-! ## Declarations that wait -/

/-- What is said of one stuck entity. -/
def Stuck.note (g : EntityGraph) (s : Stuck) : String :=
  if s.missing.isEmpty then s!"{s.name} cannot run {s.phase.text}"
  else
    let missing := ", ".intercalate (s.missing.map fun d => g.displayName d.entity)
    s!"{s.name} waits for {missing}"

def StuckReport.diagnostic (g : EntityGraph) (r : StuckReport) : Diagnostic :=
  let count := r.stuck.length
  let d : Diagnostic :=
    { severity := .error
      code := some Code.unresolvedDependency.text
      message :=
        s!"{count} declaration{Fault.plural count} could not be resolved in {r.phase.text}" }
  let d := match r.stuck with
    | [] => d
    | first :: _ =>
      let d := d.withPrimary first.range s!"{first.name} is waiting here"
      match first.missing with
      | [] => d
      | dep :: _ =>
        let range := ((g.get? dep.entity).map Entity.range).getD default
        d.withSecondary range s!"{g.displayName dep.entity} is not ready"
  let d := r.stuck.foldl (fun d s => d.withNote (s.note g)) d
  match r.cycle with
  | none => d
  | some cycle =>
    let names := cycle.map g.displayName
    let names := names ++ names.take 1
    d.withNote ("dependency cycle: " ++ " -> ".intercalate names)

/-! ## Broken promises -/

inductive Breach where
  | noFunction
  | nestedFunction
  | missingPrototype (function : FunctionId)
  | missingBlock
  | missingEntry
  | lostFunction
  | outsideCall
  | emptyQualifiedName
  | noSource (index : Nat)
  | sourceCycle
  | noDeclaration (entity : EntityId)
  | notATypeEntity (entity : String)
  | notAnExpandedType (name : String)
  | notAMix (name : String)
  | noInstance (kind : MemberKind) (name : String)
  | notAFunction (name : String)
  | noPrototype (name : String)
  | noSize (type : String)
  | noResult (function : String)
  | lostInstance (name : String)
  | noDefinition
  deriving Repr

def Breach.message : Breach → String
  | noFunction => "no function is being lowered"
  | nestedFunction => "nested function lowering"
  | missingPrototype f => s!"missing prototype for @fn{f}"
  | missingBlock => "current block is missing"
  | missingEntry => "entry block is missing"
  | lostFunction => "function disappeared while lowering"
  | outsideCall => "prerun sentence outside of a prerun call"
  | emptyQualifiedName => "empty qualified name"
  | noSource index => s!"no source module at index {index}"
  | sourceCycle => "folder modules contain each other"
  | noDeclaration entity => s!"no declaration for entity{entity}"
  | notATypeEntity entity => s!"{entity} does not define a type"
  | notAnExpandedType name => s!"`{name}` is not an expanded type"
  | notAMix name => s!"`{name}` is not a mix type"
  | noInstance kind name => s!"{kind.describe} `{name}` called without an instance"
  | notAFunction name => s!"function `{name}` has a non-function type"
  | noPrototype name => s!"`{name}` has no prototype"
  | noSize type => s!"sized type `{type}` has no size"
  | noResult function => s!"{function} gave no value"
  | lostInstance name => s!"member `{name}` lost its instance parameter"
  | noDefinition => "skill implementation has no definition"

/-- Why a compilation stops. -/
inductive Failure where
  | fault (fault : Fault) (range : Span)
  | stuck (report : StuckReport)
  | breach (breach : Breach)
  deriving Repr

end Staged
