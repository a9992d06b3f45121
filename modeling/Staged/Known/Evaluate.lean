/-
  Staged.Known.Evaluate — running code before the program runs.

  Types are resolved and expressions evaluated together, because the length of an array
  type is an expression. Evaluation follows the syntax; only calls leave it, and they are
  handed in as a parameter (`Caller`), so every definition here is structural. `callKnown`
  ties the knot by recursion on the number of calls that may still nest, and loops run by
  recursion on the number of iterations that are left.

  Names mean, in this order: locals of the running call, locals of the function being
  lowered that are known and do not change, what the module tree says, and defines.
-/

import Staged.Compiler.Code
import Staged.Known.Default
import Staged.Known.Shape

namespace Staged.Emit

/-! ## Helpers -/

def orRefuse {α : Type} (result : Except Fault α) (range : Span) : Emit α :=
  match result with
  | .ok a => return a
  | .error f => refuse f range

def orRefuseFold {α : Type} (result : Except FoldError α) (range : Span) : Emit α :=
  match result with
  | .ok a => return a
  | .error e => refuse (.fold e) range

/-- Run `inside` between two actions, the second of which runs whatever happens. -/
def bracket {α : Type} (before after : Emit Unit) (inside : Emit α) : Emit α := do
  before
  try inside finally after

def asCondition (c : Constant) (range : Span) : Emit Bool :=
  match c.data, c.type with
  | .bool b, .bool => return b
  | _, ty => mismatch .bool ty range

/-- The type of an integer literal, given the type and place of its suffix. -/
def literalType (suffix : Option (Ty × Span)) (expected : Option Ty) : Emit Ty := do
  match suffix with
  | some (ty, range) =>
    unless (← types).isNumeric ty do refuse (.notNumeric ty) range
    return ty
  | none => return (← types).inferredInt expected

def intLiteral (value : Nat) (negative : Bool) (suffix : Option (Ty × Span))
    (expected : Option Ty) (range : Span) : Emit Constant := do
  let ty ← literalType suffix expected
  orRefuse ((← types).intLiteral value negative ty) range

def floatLiteral (value : Binary64) (suffix : Option (Ty × Span)) (expected : Option Ty)
    (range : Span) : Emit Constant := do
  let t ← types
  let ty := match suffix with
    | some (ty, _) => ty
    | none => t.inferredFloat expected
  if (t.floatKind? ty).isNone then mismatch .f64 ty range
  return ⟨.float value, ty⟩

/-- The value of a define. -/
def defineValue (d : Define) (expected : Option Ty) : Emit Constant := do
  match d with
  | .bool b => return .bool b
  | .str s => return ⟨.str s, .str⟩
  | .int v =>
    let t ← types
    match expected.filter fun ty => (t.intInfo? ty).any (·.fits v) with
    | some ty => return .int ty v
    | none => return .int (← intern (.int 64)) v

/-- A type as a value. -/
def typeConstant (ty : Ty) : Emit Constant := do
  let _ ← intern (.typed ty)
  return .type' ty

/-- The meaning of a name that nothing declares. -/
def definedAs (name : QName) (e : ResolveError) (expected : Option Ty) : Emit Constant := do
  match e.isNotFound, name.single? with
  | true, some n => match (← read).define? n.text with
    | some d => defineValue d expected
    | none => refuseName e
  | _, _ => refuseName e

/-! ## Names -/

/-- The type a name means. -/
def namedType (view : Viewpoint) (name : QName) : Emit Ty := do
  let notAType {α : Type} : Emit α := refuse (.notAType name.text) name.range
  match (← frame?).bind fun f => name.single?.bind fun n => f.get? n.text with
  | some v => require v.value.asType? (.notAType name.text) name.range
  | none => match ← resolved view name with
    | .module _ => notAType
    | .item item => match ← symbolOf item.entity name.range with
      | .type ty => return ty
      | .prerunGlobal v => require v.asType? (.notAType name.text) name.range
      | _ => notAType

/-- A name that ends in a member of a type. -/
def typeMember (view : Viewpoint) (name : QName) : Emit (Ty × Ident) := do
  match name.last? with
  | none => breach .emptyQualifiedName
  | some member => return (← namedType view { name with segments := name.front }, member)

/-- The value a name means. -/
def namedConstant (view : Viewpoint) (name : QName) (expected : Option Ty) : Emit Constant := do
  match (← frame?).bind fun f => name.single?.bind fun n => f.get? n.text with
  | some v => return v.value
  | none => match ← localOf? name with
    | some v =>
      require (if v.isVar then none else v.known) (.notPrerun (.localNamed v.name.text)) name.range
    | none => match ← resolveName view name with
      | .ok (.module _) => refuse (.notAValue name.text .module) name.range
      | .ok (.item item) => match ← symbolOf item.entity name.range with
        | .prerunGlobal v => return v
        | .global _ _ false v => return v
        | .type ty => typeConstant ty
        | _ => refuse (.notPrerun (.named name.text)) name.range
      | .error e =>
        if e.isNotAModule && name.segments.length > 1 then
          let (ty, member) ← typeMember view name
          orRefuse ((← types).knownVariant ty member.text none) member.range
        else definedAs name e expected

/-- The compile-time function a callee names, if it names one. -/
def calledFunction? (view : Viewpoint) (callee : Expr) : Emit (Option PrerunFunction) := do
  match callee with
  | .entity _ name => match ← resolved view name with
    | .module _ => return none
    | .item item => match ← symbolOf item.entity name.range with
      | .prerunFunction f => return some f
      | _ => return none
  | _ => return none

def checkArgCount (f : PrerunFunction) (given : Nat) (range : Span) : Emit Unit := do
  if given ≠ f.args.length then
    refuse (.prerunArgumentCount f.fullName f.args.length given) range

/-- The field that each value of a plain initializer is for; all of them must be usable
here. -/
def fieldOrder (view : Viewpoint) (ty : Ty) (names : Option (List Ident)) (count : Nat)
    (range : Span) : Emit (List Nat) := do
  let d ← require ((← types).structOf? ty) (.notExpanded ty) range
  unless d.isComplete do refuse (.fieldsUnknown ty) range
  match d.fieldOrder ty names count range with
  | .error (f, at_) => refuse f at_
  | .ok order =>
    for i in order do
      match d.fields[i]? with
      | some field =>
        unless ← isAccessible view field.vis do
          refuse (.fieldHidden field.name.text ty) range
      | none => pure ()
    return order

/-- The fields of a struct from values with their positions. -/
def placed (count : Nat) (values : List (Nat × Data)) : Option (List Data) :=
  (List.range count).mapM fun i => values.lookup i

/-! ## Expressions -/

/-- Runs a compile-time function on its arguments. -/
abbrev Caller := PrerunFunction → List Constant → Span → Emit Constant

mutual

def resolveTypeWith (call : Caller) (view : Viewpoint) : TypeExpr → Emit Ty
  | .int _ bits => intern (.int bits)
  | .uint _ bits => intern (.uint bits)
  | .float _ kind => intern (.float kind)
  | .bool _ => return .bool
  | .char _ => return .char
  | .void _ => return .void
  | .str _ => return .str
  | .native _ kind => intern (.native kind)
  | .named _ name => namedType view name
  | .mark _ sub owner nullable slice isVar => do
    let sub ← resolveTypeWith call view sub
    let owner ← resolveOwnerWith call view owner
    intern (.mark sub owner nullable slice isVar)
  | .ref range sub isVar => do
    let sub ← resolveTypeWith call view sub
    if sub.isRef || sub == .void then refuse (.referenceTo sub) range
    intern (.ref sub isVar)
  | .array _ element length => do
    let element ← resolveTypeWith call view element
    let value ← evaluateWith call view length (some .usize)
    match value.asInt? with
    | some l =>
      if (← types).isIntegral value.type ∧ 0 ≤ l ∧ l < Int.pow 2 64 then
        intern (.array element l.toNat)
      else refuse .arrayLength length.range
    | none => refuse .arrayLength length.range
  | .vector range element count scalable => do
    let element ← resolveTypeWith call view element
    unless (← types).isNumeric element || element == .bool do
      refuse (.vectorElement element) range
    intern (.vector element count scalable)
  | .tuple _ members packed => do
    intern (.tuple (← resolveTypesWith call view members) packed)
  | .function _ result args variadic => do
    let result ← resolveTypeWith call view result
    let args ← resolveTypesWith call view args
    intern (.function result args variadic)
  | .future _ sub packed => do intern (.future (← resolveTypeWith call view sub) packed)
  | .maybe _ sub => do intern (.maybe (← resolveTypeWith call view sub))
  | .typed _ sub => do intern (.typed (← resolveTypeWith call view sub))

def resolveOwnerWith (call : Caller) (view : Viewpoint) : Owner TypeExpr → Emit (Owner Ty)
  | .anonymous => return .anonymous
  | .heap => return .heap
  | .type owner => return .type (← resolveTypeWith call view owner)

def resolveTypesWith (call : Caller) (view : Viewpoint) : List TypeExpr → Emit (List Ty)
  | [] => return []
  | ty :: tys => return (← resolveTypeWith call view ty) :: (← resolveTypesWith call view tys)

/-- The type of a literal's suffix and where it stands. -/
def suffixWith (call : Caller) (view : Viewpoint) : Option TypeExpr → Emit (Option (Ty × Span))
  | some ty => return some (← resolveTypeWith call view ty, ty.range)
  | none => return none

def evaluateWith (call : Caller) (view : Viewpoint) : Expr → Option Ty → Emit Constant
  | .int range value suffix, expected => do
    intLiteral value false (← suffixWith call view suffix) expected range
  | .float range value suffix, expected => do
    floatLiteral value (← suffixWith call view suffix) expected range
  | .bool _ value, _ => return .bool value
  | .char _ value, _ => return ⟨.char value, .char⟩
  | .str _ value, _ => return ⟨.str value, .str⟩
  | .null range, expected => do
    return ⟨.null, ← require (expected.filter Ty.isMark) .nullUninferred range⟩
  | .default range, expected => do
    let ty ← require expected .defaultUninferred range
    orRefuse ((← types).default ty) range
  | .none range, expected => do
    return ⟨.maybe none, ← require (expected.filter (·.maybe?.isSome)) .noneUninferred range⟩
  | .some _ inner, expected => do
    let v ← evaluateWith call view inner (expected.bind Ty.maybe?)
    return ⟨.maybe (some v.data), ← intern (.maybe v.type)⟩
  | .tuple _ items, expected => do
    let hints := match expected with
      | some (.tuple members _) => members
      | _ => []
    let vs ← evaluateEachWith call view items hints
    return ⟨.tuple (vs.map Constant.data), ← intern (.tuple (vs.map Constant.type) false)⟩
  | .array range items, expected => do
    let (element, vs) ← evaluateItemsWith call view items (expected.bind Ty.element?)
    let element ← require element .emptyArray range
    return ⟨.array vs, ← intern (.array element vs.length)⟩
  | .entity _ name, expected => namedConstant view name expected
  | .unary range .negate (.int _ value suffix), expected => do
    intLiteral value true (← suffixWith call view suffix) expected range
  | .unary range op operand, expected => do
    let v ← evaluateWith call view operand expected
    orRefuseFold ((← types).foldUnary op v) range
  | .binary range op lhs rhs, _ => do
    if op.isLogical then
      let left ← asCondition (← evaluateWith call view lhs (some .bool)) lhs.range
      if left == (op == .or) then return .bool left
      return .bool (← asCondition (← evaluateWith call view rhs (some .bool)) rhs.range)
    else if lhs.needsInference && !rhs.needsInference then
      let right ← evaluateWith call view rhs none
      let left ← evaluateWith call view lhs (some right.type)
      orRefuse ((← types).checkOperands op left.type right.type) range
      orRefuseFold ((← types).foldBinary op left right) range
    else
      let left ← evaluateWith call view lhs none
      let right ← evaluateWith call view rhs (some left.type)
      orRefuse ((← types).checkOperands op left.type right.type) range
      orRefuseFold ((← types).foldBinary op left right) range
  | .index range base position, _ => do
    let base ← evaluateWith call view base none
    let position ← evaluateWith call view position (some .usize)
    let i ← require position.asInt? (.mismatch .usize position.type) range
    orRefuse (base.index i) range
  | .member _ base name, _ => do
    let base ← evaluateWith call view base none
    orRefuse ((← types).knownMember base name.text) name.range
  | .call range callee args, _ => do
    let f ← require (← calledFunction? view callee) (.notPrerun .call) range
    checkArgCount f args.length range
    let vs ← evaluateEachWith call view args (f.args.map PrerunArg.type)
    call f vs range
  | .cast range value target, _ => do
    let target ← resolveTypeWith call view target
    let v ← evaluateWith call view value none
    orRefuseFold ((← types).foldCast v target) range
  | .ifElse _ condition thenValue elseValue, expected => do
    if ← asCondition (← evaluateWith call view condition (some .bool)) condition.range then
      evaluateWith call view thenValue expected
    else evaluateWith call view elseValue expected
  | .sizeOf range type, _ => do
    let ty ← resolveTypeWith call view type
    let size ← require ((← types).sizeInBytes? ty) (.sizeOfUnsized ty) range
    return .int .usize size
  | .typeValue _ type, _ => do typeConstant (← resolveTypeWith call view type)
  | .variant _ type name value, _ => do
    let ty ← resolveTypeWith call view type
    let payloadType := (((← types).mixOf? ty).bind (·.variant? name.text)).bind (·.2.payload)
    let payload ← evaluateOptionWith call view value payloadType
    orRefuse ((← types).knownVariant ty name.text payload) name.range
  | .plain range type fields values, _ => do
    let ty ← resolveTypeWith call view type
    unless (← types).canBePrerun ty do refuse (.notPrerun (.valueOf ty)) range
    let order ← fieldOrder view ty fields values.length range
    let fieldTypes := (((← types).structOf? ty).map StructDef.fieldTypes).getD []
    let vs ← evaluateFieldsWith call view range values fieldTypes order
    return ⟨.struct (← require (placed fieldTypes.length vs) .everyField range), ty⟩
  | .todo range message, _ => do
    unfinished message range
    return .void
  | .self range, _ | .selfMember range _, _ | .deref range _, _ | .addressOf range _ _, _
  | .copy range _, _ | .move range _, _ | .methodCall range _ _ _ _, _
  | .construct range _ _, _ | .heapGet range _ _, _ | .heapPut range _, _
  | .heapGrow range _ _ _, _ | .await range _, _ | .assembly range _ _ _ _ _, _ =>
    refuse (.notPrerun .expression) range

/-- Evaluate each expression at the type of the same position, if there is one. -/
def evaluateEachWith (call : Caller) (view : Viewpoint) :
    List Expr → List Ty → Emit (List Constant)
  | [], _ => return []
  | e :: es, hints => do
    let v ← evaluateWith call view e hints.head?
    return v :: (← evaluateEachWith call view es (hints.drop 1))

/-- Evaluate expressions that must all have the type of the first, or the expected
one. -/
def evaluateItemsWith (call : Caller) (view : Viewpoint) :
    List Expr → Option Ty → Emit (Option Ty × List Data)
  | [], element => return (element, [])
  | e :: es, element => do
    let v ← evaluateWith call view e element
    if let some ty := element then
      if ty ≠ v.type then mismatch ty v.type e.range
    let (element, vs) ← evaluateItemsWith call view es (some v.type)
    return (element, v.data :: vs)

def evaluateOptionWith (call : Caller) (view : Viewpoint) :
    Option Expr → Option Ty → Emit (Option Constant)
  | some e, expected => return some (← evaluateWith call view e expected)
  | none, _ => return none

/-- Evaluate the values of fields, each with the position of its field. -/
def evaluateFieldsWith (call : Caller) (view : Viewpoint) (range : Span) :
    List Expr → List Ty → List Nat → Emit (List (Nat × Data))
  | e :: es, fieldTypes, i :: order => do
    let ty := fieldTypes[i]?.getD .void
    let v ← evaluateWith call view e (some ty)
    if v.type ≠ ty then mismatch ty v.type range
    return (i, v.data) :: (← evaluateFieldsWith call view range es fieldTypes order)
  | _, _, _ => return []

end

/-- A minus sign before an integer literal is read with it. -/
theorem evaluateWith_unary (call : Caller) (view : Viewpoint) (range : Span) (op : UnaryOp)
    (operand : Expr) (expected : Option Ty) :
    (∃ r v s, operand = .int r v s ∧ evaluateWith call view (.unary range op operand) expected =
      (do intLiteral v true (← suffixWith call view s) expected range)) ∨
    evaluateWith call view (.unary range op operand) expected = (do
      let v ← evaluateWith call view operand expected
      orRefuseFold ((← types).foldUnary op v) range) := by
  by_cases h : ∃ r v s, op = .negate ∧ operand = .int r v s
  · obtain ⟨r, v, s, rfl, rfl⟩ := h
    exact .inl ⟨r, v, s, rfl, by rw [evaluateWith]⟩
  · refine .inr ?_
    rw [evaluateWith]
    intro r v s hop hoperand
    exact h ⟨r, v, s, hop, hoperand⟩

/-! ## Sentences -/

/-- Run an action in a scope of the running call. -/
def inFrameScope {α : Type} (inside : Emit α) : Emit α :=
  bracket (do setFrame (← frame).push) (do setFrame (← frame).pop) inside

/-- Declare a local of the running call; says whether the name was free. -/
def declareKnown (name : String) (value : Constant) (isVar : Bool) : Emit Bool := do
  match (← frame).declare? name value isVar with
  | some f =>
    setFrame f
    return true
  | none => return false

/-- The local an expression names, to be assigned to. -/
def assignedName (lhs : Expr) : Emit Ident := do
  match lhs with
  | .entity range name => require name.single? (.notPrerun .assigning) range
  | e => refuse (.notPrerun .assigning) e.range

/-- The type of a local of the running call that may be assigned to. -/
def assignedType (name : Ident) : Emit Ty := do
  match (← frame).get? name.text with
  | some v => if v.isVar then return v.value.type else refuse (.knownNotVariable name.text) name.range
  | none => refuse (.notPrerun (.assigningTo name.text)) name.range

def assignKnown (name : Ident) (value : Constant) : Emit Unit := do
  setFrame (← require ((← frame).set? name.text value) (.notPrerun (.assigningTo name.text))
    name.range)

/-- Go on after the body of a loop, or leave it. -/
def afterBody (tag : Option Ident) (flow : Flow) (next : Emit Flow) : Emit Flow :=
  match flow with
  | .normal => next
  | .brk t => if Flow.targets t (tag.map Ident.text) then return .normal else return flow
  | .cont t => if Flow.targets t (tag.map Ident.text) then next else return flow
  | .give _ => return flow

def refuseLoop {α : Type} (range : Span) : Emit α := do
  refuse (.loopLimit (← read).loopLimit) range

/-- Run the body while the condition holds, with that many iterations left. -/
def runWhile (range : Span) (tag : Option Ident) (condition : Emit Bool) (body : Emit Flow) :
    Nat → Emit Flow
  | 0 => refuseLoop range
  | left + 1 => do
    if ← condition then
      let flow ← body
      afterBody tag flow (runWhile range tag condition body left)
    else return .normal

/-- Run the body once for every item, with that many iterations left. -/
def runItems (range : Span) (tag : Option Ident) (item? : Nat → Option Constant)
    (body : Nat → Constant → Emit Flow) (position : Nat) : Nat → Emit Flow
  | 0 => match item? position with
    | none => return .normal
    | some _ => refuseLoop range
  | left + 1 => match item? position with
    | none => return .normal
    | some v => do
      let flow ← body position v
      afterBody tag flow (runItems range tag item? body (position + 1) left)

/-- The values a compile-time loop goes over. -/
def loopItems (c : Constant) (range : Span) : Emit (Array Constant) :=
  match c.data, c.type with
  | .array items, .array element _ => return (items.map (⟨·, element⟩)).toArray
  | .str s, _ => return ((textBytes s).map fun b => Constant.int .u8 b.toNat).toArray
  | _, _ => refuse (.notPrerun .looping) range

/-- Evaluate the value of a local, or take its default. -/
def knownInitial (name : Ident) (declared : Option Ty) (value : Option (Emit Constant))
    (range : Span) : Emit Constant := do
  match value, declared with
  | some v, _ => v
  | none, some ty => orRefuse ((← types).default ty) range
  | none, none => refuse (.knownLocalNeeds name.text) name.range

mutual

def runSentencesWith (call : Caller) (view : Viewpoint) : List Sentence → Emit Flow
  | [] => return .normal
  | s :: rest => do
    match ← runSentenceWith call view s with
    | .normal => runSentencesWith call view rest
    | flow => return flow

def runSentenceWith (call : Caller) (view : Viewpoint) : Sentence → Emit Flow
  | .localVar range name type value isVar isRef => do
    if isRef then refuse (.notPrerun .referenceLocal) range
    let declared ← match type with
      | some ty => some <$> resolveTypeWith call view ty
      | none => pure none
    let v ← knownInitial name declared (value.map (evaluateWith call view · declared)) range
    if let some ty := declared then
      if v.type ≠ ty then mismatch ty v.type range
    unless ← declareKnown name.text v isVar do
      refuse (.duplicateLocal name.text none) name.range
    return .normal
  | .assign _ lhs rhs => do
    let name ← assignedName lhs
    let ty ← assignedType name
    let v ← evaluateWith call view rhs (some ty)
    if v.type ≠ ty then mismatch ty v.type rhs.range
    assignKnown name v
    return .normal
  | .opAssign range op lhs rhs => do
    let name ← assignedName lhs
    let ty ← assignedType name
    let current ← evaluateWith call view lhs none
    let v ← evaluateWith call view rhs (some ty)
    orRefuse ((← types).checkOperands op current.type v.type) range
    let result ← orRefuseFold ((← types).foldBinary op current v) range
    if result.type ≠ ty then mismatch ty result.type range
    assignKnown name result
    return .normal
  | .expr _ e => do
    let _ ← evaluateWith call view e none
    return .normal
  | .cond _ branches otherwise =>
    runBranchesWith call view branches <| match otherwise with
      | some body => inFrameScope (runSentencesWith call view body)
      | none => return .normal
  | .whileDo range condition body tag => do
    runWhile range tag
      (do asCondition (← evaluateWith call view condition (some .bool)) condition.range)
      (inFrameScope (runSentencesWith call view body)) (← read).loopLimit
  | .loop range body tag => do
    runWhile range tag (return true) (inFrameScope (runSentencesWith call view body))
      (← read).loopLimit
  | .times range count index body tag => do
    let count ← evaluateWith call view count (some .usize)
    unless (← types).isIntegral count.type do mismatch .usize count.type range
    let total ← require count.asInt? (.mismatch .usize count.type) range
    let item? (i : Nat) := if (i : Int) < total then some (Constant.int count.type i) else none
    let iteration (_ : Nat) (v : Constant) : Emit Flow := inFrameScope do
      if let some n := index then
        let _ ← declareKnown n.text v false
      inFrameScope (runSentencesWith call view body)
    runItems range tag item? iteration 0 (← read).loopLimit
  | .forIn range iterable item index body tag => do
    let items ← loopItems (← evaluateWith call view iterable none) range
    let iteration (i : Nat) (v : Constant) : Emit Flow := inFrameScope do
      let _ ← declareKnown item.text v false
      if let some n := index then
        let _ ← declareKnown n.text (.int .usize i) false
      inFrameScope (runSentencesWith call view body)
    runItems range tag (items[·]?) iteration 0 (← read).loopLimit
  | .breakLoop _ tag => return .brk (tag.map Ident.text)
  | .continueLoop _ tag => return .cont (tag.map Ident.text)
  | .give _ value => do
    let result := (← frame).result
    match value with
    | some e => return .give (some (← evaluateWith call view e (some result)))
    | none => return .give none
  | .block _ body => inFrameScope (runSentencesWith call view body)
  | .todo range message => do
    unfinished message range
    return .normal

/-- Run the first branch whose condition holds. -/
def runBranchesWith (call : Caller) (view : Viewpoint) : List Branch → Emit Flow → Emit Flow
  | [], otherwise => otherwise
  | .mk condition body :: rest, otherwise => do
    if ← asCondition (← evaluateWith call view condition (some .bool)) condition.range then
      inFrameScope (runSentencesWith call view body)
    else runBranchesWith call view rest otherwise

end

/-! ## Calls -/

/-- The frame of a call, with its arguments as locals. -/
def bindArgs (f : PrerunFunction) (range : Span) (frame : Frame) :
    List PrerunArg → List Constant → Emit Frame
  | p :: params, v :: args => do
    if v.type ≠ p.type then
      refuse (.prerunArgument p.name.text f.fullName p.type v.type) range
    bindArgs f range ((frame.declare? p.name.text v p.isVar).getD frame) params args
  | _, _ => return frame

/-- The result of a call whose body ended in this way. -/
def callResult (f : PrerunFunction) (range : Span) : Flow → Emit Constant
  | .give (some v) => if v.type ≠ f.result then mismatch f.result v.type range else return v
  | .normal | .give none =>
    if f.result = .void then return .void
    else refuse (.prerunNoGive f.fullName f.result) range
  | .brk _ | .cont _ => refuse (.jumpEscaped f.fullName) f.range

/-- Call a compile-time function, with that many nested calls left. -/
def callKnown : Nat → Caller
  | 0 => fun f _ range => do refuse (.callDepth (← read).callDepth f.fullName) range
  | left + 1 => fun f args range => do
    let frame ← bindArgs f range { function := f.fullName, result := f.result } f.args args
    let flow ← bracket (pushFrame frame) popFrame
      (inFrameScope (runSentencesWith (callKnown left) { module := f.module } f.body))
    callResult f range flow

def callPrerun (f : PrerunFunction) (args : List Constant) (range : Span) : Emit Constant := do
  callKnown (← read).callDepth f args range

def resolveType (view : Viewpoint) (ty : TypeExpr) : Emit Ty := do
  resolveTypeWith (callKnown (← read).callDepth) view ty

def resolveType? (view : Viewpoint) (ty : Option TypeExpr) : Emit (Option Ty) :=
  match ty with
  | some ty => some <$> resolveType view ty
  | none => return none

def evaluate (view : Viewpoint) (e : Expr) (expected : Option Ty) : Emit Constant := do
  evaluateWith (callKnown (← read).callDepth) view e expected

def evaluateEach (view : Viewpoint) (es : List Expr) (hints : List Ty) :
    Emit (List Constant) := do
  evaluateEachWith (callKnown (← read).callDepth) view es hints

def evaluateCondition (view : Viewpoint) (e : Expr) : Emit Bool := do
  asCondition (← evaluate view e (some .bool)) e.range

end Staged.Emit
