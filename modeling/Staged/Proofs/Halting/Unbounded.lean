/-
  Staged.Proofs.Halting.Unbounded — evaluation that nothing keeps from running for ever.

  The rules of layouts, traits, defaults and evaluation again, as plain recursion: through
  the parts of definitions however long that takes, through expressions and bodies into
  calls and back, and round and round in loops. A call looks at how many are running and a
  loop counts how often it has run, and no other limit is looked at.

  Each recursion takes how deep it may go and gives `none` where that is not deep enough.
  It ends if from some depth on the result is always the same (`ComesTo`), and runs for ever
  if every depth gives `none`.

  What a failing run has done to the state is not kept, so leaving a scope or a call on a
  failure needs no rule.
-/

import Staged.Known.Evaluate

namespace Staged.Unbounded

/-- The recursion ends, with this result. -/
def ComesTo {α : Type} (a : Nat → Option α) (v : α) : Prop :=
  ∃ enough, ∀ depth, enough ≤ depth → a depth = some v

namespace ComesTo

variable {α β : Type} {a : Nat → Option α} {v : α}

theorem pure (v : α) : ComesTo (fun _ => some v) v := ⟨0, fun _ _ => rfl⟩

theorem later (h : ComesTo (fun depth => a (depth + 1)) v) : ComesTo a v := by
  obtain ⟨enough, h⟩ := h
  refine ⟨enough + 1, fun depth hdepth => ?_⟩
  obtain ⟨depth, rfl⟩ : ∃ n, depth = n + 1 := ⟨depth - 1, by omega⟩
  exact h depth (by omega)

theorem earlier (h : ComesTo a v) : ComesTo (fun depth => a (depth + 1)) v := by
  obtain ⟨enough, h⟩ := h
  exact ⟨enough, fun depth hdepth => h (depth + 1) (by omega)⟩

/-- Two recursions that end are both deep enough from some depth on. -/
theorem both {b c : Nat → Option β} {w : β} (h : ComesTo a v) (hb : ComesTo b w)
    (hc : ∀ depth, a depth = some v → c depth = b depth) : ComesTo c w := by
  obtain ⟨enough, h⟩ := h
  obtain ⟨enough', hb⟩ := hb
  refine ⟨max enough enough', fun depth hdepth => ?_⟩
  rw [hc depth (h depth (by omega)), hb depth (by omega)]

theorem bind {k : Nat → α → Option β} {w : β} (h : ComesTo a v)
    (hk : ComesTo (fun depth => k depth v) w) : ComesTo (fun depth => a depth >>= k depth) w :=
  h.both hk fun depth ha => by rw [ha]; rfl

theorem map (f : α → β) (h : ComesTo a v) : ComesTo (fun depth => do return f (← a depth)) (f v) :=
  h.bind (.pure (f v))

end ComesTo

/-! ## Types -/

def layouts (part : Ty → Option (Option Layout)) : List Ty → Option (Option (List Layout))
  | [] => return some []
  | ty :: tys => do
    match ← part ty with
    | none => return none
    | some l => return (← layouts part tys).map (l :: ·)

def layout (t : TypeTable) : Nat → Ty → Option (Option Layout)
  | 0 => fun _ => none
  | depth + 1 => fun
    | .void | .function .. | .typed _ => return none
    | .int bits | .uint bits => return some (.scalar bits)
    | .float .f80 => return some ⟨16, 16⟩
    | .float kind => return some (.scalar kind.bitwidth)
    | .char => return some (.scalar 32)
    | .bool => return some (.scalar 1)
    | .str => return some t.fatPointerLayout
    | .mark _ _ _ slice _ => return some (if slice then t.fatPointerLayout else t.pointerLayout)
    | .ref .. | .future .. => return some t.pointerLayout
    | .array element length => do
      return (← layout t depth element).map fun e => ⟨Layout.word (e.size * length), e.align⟩
    | .vector element count _ => do
      return (← layout t depth element).map fun e =>
        let size := Layout.nextPowerOfTwo (Layout.word (e.size * count))
        ⟨size, min size 16⟩
    | .tuple members packed => do
      return (← layouts (layout t depth) members).map (Layout.aggregate packed)
    | .struct id => match t.structs[id]? with
      | none => return none
      | some d => match d.fields? with
        | none => return none
        | some fields => do
          let parts ← layouts (layout t depth) (fields.map FieldDef.type)
          return parts.map (Layout.aggregate false)
    | .mix id => match t.mixes[id]? with
      | none => return none
      | some d =>
        if d.variants?.isNone then return none
        else do
          return (← layouts (layout t depth) d.payloads).map fun payloads =>
            Layout.tagged d.packed (.scalar d.tagBits) (Layout.largest payloads)
    | .choice id => match t.choices[id]? with
      | none => return none
      | some d => layout t depth d.underlying
    | .maybe sub => do
      return (← layout t depth sub).map fun s => Layout.aggregate false [.scalar 1, s]
    | .native kind => return some (match kind.repr t.pointerWidth with
      | .signed bits | .unsigned bits => .scalar bits
      | .float kind => .scalar kind.bitwidth
      | .pointer => t.pointerLayout)

def allHaveTrait (part : Ty → Option Bool) : List Ty → Option Bool
  | [] => return true
  | ty :: tys => do if ← part ty then allHaveTrait part tys else return false

def hasTrait (t : TypeTable) (trait : TypeTable.Trait) : Nat → Ty → Option Bool
  | 0 => fun _ => none
  | depth + 1 => fun
    | .array element _ => hasTrait t trait depth element
    | .vector element _ scalable =>
      if trait.scalable || !scalable then hasTrait t trait depth element else return false
    | .tuple members _ => allHaveTrait (hasTrait t trait depth) members
    | .maybe sub => hasTrait t trait depth sub
    | .struct id => match t.structs[id]? with
      | some d =>
        if trait.struct (.struct id) d then allHaveTrait (hasTrait t trait depth) d.fieldTypes
        else return false
      | none => return false
    | .mix id => match t.mixes[id]? with
      | some d => allHaveTrait (hasTrait t trait depth) d.payloads
      | none => return false
    | ty => return trait.leaf ty

def canBePrerun (t : TypeTable) (depth : Nat) (ty : Ty) : Option Bool :=
  hasTrait t t.prerunTrait depth ty

def default (t : TypeTable) : Nat → Ty → ExceptT Fault Option Data
  | 0 => fun _ => ExceptT.mk none
  | depth + 1 => fun
    | .int _ | .uint _ => return .int 0
    | .float _ => return .float .zero
    | .native kind => match kind.repr t.pointerWidth with
      | .signed _ | .unsigned _ => return .int 0
      | .float _ => return .float .zero
      | .pointer => throw (.noDefault (.native kind))
    | .bool => return .bool false
    | .char => return .char (Char.ofNat 0)
    | .str => return .str ""
    | .maybe _ => return .maybe none
    | .mark sub owner nullable slice isVar =>
      if nullable then return .null else throw (.noDefault (.mark sub owner nullable slice isVar))
    | .choice id => match t.choices[id]? with
      | some d => ExceptT.mk (some (TypeTable.defaultChoice d))
      | none => throw (.noDefault (.choice id))
    | .mix id => match t.mixes[id]? with
      | none => throw (.noDefault (.mix id))
      | some d => match d.default with
        | none => throw (.mixNoDefault d.fullName)
        | some i => match (d.variants[i]?).bind MixVariant.payload with
          | none => return .mix i none
          | some payload => do return .mix i (some (← default t depth payload))
    | .tuple members _ => do return .tuple (← members.mapM (default t depth))
    | .array element length => do return .array (List.replicate length (← default t depth element))
    | .struct id => do
      if t.hasMember (.struct id) .defaultConstructor then throw (.noDefault (.struct id))
      else if ← canBePrerun t depth (.struct id) then
        match t.structs[id]? with
        | some d => return .struct (← d.fieldTypes.mapM (default t depth))
        | none => return .struct []
      else throw (.noDefault (.struct id))
    | ty => throw (.noDefault ty)

/-! ## Actions -/

abbrev Run := ReaderT Options (StateT Compiler (ExceptT Failure Option))

/-- The result of an action, without the state in which it failed. -/
def outcome {α : Type} : EStateM.Result Failure Compiler α → Except Failure (α × Compiler)
  | .ok v s => .ok (v, s)
  | .error f _ => .error f

def step {α : Type} (a : Emit α) : Run α := fun o s => some (outcome (a o s))

instance : MonadLift Emit Run := ⟨step⟩

def tooDeep {α : Type} : Run α := fun _ _ => none

/-! ## Expressions and sentences -/

open Emit hiding resolveType evaluate evaluateEach runWhile runItems

def defaultOf (depth : Nat) (ty : Ty) (range : Span) : Run Constant := do
  let result ← (default (← types) depth ty).run
  return ⟨← orRefuse result range, ty⟩

section

variable (resolve : TypeExpr → Run Ty)

def resolveOwner : Owner TypeExpr → Run (Owner Ty)
  | .anonymous => return .anonymous
  | .heap => return .heap
  | .type owner => return .type (← resolve owner)

def resolveTypes : List TypeExpr → Run (List Ty)
  | [] => return []
  | ty :: tys => return (← resolve ty) :: (← resolveTypes tys)

def resolveSuffix : Option TypeExpr → Run (Option (Ty × Span))
  | some ty => return some (← resolve ty, ty.range)
  | none => return none

end

section

variable (value : Expr → Option Ty → Run Constant)

def evaluateEach : List Expr → List Ty → Run (List Constant)
  | [], _ => return []
  | e :: es, hints => do
    let v ← value e hints.head?
    return v :: (← evaluateEach es (hints.drop 1))

def evaluateItems : List Expr → Option Ty → Run (Option Ty × List Data)
  | [], element => return (element, [])
  | e :: es, element => do
    let v ← value e element
    if let some ty := element then
      if ty ≠ v.type then mismatch ty v.type e.range
    let (element, vs) ← evaluateItems es (some v.type)
    return (element, v.data :: vs)

def evaluateOption : Option Expr → Option Ty → Run (Option Constant)
  | some e, expected => return some (← value e expected)
  | none, _ => return none

def evaluateFields (range : Span) : List Expr → List Ty → List Nat → Run (List (Nat × Data))
  | e :: es, fieldTypes, i :: order => do
    let ty := fieldTypes[i]?.getD .void
    let v ← value e (some ty)
    if v.type ≠ ty then mismatch ty v.type range
    return (i, v.data) :: (← evaluateFields range es fieldTypes order)
  | _, _, _ => return []

def initial (default : Ty → Span → Run Constant) (name : Ident) (range : Span) :
    Option Expr → Option Ty → Run Constant
  | some e, declared => value e declared
  | none, some ty => default ty range
  | none, none => refuse (.knownLocalNeeds name.text) name.range

def goesOn : Option Expr → Run Bool
  | some e => do asCondition (← value e (some .bool)) e.range
  | none => return true

end

def enterScope : Emit Unit := do setFrame (← frame).push

def leaveScope : Emit Unit := do setFrame (← frame).pop

def inScope (body : Run Flow) : Run Flow := do
  enterScope
  let flow ← body
  leaveScope
  return flow

def runSentences (run : Sentence → Run Flow) : List Sentence → Run Flow
  | [] => return .normal
  | s :: rest => do
    match ← run s with
    | .normal => runSentences run rest
    | flow => return flow

def runBranches (value : Expr → Option Ty → Run Constant) (run : Sentence → Run Flow) :
    List Branch → Option (List Sentence) → Run Flow
  | [], some body => inScope (runSentences run body)
  | [], none => return .normal
  | .mk condition body :: rest, otherwise => do
    if ← asCondition (← value condition (some .bool)) condition.range then
      inScope (runSentences run body)
    else runBranches value run rest otherwise

/-- How a loop is left after a body that ended in this way; `none` if it is not. -/
def leaves (tag : Option Ident) : Flow → Option Flow
  | .normal => none
  | .brk t => some (if Flow.targets t (tag.map Ident.text) then .normal else .brk t)
  | .cont t => if Flow.targets t (tag.map Ident.text) then none else some (.cont t)
  | .give v => some (.give v)

def runWhile (range : Span) (tag : Option Ident) (goesOn : Run Bool) (body : Run Flow) :
    Nat → Nat → Run Flow
  | 0, _ => tooDeep
  | depth + 1, count => do
    if (← read).loopLimit ≤ count then refuseLoop range
    else
      if ← goesOn then
        let flow ← inScope body
        match leaves tag flow with
        | none => runWhile range tag goesOn body depth (count + 1)
        | some flow => return flow
      else return .normal

/-- One iteration of a loop over items, in the scope of the item and the index. -/
def iteration (item index : Option Ident) (body : Run Flow) (position : Nat) (v : Constant) :
    Run Flow := do
  if let some n := item then
    let _ ← declareKnown n.text v false
  if let some n := index then
    let _ ← declareKnown n.text (if item.isSome then .int .usize position else v) false
  inScope body

def runItems (range : Span) (tag : Option Ident) (item? : Nat → Option Constant)
    (iteration : Nat → Constant → Run Flow) : Nat → Nat → Run Flow
  | 0, _ => tooDeep
  | depth + 1, position => do
    match item? position with
    | none => return .normal
    | some v =>
      if (← read).loopLimit ≤ position then refuseLoop range
      else
        let flow ← inScope (iteration position v)
        match leaves tag flow with
        | none => runItems range tag item? iteration depth (position + 1)
        | some flow => return flow

mutual

def resolveType : Nat → Viewpoint → TypeExpr → Run Ty
  | 0, _ => fun _ => tooDeep
  | depth + 1, view => fun
    | .int _ bits => intern (.int bits)
    | .uint _ bits => intern (.uint bits)
    | .float _ kind => intern (.float kind)
    | .bool _ => return .bool
    | .char _ => return .char
    | .void _ => return .void
    | .str _ => return .str
    | .native _ kind => intern (.native kind)
    | .named _ name => namedType view name
    | .mark _ sub owner nullable slice isVar => do
      let sub ← resolveType depth view sub
      let owner ← resolveOwner (resolveType depth view) owner
      intern (.mark sub owner nullable slice isVar)
    | .ref range sub isVar => do
      let sub ← resolveType depth view sub
      if sub.isRef || sub == .void then refuse (.referenceTo sub) range
      intern (.ref sub isVar)
    | .array _ element length => do
      let element ← resolveType depth view element
      let value ← evaluate depth view length (some .usize)
      match value.asInt? with
      | some l =>
        if (← types).isIntegral value.type ∧ 0 ≤ l ∧ l < Int.pow 2 64 then
          intern (.array element l.toNat)
        else refuse .arrayLength length.range
      | none => refuse .arrayLength length.range
    | .vector range element count scalable => do
      let element ← resolveType depth view element
      unless (← types).isNumeric element || element == .bool do
        refuse (.vectorElement element) range
      intern (.vector element count scalable)
    | .tuple _ members packed => do
      intern (.tuple (← resolveTypes (resolveType depth view) members) packed)
    | .function _ result args variadic => do
      let result ← resolveType depth view result
      let args ← resolveTypes (resolveType depth view) args
      intern (.function result args variadic)
    | .future _ sub packed => do intern (.future (← resolveType depth view sub) packed)
    | .maybe _ sub => do intern (.maybe (← resolveType depth view sub))
    | .typed _ sub => do intern (.typed (← resolveType depth view sub))

def evaluate : Nat → Viewpoint → Expr → Option Ty → Run Constant
  | 0, _ => fun _ _ => tooDeep
  | depth + 1, view => fun
    | .int range value suffix, expected => do
      intLiteral value false (← resolveSuffix (resolveType depth view) suffix) expected range
    | .float range value suffix, expected => do
      floatLiteral value (← resolveSuffix (resolveType depth view) suffix) expected range
    | .bool _ value, _ => return .bool value
    | .char _ value, _ => return ⟨.char value, .char⟩
    | .str _ value, _ => return ⟨.str value, .str⟩
    | .null range, expected => do
      return ⟨.null, ← require (expected.filter Ty.isMark) .nullUninferred range⟩
    | .default range, expected => do
      let ty ← require expected .defaultUninferred range
      defaultOf depth ty range
    | .none range, expected => do
      return ⟨.maybe none, ← require (expected.filter (·.maybe?.isSome)) .noneUninferred range⟩
    | .some _ inner, expected => do
      let v ← evaluate depth view inner (expected.bind Ty.maybe?)
      return ⟨.maybe (some v.data), ← intern (.maybe v.type)⟩
    | .tuple _ items, expected => do
      let hints := match expected with
        | some (.tuple members _) => members
        | _ => []
      let vs ← evaluateEach (evaluate depth view) items hints
      return ⟨.tuple (vs.map Constant.data), ← intern (.tuple (vs.map Constant.type) false)⟩
    | .array range items, expected => do
      let (element, vs) ← evaluateItems (evaluate depth view) items (expected.bind Ty.element?)
      let element ← require element .emptyArray range
      return ⟨.array vs, ← intern (.array element vs.length)⟩
    | .entity _ name, expected => namedConstant view name expected
    | .unary range .negate (.int _ value suffix), expected => do
      intLiteral value true (← resolveSuffix (resolveType depth view) suffix) expected range
    | .unary range op operand, expected => do
      let v ← evaluate depth view operand expected
      orRefuseFold ((← types).foldUnary op v) range
    | .binary range op lhs rhs, _ => do
      if op.isLogical then
        let left ← asCondition (← evaluate depth view lhs (some .bool)) lhs.range
        if left == (op == .or) then return .bool left
        return .bool (← asCondition (← evaluate depth view rhs (some .bool)) rhs.range)
      else if lhs.needsInference && !rhs.needsInference then
        let right ← evaluate depth view rhs none
        let left ← evaluate depth view lhs (some right.type)
        orRefuse ((← types).checkOperands op left.type right.type) range
        orRefuseFold ((← types).foldBinary op left right) range
      else
        let left ← evaluate depth view lhs none
        let right ← evaluate depth view rhs (some left.type)
        orRefuse ((← types).checkOperands op left.type right.type) range
        orRefuseFold ((← types).foldBinary op left right) range
    | .index range base position, _ => do
      let base ← evaluate depth view base none
      let position ← evaluate depth view position (some .usize)
      let i ← require position.asInt? (.mismatch .usize position.type) range
      orRefuse (base.index i) range
    | .member _ base name, _ => do
      let base ← evaluate depth view base none
      orRefuse ((← types).knownMember base name.text) name.range
    | .call range callee args, _ => do
      let f ← require (← calledFunction? view callee) (.notPrerun .call) range
      checkArgCount f args.length range
      let vs ← evaluateEach (evaluate depth view) args (f.args.map PrerunArg.type)
      call depth f vs range
    | .cast range value target, _ => do
      let target ← resolveType depth view target
      let v ← evaluate depth view value none
      orRefuseFold ((← types).foldCast v target) range
    | .ifElse _ condition thenValue elseValue, expected => do
      if ← asCondition (← evaluate depth view condition (some .bool)) condition.range then
        evaluate depth view thenValue expected
      else evaluate depth view elseValue expected
    | .sizeOf range type, _ => do
      let ty ← resolveType depth view type
      let size ← require ((← layout (← types) depth ty).map Layout.size) (.sizeOfUnsized ty) range
      return .int .usize size
    | .typeValue _ type, _ => do typeConstant (← resolveType depth view type)
    | .variant _ type name value, _ => do
      let ty ← resolveType depth view type
      let payloadType := (((← types).mixOf? ty).bind (·.variant? name.text)).bind (·.2.payload)
      let payload ← evaluateOption (evaluate depth view) value payloadType
      orRefuse ((← types).knownVariant ty name.text payload) name.range
    | .plain range type fields values, _ => do
      let ty ← resolveType depth view type
      unless ← canBePrerun (← types) depth ty do refuse (.notPrerun (.valueOf ty)) range
      let order ← fieldOrder view ty fields values.length range
      let fieldTypes := (((← types).structOf? ty).map StructDef.fieldTypes).getD []
      let vs ← evaluateFields (evaluate depth view) range values fieldTypes order
      return ⟨.struct (← require (placed fieldTypes.length vs) .everyField range), ty⟩
    | .todo range message, _ => do
      unfinished message range
      return .void
    | .self range, _ | .selfMember range _, _ | .deref range _, _ | .addressOf range _ _, _
    | .copy range _, _ | .move range _, _ | .methodCall range _ _ _ _, _
    | .construct range _ _, _ | .heapGet range _ _, _ | .heapPut range _, _
    | .heapGrow range _ _ _, _ | .await range _, _ | .assembly range _ _ _ _ _, _ =>
      refuse (.notPrerun .expression) range

def runSentence : Nat → Viewpoint → Sentence → Run Flow
  | 0, _ => fun _ => tooDeep
  | depth + 1, view => fun
    | .localVar range name type value isVar isRef => do
      if isRef then refuse (.notPrerun .referenceLocal) range
      let declared ← match type with
        | some ty => some <$> resolveType depth view ty
        | none => pure none
      let v ← initial (evaluate depth view) (defaultOf depth) name range value declared
      if let some ty := declared then
        if v.type ≠ ty then mismatch ty v.type range
      unless ← declareKnown name.text v isVar do
        refuse (.duplicateLocal name.text none) name.range
      return .normal
    | .assign _ lhs rhs => do
      let name ← assignedName lhs
      let ty ← assignedType name
      let v ← evaluate depth view rhs (some ty)
      if v.type ≠ ty then mismatch ty v.type rhs.range
      assignKnown name v
      return .normal
    | .opAssign range op lhs rhs => do
      let name ← assignedName lhs
      let ty ← assignedType name
      let current ← evaluate depth view lhs none
      let v ← evaluate depth view rhs (some ty)
      orRefuse ((← types).checkOperands op current.type v.type) range
      let result ← orRefuseFold ((← types).foldBinary op current v) range
      if result.type ≠ ty then mismatch ty result.type range
      assignKnown name result
      return .normal
    | .expr _ e => do
      let _ ← evaluate depth view e none
      return .normal
    | .cond _ branches otherwise =>
      runBranches (evaluate depth view) (runSentence depth view) branches otherwise
    | .whileDo range condition body tag =>
      runWhile range tag (goesOn (evaluate depth view) (some condition))
        (runSentences (runSentence depth view) body) depth 0
    | .loop range body tag =>
      runWhile range tag (goesOn (evaluate depth view) none)
        (runSentences (runSentence depth view) body) depth 0
    | .times range count index body tag => do
      let count ← evaluate depth view count (some .usize)
      unless (← types).isIntegral count.type do mismatch .usize count.type range
      let total ← require count.asInt? (.mismatch .usize count.type) range
      let item? (i : Nat) := if (i : Int) < total then some (Constant.int count.type i) else none
      runItems range tag item? (iteration none index (runSentences (runSentence depth view) body))
        depth 0
    | .forIn range iterable item index body tag => do
      let items ← loopItems (← evaluate depth view iterable none) range
      runItems range tag (items[·]?)
        (iteration (some item) index (runSentences (runSentence depth view) body)) depth 0
    | .breakLoop _ tag => return .brk (tag.map Ident.text)
    | .continueLoop _ tag => return .cont (tag.map Ident.text)
    | .give _ value => do
      let result := (← frame).result
      match value with
      | some e => return .give (some (← evaluate depth view e (some result)))
      | none => return .give none
    | .block _ body => inScope (runSentences (runSentence depth view) body)
    | .todo range message => do
      unfinished message range
      return .normal

def call : Nat → PrerunFunction → List Constant → Span → Run Constant
  | 0, _, _, _ => tooDeep
  | depth + 1, f, args, range => do
    if (← read).callDepth ≤ (← get).frames.length then
      refuse (.callDepth (← read).callDepth f.fullName) range
    else
      let frame ← bindArgs f range { function := f.fullName, result := f.result } f.args args
      pushFrame frame
      let flow ← inScope (runSentences (runSentence depth { module := f.module }) f.body)
      popFrame
      callResult f range flow

end

end Staged.Unbounded
