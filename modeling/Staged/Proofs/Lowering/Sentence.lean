/-
  Staged.Proofs.Lowering.Sentence — lowering bodies, once everything is ready.

  Assignments, locals, loops and branches keep an open setting if their parts do, and so
  by induction on the syntax does a body.
-/

import Staged.Emit.Sentence
import Staged.Proofs.Lowering.Expr

open Std.Do

set_option mvcgen.warning false

namespace Staged.Emit

variable {w : TypeSetting}

/-! ## Assignments -/

@[spec] theorem keeps_assignedPlace {lhs : Operand} (hl : w.Lowers lhs) :
    w.Keeps (assignedPlace lhs) := by
  mvcgen [assignedPlace] <;> simp_all

@[spec] theorem keeps_lowerAssign {lhs rhs : Operand} (range : Span) (hl : w.Lowers lhs)
    (hr : w.Lowers rhs) : w.Keeps (lowerAssign lhs rhs range) := by
  mvcgen [lowerAssign]
  simp_all

@[spec] theorem keeps_assignByMember (op : BinaryOp) (p : Value) (members : List MemberFunction)
    {rhs : Operand} (range : Span) (hr : w.Lowers rhs) :
    w.Keeps (assignByMember op p members rhs range) := by
  mvcgen [assignByMember]
  simp_all

@[spec] theorem keeps_lowerOpAssign (op : BinaryOp) {lhs rhs : Operand} (range : Span)
    (hl : w.Lowers lhs) (hr : w.Lowers rhs) : w.Keeps (lowerOpAssign op lhs rhs range) := by
  mvcgen [lowerOpAssign] <;> simp_all

/-! ## Locals -/

@[spec] theorem keeps_checkLocalType (name : Ident) (ty : Ty) (range : Span) :
    w.Keeps (checkLocalType name ty range) := by
  mvcgen [checkLocalType]
  simp_all

@[spec] theorem keeps_storeInitial (slot : Ir.Register) (v : Value) (ty : Ty) (range : Span) :
    w.Keeps (storeInitial slot v ty range) := by
  mvcgen [storeInitial]

@[spec] theorem keeps_typedLocal (name : Ident) (ty : Ty) {value : Operand} (isVar : Bool)
    (range : Span) (hv : w.Lowers value) : w.Keeps (typedLocal name ty value isVar range) := by
  mvcgen [typedLocal]
  simp_all

@[spec] theorem keeps_inferredLocal (name : Ident) {value : Operand} (isVar : Bool)
    (range : Span) (hv : w.Lowers value) : w.Keeps (inferredLocal name value isVar range) := by
  mvcgen [inferredLocal]

@[spec] theorem keeps_warnEmpty (name : Ident) (ty : Ty) : w.Keeps (warnEmpty name ty) := by
  mvcgen [warnEmpty]

@[spec] theorem keeps_defaultLocal (view : Viewpoint) (name : Ident) (ty : Ty) (isVar : Bool)
    (range : Span) : w.Keeps (defaultLocal view name ty isVar range) := by
  mvcgen [defaultLocal]

@[spec] theorem keeps_referenceLocal (name : Ident) (declared : Option Ty)
    {value : Option Operand} (isVar : Bool) (range : Span)
    (hv : ∀ o, value = some o → w.Lowers o) :
    w.Keeps (referenceLocal name declared value isVar range) := by
  mvcgen [referenceLocal] <;> simp_all

@[spec] theorem keeps_lowerLocal (view : Viewpoint) (name : Ident) (type : Option TypeExpr)
    {value : Option Operand} (isVar isRef : Bool) (range : Span) (hw : w.Open)
    (hv : ∀ o, value = some o → w.Lowers o) :
    w.Keeps (lowerLocal view name type value isVar isRef range) := by
  mvcgen [lowerLocal, keeps_resolveTypeOption_open] <;> simp_all

/-! ## Loops -/

@[spec] theorem keeps_enterLoop (tag : Option Ident) (breakTo continueTo : Ir.BlockId) :
    w.Keeps (enterLoop tag breakTo continueTo) := by
  mvcgen [enterLoop]
  simp_all

@[spec] theorem keeps_exitLoop : w.Keeps exitLoop := by
  mvcgen [exitLoop]

@[spec] theorem keeps_declareLocals : ∀ vs : List LocalVar, w.Keeps (declareLocals vs)
  | [] => by mvcgen [declareLocals]
  | v :: vs => by
    have hrest := keeps_declareLocals vs
    mvcgen [declareLocals, hrest]

@[spec] theorem keeps_loopBody (tag : Option Ident) (breakTo continueTo : Ir.BlockId)
    (locals : List LocalVar) {body : Emit Unit} (hb : w.Keeps body) :
    w.Keeps (loopBody tag breakTo continueTo locals body) := by
  have hinside : w.Keeps (inScope do declareLocals locals; body) :=
    keeps_inScope (by mvcgen [hb])
  mvcgen [loopBody, hinside]

@[spec] theorem keeps_lowerWhile {condition : Operand} {body : Emit Unit} (tag : Option Ident)
    (hc : w.Lowers condition) (hb : w.Keeps body) :
    w.Keeps (lowerWhile condition body tag) := by
  have hbody (breakTo continueTo : Ir.BlockId) := keeps_loopBody tag breakTo continueTo [] hb
  mvcgen [lowerWhile, hbody]

@[spec] theorem keeps_lowerLoop {body : Emit Unit} (tag : Option Ident) (hb : w.Keeps body) :
    w.Keeps (lowerLoop body tag) := by
  have hbody (breakTo continueTo : Ir.BlockId) := keeps_loopBody tag breakTo continueTo [] hb
  mvcgen [lowerLoop, hbody]

theorem keeps_countedLoop (type : Ty) (index : Option Ident) {body : Emit Unit}
    (tag : Option Ident) {holds : Ir.Value → Emit Ir.Register}
    {locals : Ir.Value → Emit (List LocalVar)} (hb : w.Keeps body)
    (hh : ∀ c, w.Keeps (holds c)) (hl : ∀ c, w.Keeps (locals c)) :
    w.Keeps (countedLoop type index body tag holds locals) := by
  have hbody (breakTo continueTo : Ir.BlockId) (vs : List LocalVar) :=
    keeps_loopBody tag breakTo continueTo vs hb
  mvcgen [countedLoop, hbody, hh, hl]

@[spec] theorem keeps_lowerTimes {count : Operand} (index : Option Ident) {body : Emit Unit}
    (tag : Option Ident) (hc : w.Lowers count) (hb : w.Keeps body) :
    w.Keeps (lowerTimes count index body tag) := by
  have hloop (type : Ty) (pred : Ir.Pred) (total : Ir.Value) :=
    keeps_countedLoop type index tag hb (fun c => keeps_compute .bool (.compare · pred c total))
      fun _ => (by mvcgen : w.Keeps (return []))
  mvcgen [lowerTimes, hloop]
  simp_all

@[spec] theorem keeps_storedSequence (v : Value) (element : Ty) (length : Nat) :
    w.Keeps (storedSequence v element length) := by
  mvcgen [storedSequence]

@[spec] theorem keeps_sequenceOf (v : Value) (range : Span) : w.Keeps (sequenceOf v range) := by
  mvcgen [sequenceOf] <;> simp_all

@[spec] theorem keeps_hasElement (s : Sequence) (counter : Ir.Value) :
    w.Keeps (hasElement s counter) := by
  mvcgen [hasElement]

@[spec] theorem keeps_lowerForIn {iterable : Operand} (item : Ident) (index : Option Ident)
    {body : Emit Unit} (tag : Option Ident) (hi : w.Lowers iterable) (hb : w.Keeps body) :
    w.Keeps (lowerForIn iterable item index body tag) := by
  mvcgen [lowerForIn, keeps_countedLoop]

theorem keeps_lowerJump (tag : Option Ident) (word : String)
    (target : LoopTargets → Ir.BlockId) (range : Span) (hs : ∀ e, w.strays e) :
    w.Keeps (lowerJump tag word target range) := by
  unfold lowerJump
  refine Triple.bind _ _ keeps_function fun f => ?_
  split
  · exact keeps_jump _
  · exact (fails_stray rfl (hs _)).keeps
  · exact (fails_stray rfl (hs _)).keeps

/-! ## Bodies -/

@[spec] theorem keeps_lowerGive {value : Option Operand} (range : Span)
    (hv : ∀ o, value = some o → w.Lowers o) : w.Keeps (lowerGive value range) := by
  mvcgen [lowerGive] <;> simp_all

theorem keeps_lowerBranch {condition : Operand} {body : Emit Unit} (endBlock : Ir.BlockId)
    {rest : Emit Unit} (hc : w.Lowers condition) (hb : w.Keeps body) (hr : w.Keeps rest) :
    w.Keeps (lowerBranch condition body endBlock rest) := by
  have hbody := keeps_inScope hb
  mvcgen [lowerBranch, hbody, hr]

theorem lowers_map (hw : w.Open) (view : Viewpoint) (e : Option Expr) (o : Operand)
    (ho : e.map (operand view) = some o) : w.Lowers o := by
  obtain ⟨e, -, rfl⟩ := Option.map_eq_some_iff.mp ho
  exact lowers_operand hw view e

mutual

theorem keeps_lowerSentences (hw : w.Open) (hs : ∀ e, w.strays e) (view : Viewpoint) :
    ∀ ss : List Sentence, w.Keeps (lowerSentences view ss)
  | [] => by mvcgen [lowerSentences]
  | s :: ss => by
    have hfirst := keeps_lowerSentence hw hs view s
    have hrest := keeps_lowerSentences hw hs view ss
    mvcgen [lowerSentences, hfirst, hrest]

theorem keeps_lowerSentence (hw : w.Open) (hs : ∀ e, w.strays e) (view : Viewpoint) :
    ∀ s : Sentence, w.Keeps (lowerSentence view s)
  | .localVar _ name type value isVar isRef => by
    unfold lowerSentence
    exact keeps_lowerLocal view name type isVar isRef _ hw (lowers_map hw view value)
  | .assign _ lhs rhs => by
    unfold lowerSentence
    exact keeps_lowerAssign _ (lowers_operand hw view lhs) (lowers_operand hw view rhs)
  | .opAssign _ op lhs rhs => by
    unfold lowerSentence
    exact keeps_lowerOpAssign op _ (lowers_operand hw view lhs) (lowers_operand hw view rhs)
  | .expr _ e => by
    have he := keeps_lowerExpr hw view e
    mvcgen [lowerSentence, he]
  | .cond _ branches none => by
    unfold lowerSentence
    refine Triple.bind _ _ (keeps_newBlock _) fun endBlock => ?_
    refine keeps_lowerBranches hw hs view endBlock branches ?_
    mvcgen
  | .cond _ branches (some body) => by
    have hbody := keeps_inScope (keeps_lowerSentences hw hs view body)
    unfold lowerSentence
    refine Triple.bind _ _ (keeps_newBlock _) fun endBlock => ?_
    refine keeps_lowerBranches hw hs view endBlock branches ?_
    mvcgen [hbody]
  | .whileDo _ condition body tag => by
    unfold lowerSentence
    exact keeps_lowerWhile tag (lowers_operand hw view condition)
      (keeps_lowerSentences hw hs view body)
  | .times _ count index body tag => by
    unfold lowerSentence
    exact keeps_lowerTimes index tag (lowers_operand hw view count)
      (keeps_lowerSentences hw hs view body)
  | .loop _ body tag => by
    unfold lowerSentence
    exact keeps_lowerLoop tag (keeps_lowerSentences hw hs view body)
  | .forIn _ iterable item index body tag => by
    unfold lowerSentence
    exact keeps_lowerForIn item index tag (lowers_operand hw view iterable)
      (keeps_lowerSentences hw hs view body)
  | .breakLoop .. | .continueLoop .. => by
    unfold lowerSentence
    exact keeps_lowerJump _ _ _ _ hs
  | .give _ value => by
    unfold lowerSentence
    exact keeps_lowerGive _ (lowers_map hw view value)
  | .block _ body => by
    unfold lowerSentence
    exact keeps_inScope (keeps_lowerSentences hw hs view body)
  | .todo .. => by
    unfold lowerSentence
    exact keeps_unfinished _ _

theorem keeps_lowerBranches (hw : w.Open) (hs : ∀ e, w.strays e) (view : Viewpoint) (endBlock : Ir.BlockId)
    {otherwise : Emit Unit} :
    ∀ bs : List Branch, w.Keeps otherwise → w.Keeps (lowerBranches view endBlock bs otherwise)
  | [], ho => by
    unfold lowerBranches
    exact ho
  | .mk condition body :: bs, ho => by
    unfold lowerBranches
    exact keeps_lowerBranch endBlock (lowers_operand hw view condition)
      (keeps_lowerSentences hw hs view body) (keeps_lowerBranches hw hs view endBlock bs ho)

end

end Staged.Emit
