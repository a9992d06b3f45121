/-
  Staged.Proofs.Phis.Sentence — bodies of functions.

  Most sentences draw on. Jumps, `give` and blocks may leave the current block closed, and
  what follows them is dropped. A jump goes to where a loop around it goes on; only such
  blocks get predecessors that the construct that made them does not know of, and they have
  no phis.

  A body begins with one open block and no jump. Parameters are stored in line, and the
  sentences follow. At the end the blocks that are still open get an end without a jump. So
  phis are exact where a function is complete if they are where its last sentence is lowered.
-/

import Staged.Declare.Member
import Staged.Proofs.Code.Body
import Staged.Proofs.Lowering.Sentence
import Staged.Proofs.Phis.Expr

open Std.Do

set_option mvcgen.warning false

namespace Staged

open Ir (BlockId)

namespace FunctionState

variable {b f : FunctionState}

theorem Passes.scopes (h : b.Passes f) (scopes : List (List LocalVar)) :
    b.Passes { f with scopes } := by
  refine ⟨h.loops, fun he ho => ?_⟩
  have hf := h.flows he ho
  have ha : f.Alike { f with scopes } := .of_outline rfl
  exact hf.alike ha hf.exact.current hf.current fun j hj => ha.target (hf.exact.goals j hj)

end FunctionState

namespace Emit

variable {b : FunctionState} {loops : List LoopTargets} {made blank : List BlockId}
  {live : Bool} {P : FunctionState → Prop} {a body : Emit Unit}

def Passes (a : Emit Unit) : Prop := ∀ b, Takes (· = b) a fun _ f => b.Passes f

/-! ## Assignments -/

@[spec high] theorem draws_assignedPlace {lhs : Operand} (hl : lhs.Draws) :
    Draws b (assignedPlace lhs) := by
  unfold assignedPlace
  mvcgen

theorem draws_lowerAssign {lhs rhs : Operand} (range : Span) (hl : lhs.Draws)
    (hr : rhs.Draws) : Draws b (lowerAssign lhs rhs range) := by
  unfold lowerAssign
  mvcgen

@[spec high] theorem draws_assignByMember (op : BinaryOp) (p : Value)
    (members : List MemberFunction) {rhs : Operand} (range : Span) (hr : rhs.Draws) :
    Draws b (assignByMember op p members rhs range) := by
  unfold assignByMember
  mvcgen

theorem draws_lowerOpAssign (op : BinaryOp) {lhs rhs : Operand} (range : Span)
    (hl : lhs.Draws) (hr : rhs.Draws) : Draws b (lowerOpAssign op lhs rhs range) := by
  unfold lowerOpAssign
  mvcgen
  simp_all

/-! ## Locals -/

@[spec high] theorem draws_checkLocalType (name : Ident) (ty : Ty) (range : Span) :
    Draws b (checkLocalType name ty range) := by
  unfold checkLocalType
  mvcgen

@[spec high] theorem draws_storeInitial (slot : Ir.Register) (v : Value) (ty : Ty)
    (range : Span) : Draws b (storeInitial slot v ty range) := by
  unfold storeInitial
  mvcgen

@[spec high] theorem draws_typedLocal (name : Ident) (ty : Ty) {value : Operand} (isVar : Bool)
    (range : Span) (hv : value.Draws) : Draws b (typedLocal name ty value isVar range) := by
  unfold typedLocal
  mvcgen

@[spec high] theorem draws_inferredLocal (name : Ident) {value : Operand} (isVar : Bool)
    (range : Span) (hv : value.Draws) : Draws b (inferredLocal name value isVar range) := by
  unfold inferredLocal
  mvcgen

@[spec high] theorem draws_warnEmpty (name : Ident) (ty : Ty) : Draws b (warnEmpty name ty) := by
  unfold warnEmpty
  mvcgen

@[spec high] theorem draws_defaultLocal (view : Viewpoint) (name : Ident) (ty : Ty)
    (isVar : Bool) (range : Span) : Draws b (defaultLocal view name ty isVar range) := by
  unfold defaultLocal
  mvcgen

@[spec high] theorem draws_referenceLocal (name : Ident) (declared : Option Ty)
    {value : Option Operand} (isVar : Bool) (range : Span)
    (hv : ∀ o, value = some o → o.Draws) :
    Draws b (referenceLocal name declared value isVar range) := by
  unfold referenceLocal
  refine draws_required fun o ho => ?_
  have hlower := hv o ho
  mvcgen

theorem draws_lowerLocal (view : Viewpoint) (name : Ident) (type : Option TypeExpr)
    {value : Option Operand} (isVar isRef : Bool) (range : Span)
    (hv : ∀ o, value = some o → o.Draws) :
    Draws b (lowerLocal view name type value isVar isRef range) := by
  unfold lowerLocal
  refine Triple.bind _ _ (draws_resolveTypeOption view type) fun declared => ?_
  dsimp only
  split
  · exact Triple.bind _ _ (draws_referenceLocal name declared isVar range hv)
      fun v => draws_declareLocal v
  · cases declared with
    | none =>
      cases value with
      | none => mvcgen
      | some o =>
        have ho := hv o rfl
        mvcgen
    | some ty =>
      cases value with
      | none => mvcgen
      | some o =>
        have ho := hv o rfl
        mvcgen

/-! ## Loops -/

/-- What the body of a construct does to the account of its blocks. -/
theorem takes_body (h : Passes a) :
    Takes (b.Midst loops made blank true) a fun _ => b.Midst loops made blank false := by
  intro o s v s' f hf hm hr
  obtain ⟨g, hg, hp⟩ := h f o s v s' f hf rfl hr
  refine ⟨g, hg, hp.loops.trans hm.around, fun he ho => ?_, nofun⟩
  have hl := hm.lays he ho
  exact hl.flow (hp.flows hl.flows.exact (hm.isOpen he ho rfl)) hp.loops

theorem passes_of_takes (h : ∀ b : FunctionState, Takes (b.Midst b.loops [] [] true) a
    fun _ f => b.Passes f) : Passes a := by
  rintro b o s v s' f hf rfl hr
  exact h f o s v s' f hf f.midst_start hr

theorem Draws.passes (h : ∀ b, Draws b a) : Passes a :=
  fun _ => (takes_of_draws h).mono (fun _ hf => hf) fun _ _ hd => hd.passes

/-- What is drawn before a sentence belongs to it. -/
theorem Passes.after {α : Type} {a : Emit α} (ha : ∀ b, Draws b a) {k : α → Emit Unit}
    (hk : ∀ v, Passes (k v)) :
    Passes (a >>= k) := by
  refine fun b => (takes_of_draws ha).bind fun v => ?_
  intro o s u s' f hf hd hr
  obtain ⟨g, hg, hp⟩ := hk v f o s u s' f hf rfl hr
  exact ⟨g, hg, hd.then hp⟩

theorem Passes.guard {c : Prop} [Decidable c] {fault : Fault} {range : Span} {k : Unit → Emit Unit}
    {rest : Emit Unit} (h : Passes rest) : Passes (if c then refuse fault range >>= k else rest) :=
  fun b => Takes.guard (h b)

theorem passes_inScope (h : Passes a) : Passes (inScope a) := by
  refine .after (fun _ => draws_pushScope) fun _ b => (h b).bind fun _ => ?_
  intro o s v s' f hf hp hr
  unfold popScope at hr
  rw [bind_apply, function_apply hf] at hr
  cases hr
  exact ⟨_, rfl, hp.scopes _⟩

theorem takes_function : Takes P function fun v f => P f ∧ f = v := by
  intro o s v s' f hf hp hr
  rw [function_apply hf] at hr
  cases hr
  exact ⟨_, hf, hp, rfl⟩

theorem takes_withLoops {f : FunctionState} (change : List LoopTargets → List LoopTargets)
    (h : ∀ l ∈ change loops, l ∈ loops ∨ l.breakTo ∈ made ∧ l.continueTo ∈ made) :
    Takes (fun g => b.Midst loops made blank live g ∧ g = f)
      (setFunction (f.withLoops (change f.loops)))
      fun _ => b.Midst (change loops) made blank live := by
  rintro o s v s' g hg ⟨hm, heq⟩ hr
  subst heq
  cases hr
  have haround : change g.loops = change loops := congrArg change hm.around
  refine ⟨_, rfl, haround, fun he ho => ?_, hm.isOpen⟩
  rw [haround]
  exact (hm.lays he ho).withLoops (hm.around ▸ h)

theorem takes_enterLoop (tag : Option Ident) {breakTo continueTo : BlockId}
    (hb : breakTo ∈ made) (hc : continueTo ∈ made) :
    Takes (b.Midst loops made blank live) (enterLoop tag breakTo continueTo)
      fun _ => b.Midst (⟨breakTo, continueTo, tag⟩ :: loops) made blank live := by
  refine takes_function.bind fun f => ?_
  have hset : Takes (fun g => b.Midst loops made blank live g ∧ g = f)
      (setFunction (f.withLoops (⟨breakTo, continueTo, tag⟩ :: f.loops)))
      fun _ => b.Midst (⟨breakTo, continueTo, tag⟩ :: loops) made blank live :=
    takes_withLoops (⟨breakTo, continueTo, tag⟩ :: ·) fun l hl => by
      rcases List.mem_cons.mp hl with rfl | hl
      · exact .inr ⟨hb, hc⟩
      · exact .inl hl
  cases tag with
  | none => exact hset
  | some t =>
    dsimp only
    split
    · exact (takes_refuse (Q := fun _ _ => False) _ _).bind fun _ _ _ _ _ _ _ h => h.elim
    · exact hset

theorem takes_exitLoop {l : LoopTargets} :
    Takes (b.Midst (l :: loops) made blank live) exitLoop
      fun _ => b.Midst loops made blank live :=
  takes_function.bind fun _ => takes_withLoops (List.drop 1)
    fun _ hl => .inl (List.mem_cons_of_mem _ hl)

@[spec high] theorem draws_declareLocals : ∀ vs : List LocalVar, Draws b (declareLocals vs)
  | [] => by
    unfold declareLocals
    mvcgen
  | v :: vs => by
    have hrest := draws_declareLocals vs
    unfold declareLocals
    mvcgen [-keeps_declareLocals, hrest]

theorem takes_loopBody (tag : Option Ident) {breakTo continueTo : BlockId}
    (locals : List LocalVar) (hb : breakTo ∈ made) (hc : continueTo ∈ made) (h : Passes body) :
    Takes (b.Midst loops made blank true) (loopBody tag breakTo continueTo locals body)
      fun _ => b.Midst loops made blank false := by
  refine (takes_enterLoop tag hb hc).bind fun _ => ?_
  refine (takes_body (passes_inScope ?_)).bind fun _ => takes_exitLoop
  exact .after (fun _ => draws_declareLocals locals) fun _ => h

theorem draws_lowerWhile {condition : Operand} (tag : Option Ident) (hc : condition.Draws)
    (h : Passes body) : Draws b (lowerWhile condition body tag) := by
  refine draws_of_takes fun b => ?_
  refine (takes_newBlock "while.cond" [] []).bind fun condBlock => ?_
  refine (takes_newBlock _ [condBlock] []).bind fun bodyBlock => ?_
  refine (takes_newBlock _ [condBlock, bodyBlock] []).bind fun endBlock => ?_
  refine (takes_jump (by simp)).bind fun _ => takes_switchTo.bind fun _ => ?_
  refine (takes_line fun _ => draws_condition hc).bind fun cond => ?_
  refine (takes_branch _ (by simp) (by simp)).bind fun _ => takes_switchTo.bind fun _ => ?_
  refine (takes_loopBody tag [] (by simp) (by simp) h).bind fun _ => ?_
  refine (takes_jump (by simp)).bind fun _ => ?_
  exact takes_switchTo.mono (fun _ hm => hm) fun _ _ hm => hm.draws

theorem draws_lowerLoop (tag : Option Ident) (h : Passes body) : Draws b (lowerLoop body tag) := by
  refine draws_of_takes fun b => ?_
  refine (takes_newBlock "loop.body" [] []).bind fun bodyBlock => ?_
  refine (takes_newBlock _ [bodyBlock] []).bind fun endBlock => ?_
  refine (takes_jump (by simp)).bind fun _ => takes_switchTo.bind fun _ => ?_
  refine (takes_loopBody tag [] (by simp) (by simp) h).bind fun _ => ?_
  refine (takes_jump (by simp)).bind fun _ => ?_
  exact takes_switchTo.mono (fun _ hm => hm) fun _ _ hm => hm.draws

theorem draws_countedLoop (type : Ty) (index : Option Ident) (tag : Option Ident)
    {holds : Ir.Value → Emit Ir.Register} {locals : Ir.Value → Emit (List LocalVar)}
    (h : Passes body) (hh : ∀ c b, Draws b (holds c)) (hl : ∀ c b, Draws b (locals c)) :
    Draws b (countedLoop type index body tag holds locals) := by
  unfold countedLoop
  refine Triple.bind _ _ (draws_alloca _ _) fun slot => Triple.bind _ _ (draws_store _ _) fun _ => ?_
  refine draws_of_takes fun b => ?_
  refine (takes_newBlock "loop.cond" [] []).bind fun condBlock => ?_
  refine (takes_newBlock _ [condBlock] []).bind fun bodyBlock => ?_
  refine (takes_newBlock _ [condBlock, bodyBlock] []).bind fun incrBlock => ?_
  refine (takes_newBlock _ [condBlock, bodyBlock, incrBlock] []).bind fun restBlock => ?_
  refine (takes_jump (by simp)).bind fun _ => takes_switchTo.bind fun _ => ?_
  refine (takes_line fun _ => draws_load _ _).bind fun counter => ?_
  refine (takes_line (hh counter)).bind fun cond => ?_
  refine (takes_branch _ (by simp) (by simp)).bind fun _ => takes_switchTo.bind fun _ => ?_
  refine (takes_line fun _ => draws_load _ _).bind fun counter => ?_
  refine (takes_line (hl counter)).bind fun vs => ?_
  refine (takes_loopBody tag _ (by simp) (by simp) h).bind fun _ => ?_
  refine (takes_jump (by simp)).bind fun _ => takes_switchTo.bind fun _ => ?_
  refine (takes_line fun _ => draws_load _ _).bind fun counter => ?_
  refine (takes_line fun _ => draws_compute _ fun _ => rfl).bind fun next => ?_
  refine (takes_line fun _ => draws_store _ _).bind fun _ => ?_
  refine (takes_jump (by simp)).bind fun _ => ?_
  exact takes_switchTo.mono (fun _ hm => hm) fun _ _ hm => hm.draws

theorem draws_lowerTimes {count : Operand} (index : Option Ident) (tag : Option Ident)
    (hc : count.Draws) (h : Passes body) : Draws b (lowerTimes count index body tag) := by
  unfold lowerTimes
  refine Triple.bind _ _ (draws_operandRvalue _ hc) fun total => ?_
  refine Triple.bind _ _ draws_types fun t => Triple.bind _ _ (draws_require _ _ _) fun info => ?_
  exact draws_countedLoop _ index tag h (fun c _ => draws_compute _ fun _ => rfl)
    fun _ _ => by mvcgen

@[spec high] theorem draws_storedSequence (v : Value) (element : Ty) (length : Nat) :
    Draws b (storedSequence v element length) := by
  unfold storedSequence
  mvcgen

@[spec high] theorem draws_sequenceOf (v : Value) (range : Span) : Draws b (sequenceOf v range) := by
  unfold sequenceOf
  mvcgen
  simp

theorem draws_hasElement (s : Sequence) (counter : Ir.Value) : Draws b (hasElement s counter) := by
  unfold hasElement
  mvcgen

theorem draws_lowerForIn {iterable : Operand} (item : Ident) (index : Option Ident)
    (tag : Option Ident) (hi : iterable.Draws) (h : Passes body) :
    Draws b (lowerForIn iterable item index body tag) := by
  unfold lowerForIn
  refine Triple.bind _ _ (draws_lower _ hi) fun v => ?_
  refine Triple.bind _ _ (draws_sequenceOf _ _) fun s => Triple.bind _ _ (draws_intern _) fun ty => ?_
  exact draws_countedLoop _ index tag h (fun c _ => draws_hasElement s c) fun _ _ => by mvcgen

/-! ## Jumps -/

theorem loopFor?_mem {f : FunctionState} {tag : Option Ident} {l : LoopTargets}
    (h : f.loopFor? tag = some l) : l ∈ f.loops := by
  unfold FunctionState.loopFor? at h
  split at h
  · exact List.mem_of_find?_eq_some h
  · exact List.mem_of_head? h

theorem passes_lowerJump (tag : Option Ident) (word : String) {target : LoopTargets → BlockId}
    (range : Span) (ht : ∀ l, target l = l.breakTo ∨ target l = l.continueTo) :
    Passes (lowerJump tag word target range) := by
  refine passes_of_takes fun b => takes_function.bind fun f => ?_
  split
  · rename_i l hl
    rintro o s v s' g hg ⟨hm, rfl⟩ hr
    have hgoal : target l ∈ b.loops.flatMap fun l => [l.breakTo, l.continueTo] :=
      List.mem_flatMap.mpr ⟨l, hm.around ▸ loopFor?_mem hl, by simpa using ht l⟩
    have hjump : Takes (b.Midst b.loops [] [] true) (terminate (.jump (target l)))
        fun _ => b.Midst b.loops [] [] false :=
      takes_terminate fun j hj => .inr (List.mem_singleton.mp hj ▸ hgoal)
    obtain ⟨g', hg', hm'⟩ := hjump o s v s' g hg hm hr
    exact ⟨g', hg', hm'.passes⟩
  · exact takes_refuse _ _
  · exact takes_refuse _ _

theorem passes_ret (v : Option Ir.Value) : Passes (terminate (.ret v)) :=
  passes_of_takes fun _ => (takes_terminate fun _ h => by cases h).mono (fun _ hm => hm)
    fun _ _ hm => hm.passes

theorem passes_lowerGive {value : Option Operand} (range : Span)
    (hv : ∀ o, value = some o → o.Draws) : Passes (lowerGive value range) := by
  refine .after (fun _ => draws_function) fun f => ?_
  cases value with
  | none => exact .guard (passes_ret none)
  | some o =>
    have ho := hv o rfl
    refine .guard (.after (fun _ => draws_lower _ ho) fun v => .guard ?_)
    exact .after (fun _ => draws_passValue _ _ _) fun v => passes_ret (some v)

/-! ## Branches -/

theorem draws_lowerBranch {condition : Operand} {endBlock : BlockId} {rest : Emit Unit}
    (hmem : endBlock ∈ made) (hc : condition.Draws) (h : Passes body)
    (hrest : ∀ made, endBlock ∈ made →
      Takes (b.Midst b.loops made [endBlock] true) rest fun _ f => b.Draws f) :
    Takes (b.Midst b.loops made [endBlock] true) (lowerBranch condition body endBlock rest)
      fun _ f => b.Draws f := by
  refine (takes_line fun _ => draws_condition hc).bind fun cond => ?_
  split
  · refine (takes_body (passes_inScope h)).bind fun _ => (takes_jump hmem).bind fun _ => ?_
    exact takes_switchTo.mono (fun _ hm => hm) fun _ _ hm => hm.draws
  · exact hrest made hmem
  · refine (takes_newBlock "if.then" [] [endBlock]).bind fun thenBlock => ?_
    refine (takes_newBlock _ [thenBlock] [endBlock]).bind fun nextBlock => ?_
    refine (takes_branch _ (by simp) (by simp)).bind fun _ => takes_switchTo.bind fun _ => ?_
    refine (takes_body (passes_inScope h)).bind fun _ => ?_
    refine (takes_jump (by simp [hmem])).bind fun _ => takes_switchTo.bind fun _ => ?_
    exact hrest _ (by simp [hmem])

/-! ## Bodies -/

theorem draws_map (view : Viewpoint) (e : Option Expr) (o : Operand)
    (ho : e.map (operand view) = some o) : o.Draws := by
  obtain ⟨e, -, rfl⟩ := Option.map_eq_some_iff.mp ho
  exact draws_operand view e

theorem isClosed_apply {o : Options} {s : Compiler} {f : FunctionState} (hf : s.func = some f) :
    isClosed o s = .ok (f.function.term? f.current).isSome s := by
  have hterm : (f.function.block? f.current).any (·.isClosed) =
      (f.function.term? f.current).isSome := by
    unfold Ir.Function.term?
    cases f.function.block? f.current <;> rfl
  rw [← hterm]
  cases s
  cases hf
  rfl

/-- What follows the end of a block is dropped. -/
theorem lowerSentences_closed (view : Viewpoint) (ss : List Sentence) {o : Options}
    {s : Compiler} {f : FunctionState} (hf : s.func = some f) (hc : ¬f.IsOpen) :
    lowerSentences view ss o s = .ok () s := by
  cases ss with
  | nil => rfl
  | cons sentence rest =>
    unfold lowerSentences
    rw [bind_apply, isClosed_apply hf, Option.isSome_iff_ne_none.mpr hc]
    rfl

/-- One sentence, and what follows it unless it ends the block. -/
theorem Passes.cons {view : Viewpoint} {s : Sentence} {ss : List Sentence}
    (h : Passes (lowerSentence view s)) (hs : Passes (lowerSentences view ss)) :
    Passes (lowerSentences view (s :: ss)) := by
  rintro b o st v st' f hf rfl hr
  by_cases hopen : f.IsOpen
  · unfold lowerSentences at hr
    rw [bind_apply, isClosed_apply hf, hopen] at hr
    obtain ⟨u, st₁, hfirst, hrest⟩ := bind_ok hr
    obtain ⟨g, hg, hp⟩ := h f o st u st₁ f hf rfl hfirst
    by_cases hopen' : g.IsOpen
    · obtain ⟨g', hg', hp'⟩ := hs g o st₁ v st' g hg rfl hrest
      exact ⟨g', hg', hp.next hp' hopen'⟩
    · rw [lowerSentences_closed view ss hg hopen'] at hrest
      cases hrest
      exact ⟨g, hg, hp⟩
  · rw [lowerSentences_closed view (s :: ss) hf hopen] at hr
    cases hr
    exact ⟨f, hf, (FunctionState.Draws.refl f).passes⟩

mutual

theorem passes_lowerSentences (view : Viewpoint) :
    ∀ ss : List Sentence, Passes (lowerSentences view ss)
  | [] => by
    unfold lowerSentences
    exact fun b => .pure fun f hf => hf ▸ (FunctionState.Draws.refl b).passes
  | s :: ss => (passes_lowerSentence view s).cons (passes_lowerSentences view ss)

theorem passes_lowerSentence (view : Viewpoint) : ∀ s : Sentence, Passes (lowerSentence view s)
  | .localVar _ name type value isVar isRef => by
    unfold lowerSentence
    exact Draws.passes fun _ => draws_lowerLocal view name type isVar isRef _ (draws_map view value)
  | .assign _ lhs rhs => by
    unfold lowerSentence
    exact Draws.passes fun _ =>
      draws_lowerAssign _ (draws_operand view lhs) (draws_operand view rhs)
  | .opAssign _ op lhs rhs => by
    unfold lowerSentence
    exact Draws.passes fun _ =>
      draws_lowerOpAssign op _ (draws_operand view lhs) (draws_operand view rhs)
  | .expr _ e => by
    unfold lowerSentence
    exact .after (fun b => draws_lowerExpr view e b _) fun _ b =>
      .pure fun f hf => hf ▸ (FunctionState.Draws.refl b).passes
  | .cond _ branches none => by
    unfold lowerSentence
    refine Draws.passes fun _ => draws_of_takes fun b => ?_
    refine (takes_newBlock "if.end" [] []).bind fun endBlock => ?_
    refine takes_lowerBranches view branches List.mem_cons_self ?_
    intro made hmem
    refine (takes_jump hmem).bind fun _ => ?_
    exact takes_switchTo.mono (fun _ hm => hm) fun _ _ hm => hm.draws
  | .cond _ branches (some body) => by
    unfold lowerSentence
    refine Draws.passes fun _ => draws_of_takes fun b => ?_
    refine (takes_newBlock "if.end" [] []).bind fun endBlock => ?_
    refine takes_lowerBranches view branches List.mem_cons_self ?_
    intro made hmem
    refine (takes_body (passes_inScope (passes_lowerSentences view body))).bind fun _ => ?_
    refine (takes_jump hmem).bind fun _ => ?_
    exact takes_switchTo.mono (fun _ hm => hm) fun _ _ hm => hm.draws
  | .whileDo _ condition body tag => by
    unfold lowerSentence
    exact Draws.passes fun _ =>
      draws_lowerWhile tag (draws_operand view condition) (passes_lowerSentences view body)
  | .times _ count index body tag => by
    unfold lowerSentence
    exact Draws.passes fun _ =>
      draws_lowerTimes index tag (draws_operand view count) (passes_lowerSentences view body)
  | .loop _ body tag => by
    unfold lowerSentence
    exact Draws.passes fun _ => draws_lowerLoop tag (passes_lowerSentences view body)
  | .forIn _ iterable item index body tag => by
    unfold lowerSentence
    exact Draws.passes fun _ =>
      draws_lowerForIn item index tag (draws_operand view iterable) (passes_lowerSentences view body)
  | .breakLoop range tag => by
    unfold lowerSentence
    exact passes_lowerJump tag _ range fun _ => .inl rfl
  | .continueLoop range tag => by
    unfold lowerSentence
    exact passes_lowerJump tag _ range fun _ => .inr rfl
  | .give _ value => by
    unfold lowerSentence
    exact passes_lowerGive _ (draws_map view value)
  | .block _ body => by
    unfold lowerSentence
    exact passes_inScope (passes_lowerSentences view body)
  | .todo .. => by
    unfold lowerSentence
    exact Draws.passes fun _ => draws_unfinished _ _

theorem takes_lowerBranches (view : Viewpoint) {endBlock : BlockId} {otherwise : Emit Unit} :
    ∀ (bs : List Branch) {b : FunctionState} {made : List BlockId}, endBlock ∈ made →
      (∀ made, endBlock ∈ made →
        Takes (b.Midst b.loops made [endBlock] true) otherwise fun _ f => b.Draws f) →
      Takes (b.Midst b.loops made [endBlock] true) (lowerBranches view endBlock bs otherwise)
        fun _ f => b.Draws f
  | [], _, _, hmem, ho => by
    unfold lowerBranches
    exact ho _ hmem
  | .mk condition body :: bs, _, _, hmem, ho => by
    unfold lowerBranches
    exact draws_lowerBranch hmem (draws_operand view condition)
      (passes_lowerSentences view body) fun _ hmem' => takes_lowerBranches view bs hmem' ho

end

end Emit

namespace Emit

variable {b : FunctionState}

/-! ## Parameters -/

@[spec high] theorem draws_bindParam (name : Ident) (r : Ir.Register) (ty : Ty) (isVar : Bool) :
    Draws b (bindParam name r ty isVar) := by
  unfold bindParam
  mvcgen

theorem draws_bindParams :
    ∀ (args : List Argument) (rs : List Ir.Register), Draws b (bindParams args rs)
  | [], _ | _ :: _, [] => by
    unfold bindParams
    mvcgen
  | a :: args, r :: rs => by
    unfold bindParams
    exact Triple.bind _ _ (draws_bindParam _ _ _ _) fun _ => draws_bindParams args rs

theorem draws_bindMemberArgs (parent : Ty) (self : Option Instance) :
    ∀ (args : List MemberArg) (rs : List Ir.Register),
      Draws b (bindMemberArgs parent self args rs)
  | [], _ | _ :: _, [] => by
    unfold bindMemberArgs
    mvcgen
  | a :: args, r :: rs => by
    have hrest : Draws b (bindMemberArgs parent self args rs) :=
      draws_bindMemberArgs parent self args rs
    unfold bindMemberArgs
    dsimp only
    split
    · exact Triple.bind _ _ (draws_fieldPtr _ _ _ _) fun ptr =>
        Triple.bind _ _ (draws_store _ _) fun _ => hrest
    · exact Triple.bind _ _ (draws_bindParam _ _ _ _) fun _ => hrest

/-! ## The beginning and the end -/

variable {i : Ir.FunctionId} {p : Ir.Function} {result : Ty} {self : Option Instance}

theorem term?_begun (hp : p.blocks = #[]) (j : BlockId) :
    (begun i p result self).function.term? j = none := by
  show (p.newBlock (some "entry")).1.term? j = none
  rw [Ir.Function.term?_newBlock]
  exact Ir.Function.term?_of_size_le (by rw [hp]; exact Nat.zero_le j)

theorem isOpen_begun (hp : p.blocks = #[]) : (begun i p result self).IsOpen := term?_begun hp _

theorem exact_begun (hp : p.blocks = #[]) : (begun i p result self).Exact where
  current := by
    show p.blocks.size < (p.blocks.push _).size
    rw [Array.size_push]
    exact Nat.lt_succ_self _
  targets j k := by
    rintro ⟨t, ht, -⟩
    cases (term?_begun hp j).symm.trans ht
  goals j hj := by cases hj
  phis j blocks hb := by
    have hnone : (begun i p result self).function.phis j = [] := by
      show (p.newBlock (some "entry")).1.phis j = []
      rw [Ir.Function.phis_newBlock]
      exact Ir.Function.phis_of_size_le (by rw [hp]; exact Nat.zero_le j)
    rw [hnone] at hb
    cases hb

theorem Ended.jumps {b b' : Ir.Block} (h : Ended b b') :
    b'.phis = b.phis ∧ b'.successors = b.successors := by
  obtain ⟨-, rfl | ⟨t, ht, rfl⟩⟩ := h
  · exact ⟨rfl, rfl⟩
  · unfold Ir.Block.close
    split
    · exact ⟨rfl, rfl⟩
    · rename_i hopen
      refine ⟨rfl, ?_⟩
      have hterm : b.term = none := by simpa [Ir.Block.isClosed] using hopen
      unfold Ir.Block.successors
      rw [hterm]
      rcases ht with rfl | rfl <;> rfl

/-- What a body leaves of an empty function, once its open blocks are closed. -/
theorem exactPhis_of_body {f : FunctionState} {done : Ir.Function} (hp : p.blocks = #[])
    (h : (begun i p result self).Passes f) (hdone : closeAll? f.function f.result = some done) :
    done.ExactPhis := by
  have hexact := (h.flows (exact_begun hp) (isOpen_begun hp)).exact.phis
  obtain ⟨blocks, -, hblocks⟩ := Option.bind_eq_some_iff.mp hdone
  obtain ⟨-, hended⟩ := closeAll_spec hdone
  cases hblocks
  exact hexact.of_blocks (hended.imp fun _ _ => Ended.jumps)

end Emit

end Staged
