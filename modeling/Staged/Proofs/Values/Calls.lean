/-
  Staged.Proofs.Values.Calls — calls stay in the domain.

  A body runs with a frame of its own on top, so what it does to locals never reaches the
  calls below, and the frame is gone when the call ends, even if it fails. Values get into
  locals by evaluation or as arguments, and what a body gives was evaluated. By induction
  on the number of calls that may still nest, calls stay in the domain, and with them all
  evaluation.
-/

import Staged.Proofs.Lowering.Calls
import Staged.Proofs.Values.Evaluate

namespace Staged

namespace Emit

variable {g : Ground} {n : Nat} {α : Type} {Q : α → Prop}

/-! ## Scopes and frames -/

/-- What a bracket does before and after: `after` undoes `before`, and after a failure it has
nothing to rely on but the number of running calls. -/
structure Brackets (g : Ground) (n m : Nat) (before after : Emit Unit) : Prop where
  enters : ∀ o s, g.Stands n s → ∃ s', before o s = .ok () s' ∧ g.Stands m s'
  leaves : ∀ o s, g.Stops m s → ∃ s', after o s = .ok () s' ∧ g.Stops n s' ∧
    (g.Stands m s → g.Stands n s')

theorem ends_bracket {m : Nat} {before after : Emit Unit} {inside : Emit α}
    (h : Brackets g n m before after) (hinside : g.Ends m inside Q) :
    g.Ends n (bracket before after inside) Q := by
  intro o ho s hs
  obtain ⟨s₁, hb, hs₁⟩ := h.enters o s hs
  have hin := hinside o ho s₁ hs₁
  rw [bracket_apply, hb]
  dsimp only
  cases hr : inside o s₁ with
  | ok v s₂ =>
    rw [hr] at hin
    obtain ⟨s₃, ha, -, hs₃⟩ := h.leaves o s₂ hin.1.toStops
    simp only [ha]
    exact ⟨hs₃ hin.1, hin.2⟩
  | error f s₂ =>
    rw [hr] at hin
    obtain ⟨s₃, ha, hs₃, -⟩ := h.leaves o s₂ hin.1
    simp only [ha]
    exact ⟨hs₃, hin.2⟩

/-- A scope of the running call. -/
theorem brackets_scope (g : Ground) (n : Nat) : Brackets g (n + 1) (n + 1)
    (do setFrame (← frame).push) (do setFrame (← frame).pop) := by
  have hstops {f f' : Frame} {rest : List Frame} {s : Compiler} (hs : g.Stops (n + 1) s)
      (hf : s.frames = f :: rest) : g.Stops (n + 1) { s with frames := f' :: rest } :=
    ⟨hs.outer, (congrArg List.length hf).symm.trans hs.calls, hs.code, hs.warnings⟩
  constructor
  · intro o s hs
    obtain ⟨f, rest, hf⟩ := List.exists_cons_of_length_eq_add_one hs.calls
    refine ⟨_, changeFrame_apply Frame.push o hf, hstops hs.toStops hf, ?_⟩
    have hall := hs.frames
    rw [hf, List.forall_mem_cons] at hall
    exact List.forall_mem_cons.mpr ⟨hall.1.push, hall.2⟩
  · intro o s hs
    obtain ⟨f, rest, hf⟩ := List.exists_cons_of_length_eq_add_one hs.calls
    refine ⟨_, changeFrame_apply Frame.pop o hf, hstops hs hf,
      fun hs => ⟨hstops hs.toStops hf, ?_⟩⟩
    have hall := hs.frames
    rw [hf, List.forall_mem_cons] at hall
    exact List.forall_mem_cons.mpr ⟨hall.1.pop, hall.2⟩

/-- A call runs above the others. -/
theorem brackets_frame {f : Frame} (hf : f.Holds g.holds) :
    Brackets g n (n + 1) (pushFrame f) popFrame := by
  have hstops {s : Compiler} (hs : g.Stops (n + 1) s) :
      g.Stops n { s with frames := s.frames.drop 1 } := by
    refine ⟨hs.outer, ?_, hs.code, hs.warnings⟩
    rw [List.length_drop, hs.calls, Nat.add_sub_cancel]
  constructor
  · intro o s hs
    refine ⟨_, rfl, ⟨hs.outer, congrArg (· + 1) hs.calls, hs.code, hs.warnings⟩, ?_⟩
    exact List.forall_mem_cons.mpr ⟨hf, hs.frames⟩
  · intro o s hs
    refine ⟨_, rfl, hstops hs, fun hs => ⟨hstops hs.toStops, ?_⟩⟩
    exact fun f hf => hs.frames f (List.mem_of_mem_drop hf)

theorem ends_inFrameScope {inside : Emit α} (h : g.Ends (n + 1) inside Q) :
    g.Ends (n + 1) (inFrameScope inside) Q := ends_bracket (brackets_scope g n) h

theorem ends_inFrame {inside : Emit α} {f : Frame} (hf : f.Holds g.holds)
    (h : g.Ends (n + 1) inside Q) : g.Ends n (bracket (pushFrame f) popFrame inside) Q :=
  ends_bracket (brackets_frame hf) h

/-! ## Locals -/

theorem ends_declareKnown (name : String) {value : Constant} (isVar : Bool)
    (hv : g.holds value) : g.Ends (n + 1) (declareKnown name value isVar) fun _ => True := by
  refine ends_frame.bind fun f hf => ?_
  split
  · rename_i f' hf'
    exact (ends_setFrame (hf.declare hv hf')).bind fun _ _ => .pure trivial
  · exact .pure trivial

theorem ends_assignedName (lhs : Expr) : g.Ends n (assignedName lhs) fun _ => True := by
  unfold assignedName
  split
  · exact ends_require _ _ fun _ _ => trivial
  · exact ends_refuse _ _

theorem ends_assignedType (name : Ident) :
    g.Ends (n + 1) (assignedType name) fun _ => True := by
  refine ends_frame.bind fun f _ => ?_
  split
  · split
    · exact .pure trivial
    · exact ends_refuse _ _
  · exact ends_refuse _ _

theorem ends_assignKnown (name : Ident) {value : Constant} (hv : g.holds value) :
    g.Ends (n + 1) (assignKnown name value) fun _ => True := by
  refine ends_frame.bind fun f hf => ?_
  refine (ends_require (Q := Frame.Holds g.holds) _ _ fun f' hf' => hf.set hv hf').bind
    fun f' hf' => ends_setFrame hf'

/-! ## Loops -/

theorem ends_afterBody {flow : Flow} {next : Emit Flow} (tag : Option Ident)
    (hflow : flow.Holds g.holds) (hnext : g.Ends n next (Flow.Holds g.holds)) :
    g.Ends n (afterBody tag flow next) (Flow.Holds g.holds) := by
  have hnormal : Flow.normal.Holds g.holds := fun v hv => by cases hv
  unfold afterBody
  split
  · exact hnext
  · split
    · exact .pure hnormal
    · exact .pure hflow
  · split
    · exact hnext
    · exact .pure hflow
  · exact .pure hflow

theorem ends_refuseLoop (range : Span) : g.Ends n (refuseLoop range) Q :=
  ends_read.bind fun _ _ => ends_refuse _ _

theorem ends_runWhile {condition : Emit Bool} {body : Emit Flow} (range : Span)
    (tag : Option Ident) (hcondition : g.Ends n condition fun _ => True)
    (hbody : g.Ends n body (Flow.Holds g.holds)) :
    ∀ left : Nat, g.Ends n (runWhile range tag condition body left) (Flow.Holds g.holds) := by
  intro left
  induction left with
  | zero => exact ends_refuseLoop range
  | succ left ih =>
    refine hcondition.bind fun holds _ => ?_
    split
    · exact hbody.bind fun flow hflow => ends_afterBody tag hflow ih
    · exact .pure fun v hv => by cases hv

theorem ends_runItems {item? : Nat → Option Constant} {body : Nat → Constant → Emit Flow}
    (range : Span) (tag : Option Ident) (hitem : ∀ i v, item? i = some v → g.holds v)
    (hbody : ∀ i v, g.holds v → g.Ends n (body i v) (Flow.Holds g.holds)) :
    ∀ left position : Nat,
      g.Ends n (runItems range tag item? body position left) (Flow.Holds g.holds) := by
  intro left
  induction left with
  | zero =>
    intro position
    unfold runItems
    split
    · exact .pure fun v hv => by cases hv
    · exact ends_refuseLoop range
  | succ left ih =>
    intro position
    unfold runItems
    split
    · exact .pure fun v hv => by cases hv
    · rename_i v hv
      refine (hbody position v (hitem position v hv)).bind fun flow hflow => ?_
      exact ends_afterBody tag hflow (ih (position + 1))

theorem ends_loopItems {c : Constant} (range : Span) (hc : g.holds c) :
    g.Ends n (loopItems c range) fun items => ∀ (i : Nat) v, items[i]? = some v → g.holds v := by
  obtain ⟨data, type⟩ := c
  unfold loopItems
  split
  · rename_i items element _ hdata htype
    cases hdata
    cases htype
    refine .pure fun i v hv => ?_
    rw [List.getElem?_toArray, List.getElem?_map] at hv
    obtain ⟨d, hd, rfl⟩ := Option.map_eq_some_iff.mp hv
    exact g.item hc (List.mem_of_getElem? hd)
  · refine .pure fun i v hv => ?_
    rw [List.getElem?_toArray, List.getElem?_map] at hv
    obtain ⟨d, hd, rfl⟩ := Option.map_eq_some_iff.mp hv
    exact g.byte _
  · exact ends_refuse _ _

theorem ends_knownInitial (name : Ident) (declared : Option Ty) {value : Option (Emit Constant)}
    (range : Span) (hvalue : ∀ a, value = some a → g.Ends n a g.holds) :
    g.Ends n (knownInitial name declared value range) g.holds := by
  unfold knownInitial
  split
  · exact hvalue _ rfl
  · exact ends_types.bind fun t ht => ends_orRefuse _ fun c hc => g.default ht hc
  · exact ends_refuse _ _

/-! ## Sentences -/

variable {call : Caller} {view : Viewpoint}

theorem ends_localVar (hcall : g.Calls call) (range : Span) (name : Ident)
    (type : Option TypeExpr) (value : Option Expr) (isVar isRef : Bool) :
    g.Ends (n + 1) (runSentenceWith call view (.localVar range name type value isVar isRef))
      (Flow.Holds g.holds) := by
  have hinitial (declared : Option Ty) : g.Ends (n + 1) (knownInitial name declared
      (value.map (evaluateWith call view · declared)) range) g.holds := by
    refine ends_knownInitial name declared range fun a ha => ?_
    obtain ⟨e, -, rfl⟩ := Option.map_eq_some_iff.mp ha
    exact ends_evaluateWith hcall e declared
  have hdeclare {v : Constant} (hv : g.holds v) : g.Ends (n + 1) (do
      unless ← declareKnown name.text v isVar do
        refuse (.duplicateLocal name.text none) name.range
      return Flow.normal) (Flow.Holds g.holds) := by
    refine (ends_declareKnown name.text isVar hv).bind fun free _ => ends_unless fun _ => ?_
    exact .pure fun v hv => by cases hv
  unfold runSentenceWith
  refine ends_guard fun _ => ?_
  cases type with
  | none => exact (hinitial none).bind fun v hv => hdeclare hv
  | some ty =>
    refine ((ends_resolveTypeWith hcall ty).map (R := fun _ => True) fun _ _ => trivial).bind
      fun declared _ => (hinitial declared).bind fun v hv => ?_
    cases declared with
    | none => exact hdeclare hv
    | some ty => exact ends_guard fun _ => hdeclare hv

theorem ends_opAssign (hcall : g.Calls call) (range : Span) (op : BinaryOp) (lhs rhs : Expr) :
    g.Ends (n + 1) (runSentenceWith call view (.opAssign range op lhs rhs))
      (Flow.Holds g.holds) := by
  unfold runSentenceWith
  refine (ends_assignedName lhs).bind fun name _ => (ends_assignedType name).bind fun ty _ => ?_
  refine (ends_evaluateWith hcall lhs _).bind fun current hcurrent => ?_
  refine (ends_evaluateWith hcall rhs _).bind fun v hv => ?_
  refine ends_types.bind fun _ _ => ?_
  refine (ends_orRefuse (Q := fun _ => True) range fun _ _ => trivial).bind fun _ _ => ?_
  refine ends_types.bind fun t ht => ?_
  refine (ends_orRefuseFold (Q := g.holds) range fun c hc => g.binary ht hcurrent hv hc).bind
    fun result hresult => ends_guard fun _ => ?_
  refine (ends_assignKnown name hresult).bind fun _ _ => ?_
  exact .pure fun v hv => by cases hv

theorem ends_times (hcall : g.Calls call) (range : Span) (count : Expr) (index : Option Ident)
    {body : List Sentence} (tag : Option Ident)
    (hbody : g.Ends (n + 1) (runSentencesWith call view body) (Flow.Holds g.holds)) :
    g.Ends (n + 1) (runSentenceWith call view (.times range count index body tag))
      (Flow.Holds g.holds) := by
  unfold runSentenceWith
  refine (ends_evaluateWith hcall count _).bind fun c hc => ?_
  refine ends_types.bind fun t ht => ends_unless fun hint => ?_
  refine (ends_require (Q := (c.asInt? = some ·)) _ _ fun _ h => h).bind fun total htotal => ?_
  refine ends_read.bind fun o _ => ends_runItems range tag ?_ ?_ _ _
  · intro i v hv
    split at hv
    · rename_i hlt
      cases hv
      exact g.below ht hint hc htotal (Int.natCast_nonneg i) hlt
    · cases hv
  · intro i v hv
    refine ends_inFrameScope ?_
    cases index with
    | none => exact ends_inFrameScope hbody
    | some name =>
      refine (ends_declareKnown name.text false hv).bind fun _ _ => ?_
      exact ends_inFrameScope hbody

theorem ends_eachOf (hcall : g.Calls call) (range : Span) (iterable : Expr) (item : Ident)
    (index : Option Ident) {body : List Sentence} (tag : Option Ident)
    (hbody : g.Ends (n + 1) (runSentencesWith call view body) (Flow.Holds g.holds)) :
    g.Ends (n + 1) (runSentenceWith call view (.forIn range iterable item index body tag))
      (Flow.Holds g.holds) := by
  unfold runSentenceWith
  refine (ends_evaluateWith hcall iterable _).bind fun c hc => ?_
  refine (ends_loopItems range hc).bind fun items hitems => ?_
  refine ends_read.bind fun o _ => ends_runItems range tag hitems ?_ _ _
  intro i v hv
  refine ends_inFrameScope ((ends_declareKnown item.text false hv).bind fun _ _ => ?_)
  cases index with
  | none => exact ends_inFrameScope hbody
  | some name =>
    refine (ends_declareKnown name.text false (g.usize _)).bind fun _ _ => ?_
    exact ends_inFrameScope hbody

mutual

theorem ends_runSentencesWith (hcall : g.Calls call) :
    ∀ body : List Sentence,
      g.Ends (n + 1) (runSentencesWith call view body) (Flow.Holds g.holds)
  | [] => by
    unfold runSentencesWith
    exact .pure fun v hv => by cases hv
  | s :: rest => by
    unfold runSentencesWith
    refine (ends_runSentenceWith hcall s).bind fun flow hflow => ?_
    split
    · exact ends_runSentencesWith hcall rest
    · exact .pure hflow

theorem ends_runSentenceWith (hcall : g.Calls call) :
    ∀ s : Sentence, g.Ends (n + 1) (runSentenceWith call view s) (Flow.Holds g.holds)
  | .localVar range name type value isVar isRef =>
    ends_localVar hcall range name type value isVar isRef
  | .assign _ lhs rhs => by
    unfold runSentenceWith
    refine (ends_assignedName lhs).bind fun name _ => (ends_assignedType name).bind fun ty _ => ?_
    refine (ends_evaluateWith hcall rhs _).bind fun v hv => ends_guard fun _ => ?_
    refine (ends_assignKnown name hv).bind fun _ _ => ?_
    exact .pure fun v hv => by cases hv
  | .opAssign range op lhs rhs => ends_opAssign hcall range op lhs rhs
  | .expr _ e => by
    unfold runSentenceWith
    exact (ends_evaluateWith hcall e _).bind fun _ _ => .pure fun v hv => by cases hv
  | .cond _ branches otherwise => by
    unfold runSentenceWith
    refine ends_runBranchesWith hcall branches ?_
    cases otherwise with
    | none => exact .pure fun v hv => by cases hv
    | some body => exact ends_inFrameScope (ends_runSentencesWith hcall body)
  | .whileDo range condition body tag => by
    unfold runSentenceWith
    refine ends_read.bind fun o _ => ends_runWhile range tag ?_ ?_ _
    · exact (ends_evaluateWith hcall condition _).bind fun c _ => ends_asCondition c _
    · exact ends_inFrameScope (ends_runSentencesWith hcall body)
  | .loop range body tag => by
    unfold runSentenceWith
    refine ends_read.bind fun o _ => ends_runWhile range tag (.pure trivial) ?_ _
    exact ends_inFrameScope (ends_runSentencesWith hcall body)
  | .times range count index body tag =>
    ends_times hcall range count index tag (ends_runSentencesWith hcall body)
  | .forIn range iterable item index body tag =>
    ends_eachOf hcall range iterable item index tag (ends_runSentencesWith hcall body)
  | .breakLoop _ _ | .continueLoop _ _ => by
    unfold runSentenceWith
    exact .pure fun v hv => by cases hv
  | .give _ value => by
    unfold runSentenceWith
    refine ends_frame.bind fun f _ => ?_
    cases value with
    | none => exact .pure fun v hv => by cases hv
    | some e =>
      refine (ends_evaluateWith hcall e _).bind fun c hc => .pure fun v hv => ?_
      cases hv
      exact hc
  | .block _ body => by
    unfold runSentenceWith
    exact ends_inFrameScope (ends_runSentencesWith hcall body)
  | .todo range message => by
    unfold runSentenceWith
    exact (ends_unfinished message range).bind fun _ _ => .pure fun v hv => by cases hv

theorem ends_runBranchesWith (hcall : g.Calls call) :
    ∀ (branches : List Branch) {otherwise : Emit Flow},
      g.Ends (n + 1) otherwise (Flow.Holds g.holds) →
      g.Ends (n + 1) (runBranchesWith call view branches otherwise) (Flow.Holds g.holds)
  | [], otherwise, h => by
    unfold runBranchesWith
    exact h
  | .mk condition body :: rest, otherwise, h => by
    unfold runBranchesWith
    refine (ends_evaluateWith hcall condition _).bind fun c _ => ?_
    refine (ends_asCondition c _).bind fun holds _ => ?_
    split
    · exact ends_inFrameScope (ends_runSentencesWith hcall body)
    · exact ends_runBranchesWith hcall rest h

end

/-! ## Calls -/

theorem ends_bindArgs (f : PrerunFunction) (range : Span) :
    ∀ (params : List PrerunArg) (args : List Constant) {frame : Frame},
      (∀ c ∈ args, g.holds c) → frame.Holds g.holds →
      g.Ends n (bindArgs f range frame params args) (Frame.Holds g.holds)
  | [], _, _, _, hframe | _ :: _, [], _, _, hframe => by
    unfold bindArgs
    exact .pure hframe
  | p :: params, v :: args, frame, hargs, hframe => by
    obtain ⟨hv, hargs⟩ := List.forall_mem_cons.mp hargs
    unfold bindArgs
    refine ends_guard fun _ => ends_bindArgs f range params args hargs ?_
    cases hd : frame.declare? p.name.text v p.isVar with
    | none => exact hframe
    | some frame' => exact hframe.declare hv hd

theorem ends_callResult (f : PrerunFunction) (range : Span) {flow : Flow}
    (hflow : flow.Holds g.holds) : g.Ends n (callResult f range flow) g.holds := by
  unfold callResult
  split
  · split
    · exact ends_mismatch _ _ _
    · exact .pure (hflow _ rfl)
  · split
    · exact .pure g.void
    · exact ends_refuse _ _
  · split
    · exact .pure g.void
    · exact ends_refuse _ _
  · exact ends_refuse _ _
  · exact ends_refuse _ _

theorem calls_known : ∀ left : Nat, g.Calls (callKnown left) := by
  intro left
  induction left with
  | zero => exact fun n f args range _ => ends_read.bind fun _ _ => ends_refuse _ _
  | succ left ih =>
    intro n f args range hargs
    have hempty : Frame.Holds g.holds { function := f.fullName, result := f.result } := by
      intro scope hscope
      rcases List.mem_singleton.mp hscope with rfl
      intro entry hentry
      cases hentry
    refine (ends_bindArgs f range f.args args hargs hempty).bind fun frame hframe => ?_
    refine (ends_inFrame hframe (ends_inFrameScope (ends_runSentencesWith ih f.body))).bind
      fun flow hflow => ?_
    exact ends_callResult f range hflow

/-! ## Evaluation -/

theorem ends_evaluate (view : Viewpoint) (e : Expr) (expected : Option Ty) :
    g.Ends n (evaluate view e expected) g.holds :=
  ends_read.bind fun _ _ => ends_evaluateWith (calls_known _) e expected

theorem ends_evaluateEach (view : Viewpoint) (es : List Expr) (hints : List Ty) :
    g.Ends n (evaluateEach view es hints) fun vs => ∀ v ∈ vs, g.holds v :=
  ends_read.bind fun _ _ => ends_evaluateEachWith (calls_known _) es hints

theorem ends_resolveType (view : Viewpoint) (ty : TypeExpr) :
    g.Ends n (resolveType view ty) fun _ => True :=
  ends_read.bind fun _ _ => ends_resolveTypeWith (calls_known _) ty

theorem ends_resolveTypeOption (view : Viewpoint) (ty : Option TypeExpr) :
    g.Ends n (resolveType? view ty) fun _ => True := by
  cases ty with
  | none => exact .pure trivial
  | some ty => exact (ends_resolveType view ty).map fun _ _ => trivial

theorem ends_callPrerun (f : PrerunFunction) {args : List Constant} (range : Span)
    (h : ∀ c ∈ args, g.holds c) : g.Ends n (callPrerun f args range) g.holds :=
  ends_read.bind fun _ _ => calls_known _ n f args range h

theorem ends_evaluateCondition (view : Viewpoint) (e : Expr) :
    g.Ends n (evaluateCondition view e) fun _ => True :=
  (ends_evaluate view e _).bind fun c _ => ends_asCondition c _

end Emit

end Staged
