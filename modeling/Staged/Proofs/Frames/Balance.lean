/-
  Staged.Proofs.Frames.Balance — frames and scopes are well bracketed.

  A body may leave from the middle: by `break`, `continue` or `give`, or because something
  is refused. Whichever way it goes, the frames of the calls below are as they were and the
  frame on top has at most grown (`GrowsFrame`), one rule per sentence. A scope takes back
  what grew in it, and a call takes its frame away. So by induction on the number of calls
  that may still nest:
  - `leaves_callKnown`: calls leave the running calls as they are.
  - `evaluation_balanced`: so do expressions, and a body in its scope changes no more than
    the values of variables of the frame on top, which keep their types.
-/

import Staged.Proofs.Frames.Evaluate
import Staged.Proofs.Frames.Locals
import Staged.Proofs.Lowering.Calls

namespace Staged.Emit

variable {α β : Type} {a : Emit α} {k : α → Emit β} {f f' : Frame} {R R' : Frame → Prop}

/-! ## The frame on top -/

/-- With this frame on top, an action ends with one in `R` above the same calls, if it gives
a value and if it fails. -/
def Turns (f : Frame) (R : Frame → Prop) (a : Emit α) : Prop :=
  ∀ o s below, s.frames = f :: below → ∃ f', framesAfter a o s = f' :: below ∧ R f'

def GrowsFrame (a : Emit α) : Prop := ∀ f : Frame, Turns f f.Grows a

theorem Turns.mono (h : Turns f R a) (hR : ∀ f', R f' → R' f') : Turns f R' a := by
  intro o s below hs
  obtain ⟨f', hf', hr⟩ := h o s below hs
  exact ⟨f', hf', hR f' hr⟩

theorem Turns.bind (ha : Turns f R a) (hR : ∀ f', R f' → R' f')
    (hk : ∀ v f', R f' → Turns f' R' (k v)) : Turns f R' (a >>= k) := by
  intro o s below hs
  obtain ⟨f', hf', hr⟩ := ha o s below hs
  rw [framesAfter_bind]
  unfold framesAfter at hf'
  cases hrun : a o s with
  | ok v s' =>
    rw [hrun] at hf'
    exact hk v f' hr o s' below hf'
  | error e s' =>
    rw [hrun] at hf'
    exact ⟨f', hf', hR f' hr⟩

theorem LeavesFrames.turns (ha : LeavesFrames a) (hf : R f) : Turns f R a := by
  intro o s below hs
  exact ⟨f, (ha o s).trans hs, hf⟩

/-- What leaves the frames alone may come first. -/
theorem Turns.after (ha : LeavesFrames a) (hf : R f) (hk : ∀ v, Turns f R (k v)) :
    Turns f R (a >>= k) := by
  refine (ha.turns (R := (· = f)) rfl).bind ?_ ?_
  · rintro f' rfl
    exact hf
  · rintro v f' rfl
    exact hk v

namespace GrowsFrame

theorem bind (ha : GrowsFrame a) (hk : ∀ v, GrowsFrame (k v)) : GrowsFrame (a >>= k) := by
  intro f
  refine (ha f).bind (fun _ h => h) fun v f' hf' => ?_
  exact (hk v f').mono fun _ h => hf'.trans h

theorem ite {c : Prop} [Decidable c] {a b : Emit α} (ha : GrowsFrame a) (hb : GrowsFrame b) :
    GrowsFrame (if c then a else b) := by
  split
  · exact ha
  · exact hb

end GrowsFrame

theorem LeavesFrames.grows (ha : LeavesFrames a) : GrowsFrame a := fun f => ha.turns (.refl f)

theorem turns_frame_bind {k : Frame → Emit β} (h : Turns f R (k f)) :
    Turns f R (frame >>= k) := by
  intro o s below hs
  rw [framesAfter_bind, frame_apply o hs]
  exact h o s below hs

theorem turns_setFrame (hf' : R f') : Turns f R (setFrame f') := by
  intro o s below hs
  refine ⟨f', ?_, hf'⟩
  show f' :: s.frames.drop 1 = f' :: below
  rw [hs]
  rfl

/-! ## Scopes and calls -/

/-- What is inside a bracket changes only what `after` does not take back. -/
theorem framesAfter_bracket {before after : Emit Unit} {inside : Emit α} {o : Options}
    {s s₁ : Compiler} {fs : List Frame} (hbefore : before o s = .ok () s₁)
    (hafter : ∀ s₂, s₂.frames = framesAfter inside o s₁ →
      ∃ s₃, after o s₂ = .ok () s₃ ∧ s₃.frames = fs) :
    framesAfter (bracket before after inside) o s = fs := by
  unfold framesAfter at hafter ⊢
  rw [bracket_apply, hbefore]
  dsimp only
  cases hin : inside o s₁ with
  | ok _ s₂ | error _ s₂ =>
    obtain ⟨s₃, ha, hs₃⟩ := hafter s₂ (by rw [hin])
    simp only [ha]
    exact hs₃

/-- A scope is left again, and with it the locals that were declared in it. -/
theorem turns_inFrameScope {inside : Emit α} (h : GrowsFrame inside) (f : Frame) :
    Turns f f.Kept (inFrameScope inside) := by
  intro o s below hs
  obtain ⟨g, hg, hgrows⟩ := h f.push o { s with frames := f.push :: below } below rfl
  refine ⟨g.pop, framesAfter_bracket (changeFrame_apply Frame.push o hs) ?_, hgrows.pop⟩
  intro s₂ hs₂
  exact ⟨_, changeFrame_apply Frame.pop o (hs₂.trans hg), rfl⟩

theorem grows_inFrameScope {inside : Emit α} (h : GrowsFrame inside) :
    GrowsFrame (inFrameScope inside) :=
  fun f => (turns_inFrameScope h f).mono fun _ hkept => hkept.grows

/-- A call runs in a frame of its own, which is gone when it ends. -/
theorem leaves_inFrame {inside : Emit α} (f : Frame) (h : GrowsFrame inside) :
    LeavesFrames (bracket (pushFrame f) popFrame inside) := by
  intro o s
  obtain ⟨g, hg, -⟩ := h f o { s with frames := f :: s.frames } s.frames rfl
  refine framesAfter_bracket rfl fun s₂ hs₂ => ⟨_, rfl, ?_⟩
  show s₂.frames.drop 1 = s.frames
  rw [hs₂, hg]
  rfl

/-! ## Locals -/

theorem grows_declareKnown (name : String) (value : Constant) (isVar : Bool) :
    GrowsFrame (declareKnown name value isVar) := by
  intro f
  refine turns_frame_bind ?_
  split
  · rename_i f' hf'
    refine (turns_setFrame (Frame.declare?_grows hf')).bind (fun _ h => h) fun _ f' hgrows => ?_
    exact (LeavesFrames.pure true).turns hgrows
  · exact (LeavesFrames.pure false).turns (.refl f)

theorem leaves_assignedName (lhs : Expr) : LeavesFrames (assignedName lhs) := by
  unfold assignedName
  split
  · exact leaves_require _ _ _
  · exact leaves_refuse _ _

theorem assignedType_apply (name : Ident) (o : Options) {s : Compiler} {below : List Frame}
    (hs : s.frames = f :: below) :
    (∃ l, f.get? name.text = some l ∧ l.isVar = true ∧
      assignedType name o s = .ok l.value.type s) ∨ ∃ e, assignedType name o s = .error e s := by
  unfold assignedType
  rw [bind_apply, frame_apply o hs]
  dsimp only
  cases hl : f.get? name.text with
  | none => exact .inr ⟨_, rfl⟩
  | some l =>
    dsimp only
    split
    · rename_i hvar
      exact .inl ⟨l, rfl, hvar, rfl⟩
    · exact .inr ⟨_, rfl⟩

/-- Assignment goes on only with the type of a variable. -/
theorem turns_assignedType {name : Ident} {k : Ty → Emit β} (hf : R f)
    (h : ∀ l, f.get? name.text = some l → l.isVar = true → Turns f R (k l.value.type)) :
    Turns f R (assignedType name >>= k) := by
  intro o s below hs
  rw [framesAfter_bind]
  rcases assignedType_apply name o hs with ⟨l, hl, hvar, hrun⟩ | ⟨e, hrun⟩
  · rw [hrun]
    exact h l hl hvar o s below hs
  · rw [hrun]
    exact ⟨f, hs, hf⟩

/-- What is assigned has the type of the variable. -/
theorem turns_assignKnown {name : Ident} {l : KnownLocal} {value : Constant} {range : Span}
    (hl : f.get? name.text = some l) (hvar : l.isVar = true) :
    Turns f f.Grows (do
      if value.type ≠ l.value.type then mismatch l.value.type value.type range
      assignKnown name value
      return Flow.normal) := by
  have hassign (htype : value.type = l.value.type) :
      Turns f f.Grows (do assignKnown name value; return Flow.normal) := by
    refine Turns.bind (R := f.Grows) (turns_frame_bind ?_) (fun _ h => h) fun _ f' hf' =>
      (LeavesFrames.pure _).turns hf'
    cases hset : f.set? name.text value with
    | none => exact (leaves_refuse _ _).turns (.refl f)
    | some f' => exact turns_setFrame (Frame.set?_kept hl hvar htype hset).grows
  split
  · exact LeavesFrames.turns (fun _ _ => rfl) (.refl f)
  · rename_i htype
    exact hassign (Decidable.not_not.mp htype)

/-! ## Loops -/

theorem grows_afterBody (tag : Option Ident) (flow : Flow) {next : Emit Flow}
    (hnext : GrowsFrame next) : GrowsFrame (afterBody tag flow next) := by
  have hstop (flow : Flow) : GrowsFrame (return flow : Emit Flow) := (LeavesFrames.pure flow).grows
  unfold afterBody
  split
  · exact hnext
  · exact .ite (hstop _) (hstop _)
  · exact .ite hnext (hstop _)
  · exact hstop _

theorem leaves_refuseLoop (range : Span) : LeavesFrames (refuseLoop range : Emit α) :=
  leaves_read.bind fun _ => leaves_refuse _ _

theorem grows_runWhile {condition : Emit Bool} {body : Emit Flow} (range : Span)
    (tag : Option Ident) (hcondition : LeavesFrames condition) (hbody : GrowsFrame body) :
    ∀ left : Nat, GrowsFrame (runWhile range tag condition body left) := by
  intro left
  induction left with
  | zero => exact (leaves_refuseLoop range).grows
  | succ left ih =>
    refine hcondition.grows.bind fun holds => .ite ?_ (LeavesFrames.pure _).grows
    exact hbody.bind fun flow => grows_afterBody tag flow ih

theorem grows_runItems {body : Nat → Constant → Emit Flow} (range : Span) (tag : Option Ident)
    (item? : Nat → Option Constant) (hbody : ∀ i v, GrowsFrame (body i v)) :
    ∀ left position : Nat, GrowsFrame (runItems range tag item? body position left) := by
  intro left
  induction left with
  | zero =>
    intro position
    unfold runItems
    split
    · exact (LeavesFrames.pure _).grows
    · exact (leaves_refuseLoop range).grows
  | succ left ih =>
    intro position
    unfold runItems
    split
    · exact (LeavesFrames.pure _).grows
    · exact (hbody position _).bind fun flow => grows_afterBody tag flow (ih (position + 1))

theorem leaves_loopItems (c : Constant) (range : Span) : LeavesFrames (loopItems c range) := by
  unfold loopItems
  split
  · exact .pure _
  · exact .pure _
  · exact leaves_refuse _ _

theorem leaves_knownInitial (name : Ident) (declared : Option Ty) {value : Option (Emit Constant)}
    (range : Span) (hvalue : ∀ a, value = some a → LeavesFrames a) :
    LeavesFrames (knownInitial name declared value range) := by
  unfold knownInitial
  split
  · exact hvalue _ rfl
  · exact leaves_types.bind fun t => leaves_orRefuse _ range
  · exact leaves_refuse _ _

/-! ## Sentences -/

variable {call : Caller} {view : Viewpoint}

theorem grows_localVar (hcall : LeavesCallers call) (range : Span) (name : Ident)
    (type : Option TypeExpr) (value : Option Expr) (isVar isRef : Bool) :
    GrowsFrame (runSentenceWith call view (.localVar range name type value isVar isRef)) := by
  have hinitial (declared : Option Ty) : LeavesFrames (knownInitial name declared
      (value.map (evaluateWith call view · declared)) range) := by
    refine leaves_knownInitial name declared range fun a ha => ?_
    obtain ⟨e, -, rfl⟩ := Option.map_eq_some_iff.mp ha
    exact leaves_evaluateWith hcall e declared
  have hdeclare (v : Constant) : GrowsFrame (do
      unless ← declareKnown name.text v isVar do
        refuse (.duplicateLocal name.text none) name.range
      return Flow.normal) :=
    (grows_declareKnown name.text v isVar).bind fun free => (leaves_unless (.pure _)).grows
  unfold runSentenceWith
  refine .ite (LeavesFrames.grows fun _ _ => rfl) ?_
  cases type with
  | none => exact (hinitial none).grows.bind hdeclare
  | some ty =>
    refine (leaves_resolveTypeWith hcall ty).map.grows.bind fun declared => ?_
    refine (hinitial declared).grows.bind fun v => ?_
    cases declared with
    | none => exact hdeclare v
    | some ty => exact .ite (LeavesFrames.grows fun _ _ => rfl) (hdeclare v)

theorem grows_opAssign (hcall : LeavesCallers call) (range : Span) (op : BinaryOp)
    (lhs rhs : Expr) : GrowsFrame (runSentenceWith call view (.opAssign range op lhs rhs)) := by
  intro f
  unfold runSentenceWith
  refine .after (leaves_assignedName lhs) (.refl f) fun name => ?_
  refine turns_assignedType (.refl f) fun l hl hvar => ?_
  refine .after (leaves_evaluateWith hcall lhs _) (.refl f) fun current => ?_
  refine .after (leaves_evaluateWith hcall rhs _) (.refl f) fun v => ?_
  refine .after leaves_types (.refl f) fun t => ?_
  refine .after (leaves_orRefuse _ range) (.refl f) fun _ => ?_
  refine .after leaves_types (.refl f) fun t => ?_
  refine .after (leaves_orRefuseFold _ range) (.refl f) fun result => ?_
  exact turns_assignKnown hl hvar

theorem grows_times (hcall : LeavesCallers call) (range : Span) (count : Expr)
    (index : Option Ident) {body : List Sentence} (tag : Option Ident)
    (hbody : GrowsFrame (inFrameScope (runSentencesWith call view body))) :
    GrowsFrame (runSentenceWith call view (.times range count index body tag)) := by
  unfold runSentenceWith
  refine (leaves_evaluateWith hcall count _).grows.bind fun c => ?_
  refine leaves_types.grows.bind fun t => .ite ?_ (LeavesFrames.grows fun _ _ => rfl)
  refine (leaves_require _ _ _).grows.bind fun total => leaves_read.grows.bind fun o => ?_
  refine grows_runItems range tag _ (fun i v => grows_inFrameScope ?_) _ _
  cases index with
  | none => exact hbody
  | some name => exact (grows_declareKnown name.text v false).bind fun _ => hbody

theorem grows_eachOf (hcall : LeavesCallers call) (range : Span) (iterable : Expr) (item : Ident)
    (index : Option Ident) {body : List Sentence} (tag : Option Ident)
    (hbody : GrowsFrame (inFrameScope (runSentencesWith call view body))) :
    GrowsFrame (runSentenceWith call view (.forIn range iterable item index body tag)) := by
  unfold runSentenceWith
  refine (leaves_evaluateWith hcall iterable _).grows.bind fun c => ?_
  refine (leaves_loopItems c range).grows.bind fun items => leaves_read.grows.bind fun o => ?_
  refine grows_runItems range tag _ (fun i v => grows_inFrameScope ?_) _ _
  refine (grows_declareKnown item.text v false).bind fun _ => ?_
  cases index with
  | none => exact hbody
  | some name => exact (grows_declareKnown name.text _ false).bind fun _ => hbody

mutual

theorem grows_runSentencesWith (hcall : LeavesCallers call) :
    ∀ body : List Sentence, GrowsFrame (runSentencesWith call view body)
  | [] => by
    unfold runSentencesWith
    exact (LeavesFrames.pure _).grows
  | s :: rest => by
    unfold runSentencesWith
    refine (grows_runSentenceWith hcall s).bind fun flow => ?_
    split
    · exact grows_runSentencesWith hcall rest
    · exact (LeavesFrames.pure _).grows

theorem grows_runSentenceWith (hcall : LeavesCallers call) :
    ∀ s : Sentence, GrowsFrame (runSentenceWith call view s)
  | .localVar range name type value isVar isRef =>
    grows_localVar hcall range name type value isVar isRef
  | .assign _ lhs rhs => by
    intro f
    unfold runSentenceWith
    refine .after (leaves_assignedName lhs) (.refl f) fun name => ?_
    refine turns_assignedType (.refl f) fun l hl hvar => ?_
    refine .after (leaves_evaluateWith hcall rhs _) (.refl f) fun v => ?_
    exact turns_assignKnown hl hvar
  | .opAssign range op lhs rhs => grows_opAssign hcall range op lhs rhs
  | .expr _ e => by
    unfold runSentenceWith
    exact ((leaves_evaluateWith hcall e _).bind fun _ => .pure _).grows
  | .cond _ branches otherwise => by
    unfold runSentenceWith
    refine grows_runBranchesWith hcall branches ?_
    cases otherwise with
    | none => exact (LeavesFrames.pure _).grows
    | some body => exact grows_inFrameScope (grows_runSentencesWith hcall body)
  | .whileDo range condition body tag => by
    unfold runSentenceWith
    refine leaves_read.grows.bind fun o => grows_runWhile range tag ?_ ?_ _
    · exact (leaves_evaluateWith hcall condition _).bind fun c => leaves_asCondition c _
    · exact grows_inFrameScope (grows_runSentencesWith hcall body)
  | .loop range body tag => by
    unfold runSentenceWith
    refine leaves_read.grows.bind fun o => grows_runWhile range tag (.pure true) ?_ _
    exact grows_inFrameScope (grows_runSentencesWith hcall body)
  | .times range count index body tag =>
    grows_times hcall range count index tag (grows_inFrameScope (grows_runSentencesWith hcall body))
  | .forIn range iterable item index body tag =>
    grows_eachOf hcall range iterable item index tag
      (grows_inFrameScope (grows_runSentencesWith hcall body))
  | .breakLoop _ _ | .continueLoop _ _ => by
    unfold runSentenceWith
    exact (LeavesFrames.pure _).grows
  | .give _ value => by
    unfold runSentenceWith
    refine leaves_frame.grows.bind fun f => ?_
    cases value with
    | none => exact (LeavesFrames.pure _).grows
    | some e => exact ((leaves_evaluateWith hcall e _).bind fun _ => .pure _).grows
  | .block _ body => by
    unfold runSentenceWith
    exact grows_inFrameScope (grows_runSentencesWith hcall body)
  | .todo range message => by
    unfold runSentenceWith
    exact ((leaves_unfinished message range).bind fun _ => .pure _).grows

theorem grows_runBranchesWith (hcall : LeavesCallers call) :
    ∀ (branches : List Branch) {otherwise : Emit Flow}, GrowsFrame otherwise →
      GrowsFrame (runBranchesWith call view branches otherwise)
  | [], otherwise, h => by
    unfold runBranchesWith
    exact h
  | .mk condition body :: rest, otherwise, h => by
    unfold runBranchesWith
    refine (leaves_evaluateWith hcall condition _).grows.bind fun c => ?_
    refine (leaves_asCondition c _).grows.bind fun holds => .ite ?_ ?_
    · exact grows_inFrameScope (grows_runSentencesWith hcall body)
    · exact grows_runBranchesWith hcall rest h

end

/-! ## Calls -/

theorem leaves_bindArgs (f : PrerunFunction) (range : Span) (frame : Frame) :
    ∀ (params : List PrerunArg) (args : List Constant),
      LeavesFrames (bindArgs f range frame params args) := by
  intro params
  induction params generalizing frame with
  | nil =>
    intro args
    unfold bindArgs
    exact .pure frame
  | cons p params ih =>
    intro args
    unfold bindArgs
    cases args with
    | nil => exact .pure frame
    | cons v args => exact leaves_guard (ih _ args)

theorem leaves_callResult (f : PrerunFunction) (range : Span) (flow : Flow) :
    LeavesFrames (callResult f range flow) := by
  have hnothing : LeavesFrames (if f.result = .void then return .void
      else refuse (.prerunNoGive f.fullName f.result) range : Emit Constant) :=
    .ite (.pure _) (leaves_refuse _ _)
  unfold callResult
  split
  · exact .ite (leaves_mismatch _ _ _) (.pure _)
  · exact hnothing
  · exact hnothing
  · exact leaves_refuse _ _
  · exact leaves_refuse _ _

/-- A call leaves the calls it is made from as they are, whatever it runs into. -/
theorem leaves_callKnown : ∀ left : Nat, LeavesCallers (callKnown left) := by
  intro left
  induction left with
  | zero => exact fun f args range => leaves_read.bind fun _ => leaves_refuse _ _
  | succ left ih =>
    intro f args range
    refine (leaves_bindArgs f range _ f.args args).bind fun frame => ?_
    refine (leaves_inFrame frame (grows_inFrameScope (grows_runSentencesWith ih f.body))).bind
      fun flow => ?_
    exact leaves_callResult f range flow

/-- Whatever is evaluated inside a call, and however it ends: the calls below are as they
were, with all their locals. An expression leaves the frame on top as it was too; a body
leaves it with the same scopes of the same locals, of which only variables may have other
values, of their types. -/
theorem evaluation_balanced (o : Options) (left : Nat) (view : Viewpoint) {s : Compiler}
    {top : Frame} {below : List Frame} (hs : s.frames = top :: below) :
    (∀ e expected,
      framesAfter (evaluateWith (callKnown left) view e expected) o s = top :: below) ∧
    ∀ body, ∃ top',
      framesAfter (inFrameScope (runSentencesWith (callKnown left) view body)) o s =
        top' :: below ∧ top.Kept top' := by
  constructor
  · intro e expected
    exact (leaves_evaluateWith (leaves_callKnown left) e expected o s).trans hs
  · intro body
    exact turns_inFrameScope (grows_runSentencesWith (leaves_callKnown left) body) top o s below hs

/-- A call with one variable, which has this value. -/
def counter (n : Int) : Frame where
  function := "app::p"
  result := .void
  inner := [("n", ⟨.int .i32 n, true⟩)]

/-- Setting the variable and leaving by a `break` changes its value and nothing else. -/
theorem evaluation_balanced_break :
    let range : Span := ⟨0, 0, 0⟩
    let n : Expr := .entity range ⟨0, [⟨"n", range⟩], range⟩
    let body : List Sentence := [.assign range n (.int range 2 none), .breakLoop range none]
    let s : Compiler := { Compiler.ofOptions {} with frames := [counter 1] }
    framesAfter (inFrameScope (runSentencesWith (callKnown 0) ⟨0, none⟩ body)) {} s =
        [counter 2] ∧
      (counter 1).Kept (counter 2) ∧
      framesAfter (evaluateWith (callKnown 0) ⟨0, none⟩ n none) {} s = [counter 1] := by
  intro range n body s
  have hrun : framesAfter (inFrameScope (runSentencesWith (callKnown 0) ⟨0, none⟩ body)) {} s =
      [counter 2] := by
    rfl
  obtain ⟨hexpr, hbody⟩ := evaluation_balanced {} 0 ⟨0, none⟩ (show s.frames = [counter 1] from rfl)
  obtain ⟨top, hafter, hkept⟩ := hbody body
  rw [hrun] at hafter
  cases hafter
  exact ⟨hrun, hkept, hexpr n none⟩

end Staged.Emit
