/-
  Staged.Proofs.Lowering.Calls — compile-time calls.

  The collector follows scopes with a list of names; a running call has a frame with
  scopes. The frame of a body has, scope for scope, at least the names that the collector
  counts as locals (`Frame.Has`): a scope that is entered is left again, a local that is
  declared is there from then on, and an assignment changes no names. So a body asks only
  for what its uses mean, and by induction on the number of calls that may nest, so does a
  call.
-/

import Staged.Proofs.Jumps.Run
import Staged.Proofs.Lowering.Evaluate

open Std.Do

set_option mvcgen.warning false

namespace Staged

/-! ## The names of a frame -/

namespace Frame

def ScopeHas (names : List String) (scope : Scope) : Prop :=
  ∀ n ∈ names, (scope.lookup n).isSome = true

/-- The scopes of a frame, innermost first, have at least these names. -/
def Has (f : Frame) (scopes : List (List String)) : Prop :=
  List.Forall₂ ScopeHas scopes (f.inner :: f.outer)

variable {f f' : Frame} {names : List String} {scopes : List (List String)} {name : String}
  {value : Constant}

theorem Has.push (h : f.Has scopes) : f.push.Has ([] :: scopes) := by
  refine .cons ?_ h
  intro n hn
  cases hn

theorem Has.pop {inner : List String} (h : f.Has (inner :: names :: scopes)) :
    f.pop.Has (names :: scopes) := by
  obtain ⟨function, result, innermost, outer⟩ := f
  cases h with
  | cons _ hrest =>
    cases hrest with
    | cons hs hrest => exact .cons hs hrest

theorem Has.sub {fewer : List String} (h : f.Has (names :: scopes)) (hsub : fewer ⊆ names) :
    f.Has (fewer :: scopes) := by
  cases h with
  | cons hs hrest => exact .cons (fun n hn => hs n (hsub hn)) hrest

theorem Has.isSome_get? (h : f.Has scopes) (hn : name ∈ scopes.flatten) :
    (f.get? name).isSome = true := by
  unfold Has at h
  unfold get?
  generalize f.inner :: f.outer = ss at h
  induction h with
  | nil => cases hn
  | cons hs _ ih =>
    rw [List.findSome?_cons]
    split
    · rfl
    · rename_i hnone
      rw [List.flatten_cons, List.mem_append] at hn
      refine ih (hn.resolve_left fun hmem => ?_)
      have hsome := hs name hmem
      rw [hnone] at hsome
      cases hsome

/-- A name is there after it was declared, whether or not it was free. -/
theorem Has.declare (h : f.Has (names :: scopes)) (name : String) (value : Constant)
    (isVar : Bool) :
    ((f.declare? name value isVar).getD f).Has ((name :: names) :: scopes) := by
  cases h with
  | cons hs hrest =>
    unfold declare?
    split
    · rename_i hsome
      refine .cons ?_ hrest
      intro n hn
      rcases List.mem_cons.mp hn with rfl | hn
      · exact hsome
      · exact hs n hn
    · refine .cons ?_ hrest
      intro n hn
      rw [Option.getD_some, List.lookup_cons]
      split
      · rfl
      · rename_i hne
        refine hs n ((List.mem_cons.mp hn).resolve_left ?_)
        rintro rfl
        simp at hne

theorem isSome_lookup_setIn (n : String) (scope : Scope) :
    ((setIn name value scope).lookup n).isSome = (scope.lookup n).isSome := by
  induction scope with
  | nil => rfl
  | cons entry rest ih =>
    obtain ⟨key, l⟩ := entry
    unfold setIn
    split
    · rw [List.lookup_cons, List.lookup_cons]
      split <;> rfl
    · rw [List.lookup_cons, List.lookup_cons]
      split
      · rfl
      · exact ih

theorem ScopeHas.setIn {scope : Scope} (h : ScopeHas names scope) :
    ScopeHas names (setIn name value scope) := by
  intro n hn
  rw [isSome_lookup_setIn]
  exact h n hn

theorem forall₂_setScopes {ss : List Scope} (h : List.Forall₂ ScopeHas scopes ss) :
    List.Forall₂ ScopeHas scopes (setScopes name value ss) := by
  induction h with
  | nil => exact .nil
  | cons hs hrest ih =>
    unfold setScopes
    split
    · exact .cons hs.setIn hrest
    · exact .cons hs ih

/-- Assigning to a name declares nothing and removes nothing. -/
theorem Has.set (h : f.Has scopes) (hf : f.set? name value = some f') : f'.Has scopes := by
  unfold set? at hf
  split at hf
  · cases hf
  · cases h with
    | cons hs hrest =>
      split at hf
      · cases hf
        exact .cons hs.setIn hrest
      · cases hf
        exact .cons hs (forall₂_setScopes hrest)

end Frame

/-! ## Settings inside a call -/

namespace Setting

/-- The setting of a body that runs above other calls, with at least these locals. -/
def within (w : Setting) (rest : List Frame) (scopes : List (List String)) : Setting :=
  { w with frames := fun fs => ∃ f, fs = f :: rest ∧ f.Has scopes }

variable {w : Setting} {rest : List Frame} {scopes : List (List String)} {names : List String}

theorem hasLocals_within {locals : List String} (hsub : locals ⊆ scopes.flatten) :
    (w.within rest scopes).HasLocals locals := by
  rintro fs ⟨f, rfl, hf⟩ n hn
  exact ⟨f, rfl, hf.isSome_get? (hsub hn)⟩

theorem Holds.sub {fewer : List String} {s : Compiler}
    (h : (w.within rest (names :: scopes)).Holds s) (hsub : fewer ⊆ names) :
    (w.within rest (fewer :: scopes)).Holds s := by
  obtain ⟨ho, ⟨f, hf, hhas⟩, hc⟩ := h
  exact ⟨ho, ⟨f, hf, hhas.sub hsub⟩, hc⟩

def loose (w : Setting) : Setting := { w with frames := fun _ => True }

end Setting

namespace Emit

variable {w : Setting} {rest : List Frame} {scopes : List (List String)} {names : List String}

/-- Leaving a scope or a call happens whether or not what is inside fails. -/
theorem gives_bracket {α : Type} {inner : Setting} {before after : Emit Unit} {inside : Emit α}
    {Q : α → Prop} (ho : inner.outer = w.outer) (hb : inner.blames = w.blames)
    (hstrays : inner.strays = w.strays) (hc : inner.code = w.code)
    (hbefore : ⦃fun _ s => ⌜w.Holds s⌝⦄ before
      ⦃post⟨fun _ _ s => ⌜inner.Holds s⌝,
        fun f s => ⌜s.outer = w.outer ∧ w.Allows f ∧ w.code s.core⌝⟩⦄)
    (hinside : inner.Gives inside Q)
    (hafter : ⦃fun _ s => ⌜inner.Holds s⌝⦄ after
      ⦃post⟨fun _ _ s => ⌜w.Holds s⌝,
        fun f s => ⌜s.outer = inner.outer ∧ inner.Allows f ∧ inner.code s.core⌝⟩⦄)
    (hanyway : w.loose.Keeps after) :
    w.Gives (bracket before after inside) Q := by
  have hallows {f : Failure} (hf : inner.Allows f) : w.Allows f := by
    unfold Setting.Allows at *
    rwa [ho, hb, hstrays] at hf
  refine triple_iff.mpr fun o s hs => ?_
  rw [bracket_apply]
  have h1 := triple_iff.mp hbefore o s hs
  cases hr : before o s with
  | error e s1 =>
    rw [hr] at h1
    exact h1
  | ok _ s1 =>
    rw [hr] at h1
    have h2 := triple_iff.mp hinside o s1 h1
    dsimp only
    cases hr2 : inside o s1 with
    | ok v s2 =>
      rw [hr2] at h2
      have h3 := triple_iff.mp hafter o s2 h2.1
      dsimp only
      cases hr3 : after o s2 with
      | ok _ s3 =>
        rw [hr3] at h3
        exact ⟨h3, h2.2⟩
      | error e s3 =>
        rw [hr3] at h3
        exact ⟨ho ▸ h3.1, hallows h3.2.1, hc ▸ h3.2.2⟩
    | error e s2 =>
      rw [hr2, ho, hc] at h2
      have h3 := triple_iff.mp hanyway o s2 ⟨h2.1, trivial, h2.2.2⟩
      dsimp only
      cases hr3 : after o s2 with
      | ok _ s3 =>
        rw [hr3] at h3
        exact ⟨h3.1, hallows h2.2.1, h3.2.2⟩
      | error e s3 =>
        rw [hr3] at h3
        exact h3

theorem keeps_leaveScope : w.loose.Keeps (do setFrame (← frame).pop) := by
  mvcgen [setFrame, frame]
  case vc2.post.success.h_1 =>
    rename_i h _
    exact ⟨h.1.1, trivial, h.1.2.2⟩
  all_goals simp_all

theorem frame_apply {f : Frame} {s : Compiler} (o : Options) (hf : s.frames = f :: rest) :
    frame o s = .ok f s := by
  cases s
  cases hf
  rfl

/-- Only the frame on top is replaced. -/
theorem changeFrame_apply (change : Frame → Frame) {f : Frame} {s : Compiler} (o : Options)
    (hf : s.frames = f :: rest) :
    (do setFrame (change (← frame)) : Emit Unit) o s =
      .ok () { s with frames := change f :: rest } := by
  rw [bind_apply, frame_apply o hf]
  show EStateM.Result.ok () { s with frames := change f :: s.frames.drop 1 } = _
  rw [hf]
  rfl

@[spec] theorem runs_frame :
    ⦃fun _ s => ⌜(w.within rest scopes).Holds s⌝⦄ frame
    ⦃post⟨fun f _ s => ⌜(w.within rest scopes).Holds s ∧ s.frames = f :: rest ∧ f.Has scopes⌝,
      fun f s => ⌜s.outer = (w.within rest scopes).outer ∧ (w.within rest scopes).Allows f ∧
        (w.within rest scopes).code s.core⌝⟩⦄ := by
  refine triple_iff.mpr fun o s hs => ?_
  obtain ⟨f, hf, hhas⟩ := hs.2.1
  rw [frame_apply o hf]
  exact ⟨hs, hf, hhas⟩

theorem runs_setFrame {f : Frame} {more : List (List String)} (hf : f.Has more) :
    ⦃fun _ s => ⌜(w.within rest scopes).Holds s⌝⦄ setFrame f
    ⦃post⟨fun _ _ s => ⌜(w.within rest more).Holds s⌝,
      fun f s => ⌜s.outer = (w.within rest scopes).outer ∧ (w.within rest scopes).Allows f ∧
        (w.within rest scopes).code s.core⌝⟩⦄ := by
  refine triple_iff.mpr fun o s hs => ?_
  obtain ⟨ho, ⟨g, hg, -⟩, hc⟩ := hs
  refine ⟨ho, ⟨f, ?_, hf⟩, hc⟩
  show f :: s.frames.drop 1 = f :: rest
  rw [hg]
  rfl

theorem keeps_inFrameScope {α : Type} {inside : Emit α}
    (h : (w.within rest ([] :: names :: scopes)).Keeps inside) :
    (w.within rest (names :: scopes)).Keeps (inFrameScope inside) := by
  refine (@gives_bracket (w.within rest (names :: scopes)) α
    (w.within rest ([] :: names :: scopes)) _ _ _ _ rfl rfl rfl rfl ?_ h.gives ?_ keeps_leaveScope).keeps
  · have hset (f : Frame) (hf : f.Has (names :: scopes)) :=
      @runs_setFrame w rest (names :: scopes) _ _ hf.push
    mvcgen [hset] <;> simp_all
  · have hset (f : Frame) (hf : f.Has ([] :: names :: scopes)) :=
      @runs_setFrame w rest ([] :: names :: scopes) _ _ hf.pop
    mvcgen [hset] <;> simp_all

theorem runs_declareKnown (names : List String) (name : String) (value : Constant)
    (isVar : Bool) :
    ⦃fun _ s => ⌜(w.within rest (names :: scopes)).Holds s⌝⦄ declareKnown name value isVar
    ⦃post⟨fun _ _ s => ⌜(w.within rest ((name :: names) :: scopes)).Holds s⌝,
      fun f s => ⌜s.outer = (w.within rest (names :: scopes)).outer ∧
        (w.within rest (names :: scopes)).Allows f ∧
        (w.within rest (names :: scopes)).code s.core⌝⟩⦄ := by
  have hset (f : Frame) (hf : f.Has ((name :: names) :: scopes)) :=
    @runs_setFrame w rest (names :: scopes) _ _ hf
  mvcgen [declareKnown, hset]
  case vc2.hf =>
    rename_i hsome _ _ h
    have := h.2.2.declare name value isVar
    rw [hsome] at this
    exact this
  case vc4.post.success.h_2 =>
    rename_i hnone _ _ h
    have := h.2.2.declare name value isVar
    rw [hnone] at this
    exact ⟨h.1.1, ⟨_, h.2.1, this⟩, h.1.2.2⟩
  all_goals simp_all

@[spec] theorem keeps_assignedName (lhs : Expr) : w.Keeps (assignedName lhs) := by
  mvcgen [assignedName] <;> simp_all

@[spec] theorem keeps_assignedType (name : Ident) :
    (w.within rest scopes).Keeps (assignedType name) := by
  mvcgen [assignedType] <;> simp_all

@[spec] theorem keeps_assignKnown (name : Ident) (value : Constant) :
    (w.within rest scopes).Keeps (assignKnown name value) := by
  have hset (f : Frame) (hf : f.Has scopes) := @runs_setFrame w rest scopes _ _ hf
  mvcgen [assignKnown, hset]
  case vc5 =>
    rename_i h _
    exact fun _ _ _ hf => h.2.2.set hf
  all_goals
    rename_i h
    exact h.1

/-! ## Loops -/

theorem keeps_afterBody {next : Emit Flow} (hnext : w.Keeps next) (tag : Option Ident)
    (flow : Flow) : w.Keeps (afterBody tag flow next) := by
  mvcgen [afterBody, hnext]

theorem keeps_refuseLoop {α : Type} (range : Span) : w.Keeps (refuseLoop range : Emit α) := by
  mvcgen [refuseLoop]
  simp_all

theorem keeps_runWhile {condition : Emit Bool} {body : Emit Flow} (range : Span)
    (tag : Option Ident) (hcondition : w.Keeps condition) (hbody : w.Keeps body) :
    ∀ left : Nat, w.Keeps (runWhile range tag condition body left) := by
  intro left
  induction left with
  | zero => exact keeps_refuseLoop range
  | succ left ih =>
    have hafter (flow : Flow) := keeps_afterBody ih tag flow
    mvcgen [runWhile, hcondition, hbody, hafter]

theorem keeps_runItems {body : Nat → Constant → Emit Flow} (range : Span) (tag : Option Ident)
    (item? : Nat → Option Constant) (hbody : ∀ i v, w.Keeps (body i v)) :
    ∀ left position : Nat, w.Keeps (runItems range tag item? body position left) := by
  intro left
  induction left with
  | zero =>
    intro position
    have hrefuse := keeps_refuseLoop (w := w) (α := Flow) range
    mvcgen [runItems, hrefuse]
  | succ left ih =>
    intro position
    have hafter (flow : Flow) := keeps_afterBody (ih (position + 1)) tag flow
    mvcgen [runItems, hbody, hafter]

@[spec] theorem keeps_loopItems (c : Constant) (range : Span) : w.Keeps (loopItems c range) := by
  mvcgen [loopItems] <;> simp_all

theorem keeps_knownInitial (name : Ident) (declared : Option Ty)
    {value : Option (Emit Constant)} (range : Span) (hv : ∀ a, value = some a → w.Keeps a) :
    w.Keeps (knownInitial name declared value range) := by
  cases value with
  | none => mvcgen [knownInitial] <;> simp_all
  | some a =>
    have ha := hv a rfl
    mvcgen [knownInitial, ha]

/-! ## Sentences -/

variable {call : Caller} {view : Viewpoint} {phase : Phase} {locals : List String}

abbrev Steps (w : Setting) (rest : List Frame) (scopes : List (List String))
    (names declared : List String) (a : Emit Flow) : Prop :=
  ⦃fun _ s => ⌜(w.within rest (names :: scopes)).Holds s⌝⦄ a
  ⦃post⟨fun flow _ s => ⌜(w.within rest (names :: scopes)).Holds s ∧
      (flow = .normal → (w.within rest ((declared ++ names) :: scopes)).Holds s)⌝,
    fun f s => ⌜s.outer = (w.within rest (names :: scopes)).outer ∧
      (w.within rest (names :: scopes)).Allows f ∧ (w.within rest (names :: scopes)).code s.core⌝⟩⦄

theorem steps_of_keeps {a : Emit Flow} (h : (w.within rest (names :: scopes)).Keeps a) :
    Steps w rest scopes names [] a := by
  refine triple_iff.mpr fun o s hs => ?_
  have := triple_iff.mp h o s hs
  cases hr : a o s <;> rw [hr] at this
  · exact ⟨this, fun _ => this⟩
  · exact this

theorem steps_localVar (range : Span) (name : Ident) (type : Option TypeExpr)
    (value : Option Expr) (isVar isRef : Bool)
    (htype : ∀ ty, type = some ty →
      (w.within rest (names :: scopes)).Keeps (resolveTypeWith call view ty))
    (hvalue : ∀ e, value = some e → ∀ expected,
      (w.within rest (names :: scopes)).Keeps (evaluateWith call view e expected)) :
    Steps w rest scopes names [name.text]
      (runSentenceWith call view (.localVar range name type value isVar isRef)) := by
  have hinitial (declared : Option Ty) : (w.within rest (names :: scopes)).Keeps
      (knownInitial name declared (value.map (evaluateWith call view · declared)) range) := by
    refine keeps_knownInitial name declared range fun a ha => ?_
    obtain ⟨e, he, rfl⟩ := Option.map_eq_some_iff.mp ha
    exact hvalue e he declared
  have hdeclare (v : Constant) :=
    @runs_declareKnown w rest scopes names name.text v isVar
  have hdrop {s : Compiler} (h : (w.within rest ((name.text :: names) :: scopes)).Holds s) :=
    h.sub (List.subset_cons_self name.text names)
  cases type with
  | none =>
    mvcgen [runSentenceWith, hinitial, hdeclare]
    case vc11.none.isFalse.post.success.post.success.isTrue h => exact ⟨hdrop h, h⟩
    all_goals simp_all
  | some ty =>
    have hty := htype ty rfl
    mvcgen [runSentenceWith, hty, hinitial, hdeclare]
    case vc25.some.isFalse.post.success.post.success.isFalse.post.success.isTrue h =>
      exact ⟨hdrop h, h⟩
    all_goals simp_all

theorem keeps_assign (range : Span) (lhs : Expr) {rhs : Expr}
    (hrhs : ∀ expected,
      (w.within rest (names :: scopes)).Keeps (evaluateWith call view rhs expected)) :
    (w.within rest (names :: scopes)).Keeps
      (runSentenceWith call view (.assign range lhs rhs)) := by
  mvcgen [runSentenceWith, hrhs]
  simp_all

theorem keeps_opAssign (range : Span) (op : BinaryOp) {lhs rhs : Expr}
    (hlhs : ∀ expected,
      (w.within rest (names :: scopes)).Keeps (evaluateWith call view lhs expected))
    (hrhs : ∀ expected,
      (w.within rest (names :: scopes)).Keeps (evaluateWith call view rhs expected)) :
    (w.within rest (names :: scopes)).Keeps
      (runSentenceWith call view (.opAssign range op lhs rhs)) := by
  mvcgen [runSentenceWith, hlhs, hrhs] <;> simp_all

/-- The body of a loop over a count runs where the index has a name. -/
theorem keeps_timesIteration {index : Option Ident} {body : Emit Flow} (v : Constant)
    (hbody : (w.within rest (identTexts index :: names :: scopes)).Keeps (inFrameScope body)) :
    (w.within rest (names :: scopes)).Keeps (inFrameScope do
      if let some n := index then
        let _ ← declareKnown n.text v false
      inFrameScope body) := by
  refine keeps_inFrameScope ?_
  cases index with
  | none => exact hbody
  | some n =>
    have hindex := @runs_declareKnown w rest (names :: scopes) [] n.text v false
    mvcgen [hbody, hindex]
    exact fun h => h.sub (List.nil_subset _)

/-- The body of a loop over items runs where the item and the index have names. -/
theorem keeps_forIteration {item : Ident} {index : Option Ident} {body : Emit Flow}
    (v i : Constant)
    (hbody : (w.within rest ((identTexts index ++ [item.text]) :: names :: scopes)).Keeps
      (inFrameScope body)) :
    (w.within rest (names :: scopes)).Keeps (inFrameScope do
      let _ ← declareKnown item.text v false
      if let some n := index then
        let _ ← declareKnown n.text i false
      inFrameScope body) := by
  refine keeps_inFrameScope ?_
  have hitem := @runs_declareKnown w rest (names :: scopes) [] item.text v false
  cases index with
  | none =>
    mvcgen [hbody, hitem]
    exact fun h => h.sub (List.nil_subset _)
  | some n =>
    have hindex := @runs_declareKnown w rest (names :: scopes) [item.text] n.text i false
    mvcgen [hbody, hitem, hindex]
    exact fun h => h.sub (List.nil_subset _)

mutual

theorem keeps_runSentencesWith (hcall : ∀ scopes, (w.within rest scopes).Calls call) :
    ∀ (ss : List Sentence) {locals names : List String} {scopes : List (List String)},
      locals ⊆ (names :: scopes).flatten → w.CoversAll view (sentencesUses phase locals ss) →
      w.CoversAll view (sentencesShadowedCalls phase locals ss) →
      (w.within rest (names :: scopes)).Keeps (runSentencesWith call view ss)
  | [], _, _, _, _, _, _ => by
    mvcgen [runSentencesWith]
  | s :: ss, locals, names, scopes, hsub, hu, hs => by
    simp only [sentencesUses, sentencesShadowedCalls, Setting.coversAll_append] at hu hs
    have hfirst := steps_runSentenceWith hcall s hsub hu.1 hs.1
    have hnext : s.declared ++ locals ⊆ ((s.declared ++ names) :: scopes).flatten := by
      rw [List.flatten_cons, List.append_assoc]
      exact List.append_subset.mpr ⟨List.subset_append_left _ _,
        fun n hn => List.mem_append_right _ (hsub hn)⟩
    have hrest := keeps_runSentencesWith hcall ss hnext hu.2 hs.2
    have hdrop {st : Compiler} (h : (w.within rest ((s.declared ++ names) :: scopes)).Holds st) :=
      h.sub (List.subset_append_right s.declared names)
    mvcgen [runSentencesWith, hfirst, hrest] <;> simp_all

theorem steps_runSentenceWith (hcall : ∀ scopes, (w.within rest scopes).Calls call) :
    ∀ (s : Sentence) {locals names : List String} {scopes : List (List String)},
      locals ⊆ (names :: scopes).flatten → w.CoversAll view (s.uses phase locals) →
      w.CoversAll view (s.shadowedCalls phase locals) →
      Steps w rest scopes names s.declared (runSentenceWith call view s)
  | .localVar range name type value isVar isRef, _, _, _, hsub, hu, hs => by
    simp only [Sentence.uses, Sentence.shadowedCalls, Setting.coversAll_append] at hu hs
    refine steps_localVar range name type value isVar isRef ?_ ?_
    · rintro ty rfl
      exact keeps_resolveTypeWith (hcall _) (Setting.hasLocals_within hsub) ty hu.1 hs.1
    · rintro e rfl
      exact keeps_evaluateWith (hcall _) (Setting.hasLocals_within hsub) e hu.2 hs.2
  | .assign range lhs rhs, _, _, _, hsub, hu, hs => by
    simp only [Sentence.uses, Sentence.shadowedCalls, Setting.coversAll_append] at hu hs
    exact steps_of_keeps (keeps_assign range lhs
      (keeps_evaluateWith (hcall _) (Setting.hasLocals_within hsub) rhs hu.2 hs.2))
  | .opAssign range op lhs rhs, _, _, _, hsub, hu, hs => by
    simp only [Sentence.uses, Sentence.shadowedCalls, Setting.coversAll_append] at hu hs
    exact steps_of_keeps (keeps_opAssign range op
      (keeps_evaluateWith (hcall _) (Setting.hasLocals_within hsub) lhs hu.1 hs.1)
      (keeps_evaluateWith (hcall _) (Setting.hasLocals_within hsub) rhs hu.2 hs.2))
  | .expr _ e, _, _, _, hsub, hu, hs => by
    refine steps_of_keeps ?_
    have he := keeps_evaluateWith (hcall _) (Setting.hasLocals_within hsub) e hu hs
    mvcgen [runSentenceWith, he]
  | .cond _ branches none, _, _, _, hsub, hu, hs => by
    simp only [Sentence.uses, Sentence.shadowedCalls, Setting.coversAll_append] at hu hs
    refine steps_of_keeps ?_
    unfold runSentenceWith
    exact keeps_runBranchesWith hcall branches hsub hu.1 hs.1 (by mvcgen)
  | .cond _ branches (some body), _, _, _, hsub, hu, hs => by
    simp only [Sentence.uses, Sentence.shadowedCalls, Setting.coversAll_append] at hu hs
    refine steps_of_keeps ?_
    unfold runSentenceWith
    exact keeps_runBranchesWith hcall branches hsub hu.1 hs.1
      (keeps_inFrameScope (keeps_runSentencesWith hcall body hsub hu.2 hs.2))
  | .whileDo range condition body tag, _, names, scopes, hsub, hu, hs => by
    simp only [Sentence.uses, Sentence.shadowedCalls, Setting.coversAll_append] at hu hs
    refine steps_of_keeps ?_
    have hc := keeps_evaluateWith (hcall _) (Setting.hasLocals_within hsub) condition hu.1 hs.1
    have hb := keeps_inFrameScope (keeps_runSentencesWith hcall body hsub hu.2 hs.2)
    have hcondition : (w.within rest (names :: scopes)).Keeps
        (do asCondition (← evaluateWith call view condition (some .bool)) condition.range) := by
      mvcgen [hc]
    have hwhile := keeps_runWhile range tag hcondition hb
    mvcgen [runSentenceWith, hwhile]
  | .loop range body tag, _, names, scopes, hsub, hu, hs => by
    refine steps_of_keeps ?_
    have hb := keeps_inFrameScope (keeps_runSentencesWith hcall body hsub hu hs)
    have hcondition : (w.within rest (names :: scopes)).Keeps (return true) := by
      mvcgen
    have hloop := keeps_runWhile range tag hcondition hb
    mvcgen [runSentenceWith, hloop]
  | .times range count index body tag, locals, names, scopes, hsub, hu, hs => by
    simp only [Sentence.uses, Sentence.shadowedCalls, Setting.coversAll_append] at hu hs
    refine steps_of_keeps ?_
    have hc := keeps_evaluateWith (hcall _) (Setting.hasLocals_within hsub) count hu.1 hs.1
    have hindex : identTexts index ++ locals ⊆ ([] :: identTexts index :: names :: scopes).flatten := by
      simp only [List.flatten_cons, List.nil_append] at hsub ⊢
      grind
    have hb := keeps_inFrameScope (keeps_runSentencesWith hcall body hindex hu.2 hs.2)
    mvcgen [runSentenceWith, hc, keeps_runItems]
    case vc5.hbody | vc10.hbody => exact Triple.iff.mp (keeps_timesIteration _ hb)
    all_goals simp_all
  | .forIn range iterable item index body tag, locals, names, scopes, hsub, hu, hs => by
    simp only [Sentence.uses, Sentence.shadowedCalls, Setting.coversAll_append] at hu hs
    refine steps_of_keeps ?_
    have hi := keeps_evaluateWith (hcall _) (Setting.hasLocals_within hsub) iterable hu.1 hs.1
    have hitem : item.text :: identTexts index ++ locals ⊆
        ([] :: (identTexts index ++ [item.text]) :: names :: scopes).flatten := by
      simp only [List.flatten_cons, List.nil_append] at hsub ⊢
      grind
    have hb := keeps_inFrameScope (keeps_runSentencesWith hcall body hitem hu.2 hs.2)
    mvcgen [runSentenceWith, hi, keeps_runItems]
    exact Triple.iff.mp (keeps_forIteration _ _ hb)
  | .give _ value, _, _, _, hsub, hu, hs => by
    refine steps_of_keeps ?_
    cases value with
    | none =>
      mvcgen [runSentenceWith]
      simp_all
    | some e =>
      have he := keeps_evaluateWith (hcall _) (Setting.hasLocals_within hsub) e hu hs
      mvcgen [runSentenceWith, he]
      simp_all
  | .block _ body, _, _, _, hsub, hu, hs => by
    refine steps_of_keeps ?_
    have hb := keeps_inFrameScope (keeps_runSentencesWith hcall body hsub hu hs)
    mvcgen [runSentenceWith, hb]
  | .breakLoop .., _, _, _, _, _, _ | .continueLoop .., _, _, _, _, _, _
  | .todo .., _, _, _, _, _, _ => by
    refine steps_of_keeps ?_
    mvcgen [runSentenceWith]

theorem keeps_runBranchesWith (hcall : ∀ scopes, (w.within rest scopes).Calls call)
    {otherwise : Emit Flow} :
    ∀ (bs : List Branch) {locals names : List String} {scopes : List (List String)},
      locals ⊆ (names :: scopes).flatten → w.CoversAll view (branchesUses phase locals bs) →
      w.CoversAll view (branchesShadowedCalls phase locals bs) →
      (w.within rest (names :: scopes)).Keeps otherwise →
      (w.within rest (names :: scopes)).Keeps (runBranchesWith call view bs otherwise)
  | [], _, _, _, _, _, _, ho => ho
  | .mk condition body :: bs, _, _, _, hsub, hu, hs, ho => by
    simp only [branchesUses, branchesShadowedCalls, Setting.coversAll_append] at hu hs
    have hc := keeps_evaluateWith (hcall _) (Setting.hasLocals_within hsub) condition hu.1.1 hs.1.1
    have hb := keeps_inFrameScope (keeps_runSentencesWith hcall body hsub hu.1.2 hs.1.2)
    have hbs := keeps_runBranchesWith hcall bs hsub hu.2 hs.2 ho
    mvcgen [runBranchesWith, hc, hb, hbs]

end

end Emit

/-! ## Calls -/

namespace Setting

variable (w : Setting)

/-- The jumps of a compile-time function stay in its body, or the setting allows that they do
not. -/
def Bounds (f : PrerunFunction) : Prop :=
  sentencesNested [] f.body = true ∨ w.strays (.fault (.jumpEscaped f.fullName) f.range)

/-- Every name in the body of a compile-time function means something that may be asked
for, and every jump finds its loop, unless the setting allows that it does not. -/
def CoversBody (f : PrerunFunction) (locals : List String) : Prop :=
  w.CoversAll { module := f.module } (sentencesUses .one locals f.body) ∧
  w.CoversAll { module := f.module } (sentencesShadowedCalls .one locals f.body) ∧
  w.Bounds f

/-- The bodies of compile-time functions ask only for what may be asked for. -/
def Sound : Prop := ∀ f, w.Callable f → w.CoversBody f (f.args.map (·.name.text))

end Setting

namespace Emit

variable {w : Setting}

theorem gives_bindArgs (f : PrerunFunction) (range : Span) :
    ∀ (params : List PrerunArg) (args : List Constant) (frame : Frame) (names : List String),
      frame.Has [names] → w.Gives (bindArgs f range frame params args)
        fun bound => bound.Has [(params.zip args).map (·.1.name.text) ++ names]
  | [], _, _, _, hf | _ :: _, [], _, _, hf => by
    mvcgen [bindArgs]
  | p :: params, v :: args, frame, names, hf => by
    have hsub : ((p :: params).zip (v :: args)).map (·.1.name.text) ++ names ⊆
        (params.zip args).map (·.1.name.text) ++ p.name.text :: names := by grind
    have hrest := (gives_bindArgs f range params args _ _
      (hf.declare p.name.text v p.isVar)).mono fun _ hbound => hbound.sub hsub
    mvcgen [bindArgs, hrest]
    simp_all

/-- A jump escapes only where the setting allows it. -/
theorem keeps_callResult (f : PrerunFunction) (range : Span) {flow : Flow}
    (h : flow.Within [] ∨ w.strays (.fault (.jumpEscaped f.fullName) f.range)) :
    w.Keeps (callResult f range flow) := by
  cases flow with
  | brk tag => exact (fails_stray rfl (h.resolve_left nofun)).keeps
  | cont tag => exact (fails_stray rfl (h.resolve_left nofun)).keeps
  | normal => mvcgen [callResult] <;> simp_all
  | give value => cases value <;> mvcgen [callResult] <;> simp_all

/-- A call runs in a frame of its own, with the arguments as locals. -/
theorem gives_callBody {call : Caller} {f : PrerunFunction} {frame : Frame}
    {locals : List String} (hw : w.Sound) (hcall : ∀ w' : Setting, w'.Sound → w'.Calls call)
    (hf : w.CoversBody f locals) (hframe : frame.Has [locals]) :
    w.Gives (bracket (pushFrame frame) popFrame
      (inFrameScope (runSentencesWith call { module := f.module } f.body))) fun flow =>
        flow.Within [] ∨ w.strays (.fault (.jumpEscaped f.fullName) f.range) := by
  refine triple_iff.mpr fun o s hs => ?_
  -- the frames below the call are those of this state
  have hexact : ({ w with frames := (· = s.frames) } : Setting).Gives (bracket (pushFrame frame)
      popFrame (inFrameScope (runSentencesWith call { module := f.module } f.body)))
      fun _ => True := by
    have hbody : (w.within s.frames [locals]).Keeps
        (inFrameScope (runSentencesWith call { module := f.module } f.body)) :=
      keeps_inFrameScope (keeps_runSentencesWith (fun _ => hcall _ hw) f.body
        (fun n hn => by simpa using hn) hf.1 hf.2.1)
    refine @gives_bracket _ _ (w.within s.frames [locals]) _ _ _ _ rfl rfl
      rfl rfl ?_ hbody.gives ?_ ?_
    · exact triple_iff.mpr fun _ _ h =>
        ⟨h.1, ⟨frame, congrArg (frame :: ·) h.2.1, hframe⟩, h.2.2⟩
    · refine triple_iff.mpr fun _ _ h => ⟨h.1, ?_, h.2.2⟩
      obtain ⟨-, ⟨g, hg, -⟩, -⟩ := h
      exact congrArg (List.drop 1) hg
    · exact triple_iff.mpr fun _ _ h => ⟨h.1, trivial, h.2.2⟩
  have hrun := triple_iff.mp hexact o s ⟨hs.1, rfl, hs.2.2⟩
  split
  · rename_i hr
    rw [hr] at hrun
    refine ⟨⟨hrun.1.1, hrun.1.2.1 ▸ hs.2.1, hrun.1.2.2⟩, hf.2.2.imp_left fun hnested => ?_⟩
    exact jumpsWithin_bracket _ _ (jumpsWithin_inFrameScope
      (jumpsWithin_runSentencesWith call { module := f.module } f.body hnested)) o s _ _ hr
  · rename_i hr
    rw [hr] at hrun
    exact hrun

theorem keeps_callSucc {left : Nat} {f : PrerunFunction} {args : List Constant}
    {locals : List String} (range : Span) (hw : w.Sound)
    (hcall : ∀ w' : Setting, w'.Sound → w'.Calls (callKnown left)) (hf : w.CoversBody f locals)
    (hlocals : locals ⊆ (f.args.zip args).map (·.1.name.text)) :
    w.Keeps (callKnown (left + 1) f args range) := by
  have hbind := gives_bindArgs (w := w) f range f.args args
    { function := f.fullName, result := f.result } [] (.cons (fun _ hn => by cases hn) .nil)
  rw [List.append_nil] at hbind
  have hbody (frame : Frame) (hframe : frame.Has [(f.args.zip args).map (·.1.name.text)]) :=
    gives_callBody hw hcall hf (hframe.sub hlocals)
  mvcgen [callKnown, hbind, hbody, keeps_callResult] <;> simp_all

@[spec] theorem keeps_callZero (f : PrerunFunction) (args : List Constant) (range : Span) :
    w.Keeps (callKnown 0 f args range) := by
  mvcgen [callKnown]
  simp_all

/-- Compile-time calls keep every setting in which their bodies ask only for what may be
asked for. -/
theorem calls_callKnown : ∀ (left : Nat) {w : Setting}, w.Sound → w.Calls (callKnown left) := by
  intro left
  induction left with
  | zero => exact fun _ f args range _ _ => keeps_callZero f args range
  | succ left ih =>
    intro w hw f args range hf hlen
    have hnames : (f.args.zip args).map (·.1.name.text) = f.args.map (·.name.text) :=
      calc (f.args.zip args).map (·.1.name.text)
          = ((f.args.zip args).map Prod.fst).map (·.name.text) := by rw [List.map_map]; rfl
        _ = f.args.map (·.name.text) := by rw [List.map_fst_zip hlen.ge]
    exact keeps_callSucc range hw (fun _ hw' => ih hw') (hw f hf) (hnames ▸ List.Subset.refl _)

/-! ## Evaluation from outside -/

variable {view : Viewpoint} {phase : Phase} {need : Need}

theorem hasLocals_nil : w.HasLocals [] := by
  intro fs _ n hn
  cases hn

theorem keeps_callPrerun {f : PrerunFunction} (args : List Constant) (range : Span)
    (hw : w.Sound) (hf : w.CoversBody f []) : w.Keeps (callPrerun f args range) := by
  have hcall : ∀ left : Nat, w.Keeps (callKnown left f args range)
    | 0 => keeps_callZero f args range
    | left + 1 => keeps_callSucc range hw (fun _ => calls_callKnown left) hf (List.nil_subset _)
  mvcgen [callPrerun, hcall]

theorem keeps_resolveType {ty : TypeExpr} (hw : w.Sound)
    (hu : w.CoversAll view (ty.uses phase [] need)) : w.Keeps (resolveType view ty) := by
  have hty (left : Nat) := keeps_resolveTypeWith (calls_callKnown left hw)
    hasLocals_nil ty hu (by rw [ty.shadowedCalls_nil]; exact w.coversAll_nil view)
  mvcgen [resolveType, hty]

theorem keeps_evaluate {e : Expr} (hw : w.Sound) (hu : w.CoversAll view (e.uses phase []))
    (expected : Option Ty) : w.Keeps (evaluate view e expected) := by
  have he (left : Nat) := keeps_evaluateWith (calls_callKnown left hw)
    hasLocals_nil e hu (by rw [e.shadowedCalls_nil]; exact w.coversAll_nil view)
  mvcgen [evaluate, he]

theorem gives_evaluateEach {es : List Expr} (hw : w.Sound)
    (hu : w.CoversAll view (exprsUses phase [] es)) (hints : List Ty) :
    w.Gives (evaluateEach view es hints) (·.length = es.length) := by
  have hes (left : Nat) := gives_evaluateEachWith (calls_callKnown left hw) hasLocals_nil es hu
    (by rw [exprsShadowedCalls_nil]; exact w.coversAll_nil view)
  mvcgen [evaluateEach, hes]

theorem keeps_evaluateCondition {e : Expr} (hw : w.Sound)
    (hu : w.CoversAll view (e.uses phase [])) : w.Keeps (evaluateCondition view e) := by
  have he := keeps_evaluate hw hu
  mvcgen [evaluateCondition, he]

end Emit

end Staged
