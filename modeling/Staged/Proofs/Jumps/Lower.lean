/-
  Staged.Proofs.Jumps.Lower — lowering a body with its jumps resolved in advance.

  While a body is lowered, the loops around a sentence stand on a stack of the function under
  construction, and a jump looks there for the blocks of its loop. `lowerSentencesIn` has no
  need of the stack: a loop hands the blocks it has made to its body, and a jump takes those
  of the innermost loop around it that it names.

  On nested bodies both are one and the same (`agrees_lowerSentences`). The stack holds the
  loops around a sentence whenever the sentence is lowered, since every sentence that does not
  fail leaves the stack as it found it. And as no jump misses its loop, lowering fails for
  none of the reasons of a jump, unless what runs at compile time does.
-/

import Staged.Proofs.Code.Sentence
import Staged.Proofs.Jumps.Run
import Staged.Proofs.Phis.Sentence

open Std.Do

set_option mvcgen.warning false

namespace Staged

open Ir (BlockId)

/-- The loop that a jump names: the innermost one, or the innermost one with its tag. -/
def innermost? (around : List LoopTargets) (tag : Option Ident) : Option LoopTargets :=
  around.find? fun l => Flow.targets (tag.map Ident.text) (l.tag.map Ident.text)

def tagsOf (around : List LoopTargets) : List (Option String) :=
  around.map fun l => l.tag.map Ident.text

namespace Emit

/-! ## Lowering with resolved jumps -/

def lowerWhileIn (condition : Operand) (body : LoopTargets → Emit Unit) (tag : Option Ident) :
    Emit Unit := do
  let condBlock ← newBlock "while.cond"
  let bodyBlock ← newBlock "while.body"
  let endBlock ← newBlock "while.end"
  jump condBlock
  switchTo condBlock
  let cond ← condition.condition
  branch cond.ir bodyBlock endBlock
  switchTo bodyBlock
  loopBody tag endBlock condBlock [] (body ⟨endBlock, condBlock, tag⟩)
  jump condBlock
  switchTo endBlock

def lowerLoopIn (body : LoopTargets → Emit Unit) (tag : Option Ident) : Emit Unit := do
  let bodyBlock ← newBlock "loop.body"
  let endBlock ← newBlock "loop.end"
  jump bodyBlock
  switchTo bodyBlock
  loopBody tag endBlock bodyBlock [] (body ⟨endBlock, bodyBlock, tag⟩)
  jump bodyBlock
  switchTo endBlock

def countedLoopIn (type : Ty) (index : Option Ident) (body : LoopTargets → Emit Unit)
    (tag : Option Ident) (holds : Ir.Value → Emit Ir.Register)
    (locals : Ir.Value → Emit (List LocalVar)) : Emit Unit := do
  let slot ← alloca type (some ((index.map Ident.text).getD "loop.index"))
  store (Ir.Const.int type 0) slot
  let condBlock ← newBlock "loop.cond"
  let bodyBlock ← newBlock "loop.body"
  let incrBlock ← newBlock "loop.incr"
  let restBlock ← newBlock "loop.rest"
  jump condBlock
  switchTo condBlock
  let counter ← load slot type
  let cond ← holds counter
  branch cond bodyBlock restBlock
  switchTo bodyBlock
  let counter ← load slot type
  let locals ← locals counter
  let indexLocal := index.toList.map fun name =>
    ({ name, address := slot, type, isVar := false, isRef := false } : LocalVar)
  loopBody tag restBlock incrBlock (locals ++ indexLocal) (body ⟨restBlock, incrBlock, tag⟩)
  jump incrBlock
  switchTo incrBlock
  let counter ← load slot type
  let next ← compute type (.arith · .add counter (Ir.Const.int type 1))
  store next slot
  jump condBlock
  switchTo restBlock

def lowerTimesIn (count : Operand) (index : Option Ident) (body : LoopTargets → Emit Unit)
    (tag : Option Ident) : Emit Unit := do
  let total ← count.rvalue (.of .usize)
  let info ← require ((← types).intInfo? total.type) (.mismatch .usize total.type) count.range
  let pred := if info.signed then .slt else .ult
  countedLoopIn total.type index body tag (fun c => compute .bool (.compare · pred c total.ir))
    fun _ => return []

def lowerForInIn (iterable : Operand) (item : Ident) (index : Option Ident)
    (body : LoopTargets → Emit Unit) (tag : Option Ident) : Emit Unit := do
  let s ← sequenceOf (← iterable.lower .nothing) iterable.range
  let itemType ← intern (.ref s.element s.isVar)
  countedLoopIn .usize index body tag (hasElement s) fun counter => do
    let ptr ← elementPtr s.base s.element s.isVar counter
    return [{ name := item, address := ptr, type := itemType, isVar := s.isVar, isRef := true }]

def lowerJumpIn (around : List LoopTargets) (tag : Option Ident) (word : String)
    (target : LoopTargets → BlockId) (range : Span) : Emit Unit :=
  match innermost? around tag with
  | some l => jump (target l)
  | none => refuse (.jumpOutside word) range

mutual

def lowerSentencesIn (view : Viewpoint) (around : List LoopTargets) : List Sentence → Emit Unit
  | [] => return
  | s :: rest => do
    unless ← isClosed do
      lowerSentenceIn view around s
      lowerSentencesIn view around rest

/-- Sentences that are neither jumps nor made of others are lowered as before. -/
def lowerSentenceIn (view : Viewpoint) (around : List LoopTargets) : Sentence → Emit Unit
  | .cond _ branches otherwise => do
    let endBlock ← newBlock "if.end"
    lowerBranchesIn view around endBlock branches do
      (match otherwise with
        | some body => inScope (lowerSentencesIn view around body)
        | none => return)
      jump endBlock
      switchTo endBlock
  | .whileDo _ condition body tag =>
    lowerWhileIn (operand view condition) (fun l => lowerSentencesIn view (l :: around) body) tag
  | .times _ count index body tag =>
    lowerTimesIn (operand view count) index (fun l => lowerSentencesIn view (l :: around) body) tag
  | .loop _ body tag => lowerLoopIn (fun l => lowerSentencesIn view (l :: around) body) tag
  | .forIn _ iterable item index body tag =>
    lowerForInIn (operand view iterable) item index
      (fun l => lowerSentencesIn view (l :: around) body) tag
  | .breakLoop range tag => lowerJumpIn around tag "break" LoopTargets.breakTo range
  | .continueLoop range tag => lowerJumpIn around tag "continue" LoopTargets.continueTo range
  | .block _ body => inScope (lowerSentencesIn view around body)
  | s => lowerSentence view s

def lowerBranchesIn (view : Viewpoint) (around : List LoopTargets) (endBlock : BlockId) :
    List Branch → Emit Unit → Emit Unit
  | [], otherwise => otherwise
  | .mk condition body :: rest, otherwise =>
    lowerBranch (operand view condition) (lowerSentencesIn view around body) endBlock
      (lowerBranchesIn view around endBlock rest otherwise)

end

end Emit

/-- The loops on the stack of the function under construction. -/
def Compiler.InLoops (s : Compiler) (around : List LoopTargets) : Prop :=
  ∃ f, s.func = some f ∧ f.loops = around

namespace Emit

variable {α β : Type} {a a' : Emit α} {k k' : α → Emit β} {around before mid after : List LoopTargets}

/-! ## The stack of loops -/

/-- An action that leaves the stack of loops as it found it, unless it fails. -/
def LeavesLoops (a : Emit α) : Prop :=
  ∀ o s v s' f, s.func = some f → a o s = .ok v s' → s'.InLoops f.loops

theorem leavesLoops_of_draws (h : ∀ b, Draws b a) : LeavesLoops a := by
  intro o s v s' f hf hr
  obtain ⟨g, hg, hd⟩ := draws_iff.mp (h f) o s v s' ⟨f, hf, .refl f⟩ hr
  exact ⟨g, hg, hd.loops⟩

theorem leavesLoops_of_passes {a : Emit Unit} (h : Passes a) : LeavesLoops a := by
  intro o s v s' f hf hr
  obtain ⟨g, hg, hp⟩ := h f o s v s' f hf rfl hr
  exact ⟨g, hg, hp.loops⟩

theorem leavesLoops_newBlock (label : String) : LeavesLoops (newBlock label) := by
  intro o s v s' f hf hr
  rw [newBlock_apply label hf] at hr
  cases hr
  exact ⟨_, rfl, rfl⟩

theorem leavesLoops_switchTo (j : BlockId) : LeavesLoops (switchTo j) := by
  intro o s v s' f hf hr
  rw [switchTo_apply j hf] at hr
  cases hr
  exact ⟨_, rfl, rfl⟩

theorem leavesLoops_terminate (t : Ir.Terminator) : LeavesLoops (terminate t) := by
  intro o s v s' f hf hr
  unfold terminate at hr
  rw [modifyCurrent_apply _ hf] at hr
  split at hr
  · cases hr
  · cases hr
    exact ⟨_, rfl, rfl⟩

theorem leavesLoops_popScope : LeavesLoops popScope := by
  intro o s v s' f hf hr
  unfold popScope at hr
  rw [bind_apply, function_apply hf] at hr
  cases hr
  exact ⟨_, rfl, rfl⟩

/-! ## Agreement -/

/-- Two actions do the same where these loops stand on the stack; if they do not fail, they
leave those loops there. -/
def Agrees (w : TypeSetting) (before after : List LoopTargets) (a a' : Emit α) : Prop :=
  ∀ o s, w.Holds s → s.InLoops before → a o s = a' o s ∧ match a o s with
    | .ok _ s' => w.Holds s' ∧ s'.InLoops after
    | .error e _ => w.Allows e

variable {w : TypeSetting}

theorem agrees_of_keeps (hk : w.Keeps a) (hl : LeavesLoops a) : Agrees w around around a a := by
  rintro o s hs ⟨f, hf, rfl⟩
  refine ⟨rfl, ?_⟩
  have hrun := triple_iff.mp hk o s hs
  cases hr : a o s with
  | ok v s' =>
    rw [hr] at hrun
    exact ⟨hrun, hl o s v s' f hf hr⟩
  | error e s' =>
    rw [hr] at hrun
    exact hrun.2.1

theorem agrees_of_draws (hk : w.Keeps a) (hd : ∀ b, Draws b a) : Agrees w around around a a :=
  agrees_of_keeps hk (leavesLoops_of_draws hd)

theorem Agrees.bind (ha : Agrees w before mid a a') (hk : ∀ v, Agrees w mid after (k v) (k' v)) :
    Agrees w before after (a >>= k) (a' >>= k') := by
  intro o s hs hb
  obtain ⟨heq, hrun⟩ := ha o s hs hb
  rw [bind_apply, bind_apply, ← heq]
  cases hr : a o s with
  | ok v s' =>
    rw [hr] at hrun
    exact hk v o s' hrun.1 hrun.2
  | error e s' =>
    rw [hr] at hrun
    exact ⟨rfl, hrun⟩

theorem agrees_newBlock (label : String) :
    Agrees w around around (newBlock label) (newBlock label) :=
  agrees_of_keeps (keeps_newBlock label) (leavesLoops_newBlock label)

theorem agrees_switchTo (j : BlockId) : Agrees w around around (switchTo j) (switchTo j) :=
  agrees_of_keeps (keeps_switchTo j) (leavesLoops_switchTo j)

theorem agrees_jump (j : BlockId) : Agrees w around around (jump j) (jump j) :=
  agrees_of_keeps (keeps_jump j) (leavesLoops_terminate _)

theorem agrees_branch (c : Ir.Value) (i j : BlockId) :
    Agrees w around around (branch c i j) (branch c i j) :=
  agrees_of_keeps (keeps_branch c i j) (leavesLoops_terminate _)

theorem agrees_inScope {a a' : Emit Unit} (h : Agrees w around around a a') :
    Agrees w around around (inScope a) (inScope a') :=
  (agrees_of_draws keeps_pushScope fun _ => draws_pushScope).bind fun _ => h.bind fun _ =>
    agrees_of_keeps keeps_popScope leavesLoops_popScope

/-! ## Loops -/

theorem agrees_enterLoop (tag : Option Ident) (breakTo continueTo : BlockId) :
    Agrees w around (⟨breakTo, continueTo, tag⟩ :: around)
      (enterLoop tag breakTo continueTo) (enterLoop tag breakTo continueTo) := by
  rintro o s hs ⟨f, hf, rfl⟩
  refine ⟨rfl, ?_⟩
  have hrun := triple_iff.mp (keeps_enterLoop (w := w) tag breakTo continueTo) o s hs
  cases hr : enterLoop tag breakTo continueTo o s with
  | ok v s' =>
    rw [hr] at hrun
    obtain ⟨g, hg, hs'⟩ := enterLoop_ok hr
    cases hf.symm.trans hg
    exact ⟨hrun, _, congrArg Compiler.func hs', rfl⟩
  | error e s' =>
    rw [hr] at hrun
    exact hrun.2.1

theorem agrees_exitLoop {l : LoopTargets} :
    Agrees w (l :: around) around exitLoop exitLoop := by
  rintro o s hs ⟨f, hf, hl⟩
  refine ⟨rfl, ?_⟩
  have hrun := triple_iff.mp (keeps_exitLoop (w := w)) o s hs
  have hr : exitLoop o s = .ok () { s with func := some { f with loops := f.loops.drop 1 } } := by
    unfold exitLoop
    rw [bind_apply, function_apply hf]
    rfl
  rw [hr] at hrun ⊢
  exact ⟨hrun, _, rfl, congrArg (List.drop 1) hl⟩

theorem agrees_loopBody {tag : Option Ident} {breakTo continueTo : BlockId}
    (locals : List LocalVar) {a a' : Emit Unit}
    (h : Agrees w (⟨breakTo, continueTo, tag⟩ :: around) (⟨breakTo, continueTo, tag⟩ :: around) a a') :
    Agrees w around around (loopBody tag breakTo continueTo locals a)
      (loopBody tag breakTo continueTo locals a') := by
  refine (agrees_enterLoop tag breakTo continueTo).bind fun _ => ?_
  refine (agrees_inScope ?_).bind fun _ => agrees_exitLoop
  exact (agrees_of_draws (keeps_declareLocals locals) fun _ => draws_declareLocals locals).bind
    fun _ => h

variable {body body' : LoopTargets → Emit Unit} {tag : Option Ident}

theorem agrees_lowerWhileIn (body : LoopTargets → Emit Unit) {condition : Operand}
    (hk : w.Lowers condition) (hd : condition.Draws)
    (h : ∀ l : LoopTargets, l.tag = tag → Agrees w (l :: around) (l :: around) (body l) (body' l)) :
    Agrees w around around (lowerWhileIn condition body tag) (lowerWhileIn condition body' tag) := by
  refine (agrees_newBlock _).bind fun condBlock => (agrees_newBlock _).bind fun bodyBlock => ?_
  refine (agrees_newBlock _).bind fun endBlock => (agrees_jump _).bind fun _ => ?_
  refine (agrees_switchTo _).bind fun _ => ?_
  refine (agrees_of_draws (keeps_condition hk) fun _ => draws_condition hd).bind fun cond => ?_
  refine (agrees_branch _ _ _).bind fun _ => (agrees_switchTo _).bind fun _ => ?_
  refine (agrees_loopBody [] (h ⟨endBlock, condBlock, tag⟩ rfl)).bind fun _ => ?_
  exact (agrees_jump _).bind fun _ => agrees_switchTo _

theorem agrees_lowerLoopIn (body : LoopTargets → Emit Unit)
    (h : ∀ l : LoopTargets, l.tag = tag → Agrees w (l :: around) (l :: around) (body l) (body' l)) :
    Agrees w around around (lowerLoopIn body tag) (lowerLoopIn body' tag) := by
  refine (agrees_newBlock _).bind fun bodyBlock => (agrees_newBlock _).bind fun endBlock => ?_
  refine (agrees_jump _).bind fun _ => (agrees_switchTo _).bind fun _ => ?_
  refine (agrees_loopBody [] (h ⟨endBlock, bodyBlock, tag⟩ rfl)).bind fun _ => ?_
  exact (agrees_jump _).bind fun _ => agrees_switchTo _

theorem agrees_countedLoopIn (type : Ty) (index : Option Ident)
    {holds : Ir.Value → Emit Ir.Register} {locals : Ir.Value → Emit (List LocalVar)}
    (hh : ∀ c, Agrees w around around (holds c) (holds c))
    (hl : ∀ c, Agrees w around around (locals c) (locals c))
    (h : ∀ l : LoopTargets, l.tag = tag → Agrees w (l :: around) (l :: around) (body l) (body' l)) :
    Agrees w around around (countedLoopIn type index body tag holds locals)
      (countedLoopIn type index body' tag holds locals) := by
  have hload {slot : Ir.Value} : Agrees w around around (load slot type) (load slot type) :=
    agrees_of_draws (keeps_load _ _) fun _ => draws_load _ _
  have hstore {v slot : Ir.Value} : Agrees w around around (store v slot) (store v slot) :=
    agrees_of_draws (keeps_store _ _) fun _ => draws_store _ _
  refine (agrees_of_draws (keeps_alloca _ _) fun _ => draws_alloca _ _).bind fun slot => ?_
  refine hstore.bind fun _ => (agrees_newBlock _).bind fun condBlock => ?_
  refine (agrees_newBlock _).bind fun bodyBlock => (agrees_newBlock _).bind fun incrBlock => ?_
  refine (agrees_newBlock _).bind fun restBlock => (agrees_jump _).bind fun _ => ?_
  refine (agrees_switchTo _).bind fun _ => hload.bind fun counter => (hh _).bind fun cond => ?_
  refine (agrees_branch _ _ _).bind fun _ => (agrees_switchTo _).bind fun _ => ?_
  refine hload.bind fun counter => (hl _).bind fun vs => ?_
  refine (agrees_loopBody _ (h ⟨restBlock, incrBlock, tag⟩ rfl)).bind fun _ => ?_
  refine (agrees_jump _).bind fun _ => (agrees_switchTo _).bind fun _ => hload.bind fun _ => ?_
  refine (agrees_of_draws (keeps_compute _ _) fun _ => draws_compute _ fun _ => rfl).bind fun _ => ?_
  exact hstore.bind fun _ => (agrees_jump _).bind fun _ => agrees_switchTo _

theorem agrees_lowerTimesIn (body : LoopTargets → Emit Unit) {count : Operand}
    (index : Option Ident) (hk : w.Lowers count) (hd : count.Draws)
    (h : ∀ l : LoopTargets, l.tag = tag → Agrees w (l :: around) (l :: around) (body l) (body' l)) :
    Agrees w around around (lowerTimesIn count index body tag)
      (lowerTimesIn count index body' tag) := by
  refine (agrees_of_draws (keeps_operandRvalue _ hk) fun _ => draws_operandRvalue _ hd).bind
    fun total => ?_
  refine (agrees_of_draws keeps_types fun _ => draws_types).bind fun t => ?_
  refine (agrees_of_draws (gives_require _ rfl).keeps fun _ => draws_require _ _ _).bind fun info => ?_
  refine agrees_countedLoopIn _ index (fun c => ?_) (fun c => ?_) h
  · exact agrees_of_draws (keeps_compute _ _) fun _ => draws_compute _ fun _ => rfl
  · exact agrees_of_draws (by mvcgen) fun _ => by mvcgen

theorem agrees_lowerForInIn (body : LoopTargets → Emit Unit) {iterable : Operand} (item : Ident)
    (index : Option Ident) (hk : w.Lowers iterable) (hd : iterable.Draws)
    (h : ∀ l : LoopTargets, l.tag = tag → Agrees w (l :: around) (l :: around) (body l) (body' l)) :
    Agrees w around around (lowerForInIn iterable item index body tag)
      (lowerForInIn iterable item index body' tag) := by
  refine (agrees_of_draws (hk _) fun _ => draws_lower _ hd).bind fun v => ?_
  refine (agrees_of_draws (keeps_sequenceOf _ _) fun _ => draws_sequenceOf _ _).bind fun s => ?_
  refine (agrees_of_draws (keeps_intern _) fun _ => draws_intern _).bind fun ty => ?_
  refine agrees_countedLoopIn _ index (fun c => ?_) (fun c => ?_) h
  · exact agrees_of_draws (keeps_hasElement s c) fun _ => draws_hasElement s c
  · exact agrees_of_draws (by mvcgen [-draws_elementPtr]) fun _ => by mvcgen

/-! ## Jumps -/

theorem loopFor?_eq_innermost? (f : FunctionState) (tag : Option Ident) :
    f.loopFor? tag = innermost? f.loops tag := by
  unfold FunctionState.loopFor? innermost?
  cases tag with
  | none =>
    cases f.loops with
    | nil => rfl
    | cons l ls => rfl
  | some t =>
    refine congrArg (List.find? · f.loops) (funext fun l => ?_)
    cases l.tag with
    | none => rfl
    | some u => simp [Flow.targets]

theorem innermost?_of_jumpsInside {tag : Option Ident} (h : jumpsInside (tagsOf around) tag = true) :
    ∃ l, innermost? around tag = some l := by
  unfold jumpsInside tagsOf at h
  rw [List.any_map, List.any_eq_true] at h
  exact Option.isSome_iff_exists.mp (List.find?_isSome.mpr h)

/-- A jump that names a loop around it goes there. -/
theorem agrees_lowerJump (word : String) (target : LoopTargets → BlockId) (range : Span)
    (h : jumpsInside (tagsOf around) tag = true) :
    Agrees w around around (lowerJump tag word target range)
      (lowerJumpIn around tag word target range) := by
  rintro o s hs ⟨f, hf, rfl⟩
  obtain ⟨l, hl⟩ := innermost?_of_jumpsInside h
  have hrun : lowerJump tag word target range o s = jump (target l) o s := by
    unfold lowerJump
    rw [bind_apply, function_apply hf]
    dsimp only
    rw [loopFor?_eq_innermost?, hl]
  unfold lowerJumpIn
  rw [hrun, hl]
  exact agrees_jump (target l) o s hs ⟨f, hf, rfl⟩

/-! ## Bodies -/

theorem agrees_lowerBranch {condition : Operand} {body body' rest rest' : Emit Unit}
    (endBlock : BlockId) (hk : w.Lowers condition) (hd : condition.Draws)
    (hb : Agrees w around around body body') (hr : Agrees w around around rest rest') :
    Agrees w around around (lowerBranch condition body endBlock rest)
      (lowerBranch condition body' endBlock rest') := by
  refine (agrees_of_draws (keeps_condition hk) fun _ => draws_condition hd).bind fun cond => ?_
  split
  · refine (agrees_inScope hb).bind fun _ => (agrees_jump _).bind fun _ => agrees_switchTo _
  · exact hr
  · refine (agrees_newBlock _).bind fun thenBlock => (agrees_newBlock _).bind fun nextBlock => ?_
    refine (agrees_branch _ _ _).bind fun _ => (agrees_switchTo _).bind fun _ => ?_
    refine (agrees_inScope hb).bind fun _ => (agrees_jump _).bind fun _ => ?_
    exact (agrees_switchTo _).bind fun _ => hr

theorem agrees_isClosed : Agrees w around around isClosed isClosed := by
  rintro o s hs ⟨f, hf, hl⟩
  rw [isClosed_apply hf]
  exact ⟨rfl, hs, f, hf, hl⟩

theorem agrees_return : Agrees w around around (return : Emit Unit) (return) :=
  fun _ _ hs hl => ⟨rfl, hs, hl⟩

mutual

/-- Resolving the jumps of a nested body in advance changes nothing. -/
theorem agrees_lowerSentences (hw : w.Open) (view : Viewpoint) :
    ∀ (ss : List Sentence) {around : List LoopTargets}, sentencesNested (tagsOf around) ss = true →
      Agrees w around around (lowerSentences view ss) (lowerSentencesIn view around ss)
  | [], _, _ => by
    unfold lowerSentences lowerSentencesIn
    exact agrees_return
  | s :: ss, _, h => by
    unfold sentencesNested at h
    rw [Bool.and_eq_true] at h
    unfold lowerSentences lowerSentencesIn
    refine agrees_isClosed.bind fun closed => ?_
    cases closed with
    | true => exact agrees_return
    | false =>
      exact (agrees_lowerSentence hw view s h.1).bind fun _ => agrees_lowerSentences hw view ss h.2

theorem agrees_lowerSentence (hw : w.Open) (view : Viewpoint) :
    ∀ (s : Sentence) {around : List LoopTargets}, s.nested (tagsOf around) = true →
      Agrees w around around (lowerSentence view s) (lowerSentenceIn view around s)
  | .localVar range name type value isVar isRef, _, _ =>
    agrees_of_keeps (by
      unfold lowerSentence
      exact keeps_lowerLocal view name type isVar isRef range hw (lowers_map hw view value))
      (leavesLoops_of_passes (passes_lowerSentence view _))
  | .assign range lhs rhs, _, _ =>
    agrees_of_keeps (by
      unfold lowerSentence
      exact keeps_lowerAssign range (lowers_operand hw view lhs) (lowers_operand hw view rhs))
      (leavesLoops_of_passes (passes_lowerSentence view _))
  | .opAssign range op lhs rhs, _, _ =>
    agrees_of_keeps (by
      unfold lowerSentence
      exact keeps_lowerOpAssign op range (lowers_operand hw view lhs) (lowers_operand hw view rhs))
      (leavesLoops_of_passes (passes_lowerSentence view _))
  | .expr _ e, _, _ =>
    agrees_of_keeps (by
      have he := keeps_lowerExpr hw view e
      mvcgen [lowerSentence, he])
      (leavesLoops_of_passes (passes_lowerSentence view _))
  | .give range value, _, _ =>
    agrees_of_keeps (by
      unfold lowerSentence
      exact keeps_lowerGive range (lowers_map hw view value))
      (leavesLoops_of_passes (passes_lowerSentence view _))
  | .todo range message, _, _ =>
    agrees_of_keeps (by
      unfold lowerSentence
      exact keeps_unfinished message range)
      (leavesLoops_of_passes (passes_lowerSentence view _))
  | .cond _ branches none, _, h => by
    unfold Sentence.nested at h
    unfold lowerSentence lowerSentenceIn
    refine (agrees_newBlock _).bind fun endBlock => ?_
    refine agrees_lowerBranches hw view endBlock branches h ?_
    exact agrees_return.bind fun _ => (agrees_jump _).bind fun _ => agrees_switchTo _
  | .cond _ branches (some body), _, h => by
    unfold Sentence.nested at h
    rw [Bool.and_eq_true] at h
    unfold lowerSentence lowerSentenceIn
    refine (agrees_newBlock _).bind fun endBlock => ?_
    refine agrees_lowerBranches hw view endBlock branches h.1 ?_
    refine (agrees_inScope (agrees_lowerSentences hw view body h.2)).bind fun _ => ?_
    exact (agrees_jump _).bind fun _ => agrees_switchTo _
  | .whileDo _ condition body tag, _, h => by
    unfold Sentence.nested at h
    unfold lowerSentence lowerSentenceIn
    refine agrees_lowerWhileIn (fun _ => lowerSentences view body)
      (lowers_operand hw view condition) (draws_operand view condition) ?_
    rintro l rfl
    exact agrees_lowerSentences hw view body h
  | .times _ count index body tag, _, h => by
    unfold Sentence.nested at h
    unfold lowerSentence lowerSentenceIn
    refine agrees_lowerTimesIn (fun _ => lowerSentences view body) index
      (lowers_operand hw view count) (draws_operand view count) ?_
    rintro l rfl
    exact agrees_lowerSentences hw view body h
  | .loop _ body tag, _, h => by
    unfold Sentence.nested at h
    unfold lowerSentence lowerSentenceIn
    refine agrees_lowerLoopIn (fun _ => lowerSentences view body) ?_
    rintro l rfl
    exact agrees_lowerSentences hw view body h
  | .forIn _ iterable item index body tag, _, h => by
    unfold Sentence.nested at h
    unfold lowerSentence lowerSentenceIn
    refine agrees_lowerForInIn (fun _ => lowerSentences view body) item index
      (lowers_operand hw view iterable) (draws_operand view iterable) ?_
    rintro l rfl
    exact agrees_lowerSentences hw view body h
  | .breakLoop _ _, _, h | .continueLoop _ _, _, h => by
    unfold Sentence.nested at h
    unfold lowerSentence lowerSentenceIn
    exact agrees_lowerJump _ _ _ h
  | .block _ body, _, h => by
    unfold Sentence.nested at h
    unfold lowerSentence lowerSentenceIn
    exact agrees_inScope (agrees_lowerSentences hw view body h)

theorem agrees_lowerBranches (hw : w.Open) (view : Viewpoint) (endBlock : BlockId)
    {otherwise otherwise' : Emit Unit} :
    ∀ (bs : List Branch) {around : List LoopTargets}, branchesNested (tagsOf around) bs = true →
      Agrees w around around otherwise otherwise' →
      Agrees w around around (lowerBranches view endBlock bs otherwise)
        (lowerBranchesIn view around endBlock bs otherwise')
  | [], _, _, ho => by
    unfold lowerBranches lowerBranchesIn
    exact ho
  | .mk condition body :: bs, _, h, ho => by
    unfold branchesNested at h
    rw [Bool.and_eq_true] at h
    unfold lowerBranches lowerBranchesIn
    exact agrees_lowerBranch endBlock (lowers_operand hw view condition)
      (draws_operand view condition) (agrees_lowerSentences hw view body h.1)
      (agrees_lowerBranches hw view endBlock bs h.2 ho)

end

end Emit

end Staged
