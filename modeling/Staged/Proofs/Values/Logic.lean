/-
  Staged.Proofs.Values.Logic — which values evaluation comes upon.

  A domain is a set of constants that every rule on values stays in (`Domain`). A ground
  says where evaluation starts from: a domain that the symbols and the known locals are
  in, what is known of types and code, and which failures may happen. Evaluation that
  starts on such ground, with all locals of the running calls in the domain, ends on it
  with as many calls running (`Ground.Ends`); if it fails, nothing is known of the locals
  of these calls.
-/

import Staged.Known.Evaluate
import Staged.Proofs.Lowering.Logic

namespace Staged

/-! ## Domains -/

/-- A set of constants that is closed under the rules on values, for all tables of a
kind. -/
structure Domain where
  holds : Constant → Prop
  knows : TypeTable → Prop
  bool : ∀ b, holds (.bool b)
  char : ∀ c, holds ⟨.char c, .char⟩
  str : ∀ s, holds ⟨.str s, .str⟩
  void : holds .void
  type : ∀ ty, holds (.type' ty)
  usize : ∀ v, holds (.int .usize v)
  byte : ∀ b : UInt8, holds (.int .u8 b.toNat)
  int : ∀ {t ty info v}, knows t → t.intInfo? ty = Option.some info → info.fits v = true →
    holds (.int ty v)
  /-- What is counted up to a number. -/
  below : ∀ {t} {c : Constant} {total i : Int}, knows t → t.isIntegral c.type = true →
    holds c → c.asInt? = Option.some total → 0 ≤ i → i < total → holds (.int c.type i)
  float : ∀ {t ty} x, knows t → (t.floatKind? ty).isSome = true → holds ⟨.float x, ty⟩
  null : ∀ {ty}, ty.isMark = true → holds ⟨.null, ty⟩
  none : ∀ {ty}, ty.maybe?.isSome = true → holds ⟨.maybe none, ty⟩
  some : ∀ {c}, holds c → holds ⟨.maybe (some c.data), .maybe c.type⟩
  tuple : ∀ {cs : List Constant}, (∀ c ∈ cs, holds c) →
    holds ⟨.tuple (cs.map Constant.data), .tuple (cs.map Constant.type) false⟩
  array : ∀ {ds : List Data} {element}, (∀ d ∈ ds, holds ⟨d, element⟩) →
    holds ⟨.array ds, .array element ds.length⟩
  item : ∀ {ds : List Data} {element n d}, holds ⟨.array ds, .array element n⟩ → d ∈ ds →
    holds ⟨d, element⟩
  /-- The fields are looked up after the struct was found. -/
  struct : ∀ {t t' : TypeTable} {ty ds}, knows t → knows t' → (t.structOf? ty).isSome = true →
    List.Forall₂ (fun d ty => holds ⟨d, ty⟩) ds
      (((t'.structOf? ty).map StructDef.fieldTypes).getD []) → holds ⟨.struct ds, ty⟩
  default : ∀ {t : TypeTable} {ty c}, knows t → t.default ty = .ok c → holds c
  literal : ∀ {t : TypeTable} {value negative ty c}, knows t →
    t.intLiteral value negative ty = .ok c → holds c
  unary : ∀ {t : TypeTable} {op c d}, knows t → holds c → t.foldUnary op c = .ok d → holds d
  binary : ∀ {t : TypeTable} {op l r d}, knows t → holds l → holds r →
    t.foldBinary op l r = .ok d → holds d
  cast : ∀ {t : TypeTable} {c ty d}, knows t → holds c → t.foldCast c ty = .ok d → holds d
  index : ∀ {c : Constant} {i d}, holds c → c.index i = .ok d → holds d
  member : ∀ {t : TypeTable} {c name d}, knows t → holds c → t.knownMember c name = .ok d →
    holds d
  variant : ∀ {t : TypeTable} {ty name} {payload : Option Constant} {d}, knows t →
    (∀ c, payload = Option.some c → holds c) → t.knownVariant ty name payload = .ok d → holds d

def Domain.all (knows : TypeTable → Prop := fun _ => True) : Domain where
  holds _ := True
  knows := knows
  bool _ := trivial
  char _ := trivial
  str _ := trivial
  void := trivial
  type _ := trivial
  usize _ := trivial
  byte _ := trivial
  int _ _ _ := trivial
  below _ _ _ _ _ _ := trivial
  float _ _ _ := trivial
  null _ := trivial
  none _ := trivial
  some _ := trivial
  tuple _ := trivial
  array _ := trivial
  item _ _ := trivial
  struct _ _ _ _ := trivial
  default _ _ := trivial
  literal _ _ := trivial
  unary _ _ _ := trivial
  binary _ _ _ _ := trivial
  cast _ _ _ := trivial
  index _ _ := trivial
  member _ _ _ := trivial
  variant _ _ _ := trivial

/-! ## Grounds -/

def Symbol.value? : Symbol → Option Constant
  | .global _ _ _ v | .prerunGlobal v => some v
  | _ => none

structure Ground extends Domain where
  outer : Outer
  /-- The options that evaluation runs with. -/
  admits : Options → Prop
  /-- What is known of types and code. -/
  code : Core → Prop
  code_intern : ∀ {c : Core} (ty : Ty), code c → code { c with types := c.types.intern ty }
  /-- Code that is not written yet may be come upon, except in a release. -/
  code_abandon : ∀ {o : Options} {c : Core}, admits o → o.mode ≠ .release → code c →
    code { c with func := c.func.map .abandon }
  knows_types : ∀ {c : Core}, code c → knows c.types
  locals : ∀ {c : Core} {f name v k}, code c → c.func = Option.some f →
    f.findLocal? name = Option.some v → v.known = Option.some k → holds k
  symbols : ∀ {id y k}, outer.symbols.lookup id = Option.some y → y.value? = Option.some k →
    holds k
  /-- A define that does not fit where it is used is a 64-bit integer. -/
  defines : ∀ {o : Options} {name v}, admits o →
    o.define? name = Option.some (.int v) → holds (.int (.int 64) v)
  /-- The failures that may happen. -/
  allows : Failure → Prop
  allows_fault : ∀ f range, allows (.fault f range)
  /-- Code that is not written yet ends the current block. -/
  allows_missing : ∀ {c : Core} {f}, code c → c.func = Option.some f →
    f.function.block? f.current = Option.none → allows (.breach .missingBlock)
  /-- What is known of the warnings. -/
  warned : Array Diagnostic → Prop
  warned_push : ∀ {ws : Array Diagnostic} (d : Diagnostic), warned ws → warned (ws.push d)

def Frame.Holds (holds : Constant → Prop) (f : Frame) : Prop :=
  ∀ scope ∈ f.inner :: f.outer, ∀ entry ∈ scope, holds entry.2.value

def Flow.Holds (holds : Constant → Prop) (flow : Flow) : Prop :=
  ∀ v, flow = .give (some v) → holds v

namespace Ground

structure Stops (g : Ground) (n : Nat) (s : Compiler) : Prop where
  outer : s.outer = g.outer
  calls : s.frames.length = n
  code : g.code s.core
  warnings : g.warned s.warnings

structure Stands (g : Ground) (n : Nat) (s : Compiler) : Prop extends g.Stops n s where
  frames : ∀ f ∈ s.frames, f.Holds g.holds

/-- An action that stays on the ground, and gives a value of which `Q` holds. -/
def Ends {α : Type} (g : Ground) (n : Nat) (a : Emit α) (Q : α → Prop) : Prop :=
  ∀ o, g.admits o → ∀ s, g.Stands n s → match a o s with
    | .ok v s' => g.Stands n s' ∧ Q v
    | .error f s' => g.Stops n s' ∧ g.allows f

namespace Ends

variable {g : Ground} {n : Nat} {α β : Type} {a : Emit α} {k : α → Emit β} {Q Q' : α → Prop}
  {R : β → Prop}

theorem pure {v : α} (h : Q v) : g.Ends n (pure v) Q := by
  intro o ho s hs
  exact ⟨hs, h⟩

theorem bind (ha : g.Ends n a Q) (hk : ∀ v, Q v → g.Ends n (k v) R) :
    g.Ends n (a >>= k) R := by
  intro o ho s hs
  have h := ha o ho s hs
  rw [Emit.bind_apply]
  cases hr : a o s with
  | ok v s' =>
    rw [hr] at h
    exact hk v h.2 o ho s' h.1
  | error f s' =>
    rw [hr] at h
    exact h

theorem mono (h : g.Ends n a Q) (hq : ∀ v, Q v → Q' v) : g.Ends n a Q' := by
  intro o ho s hs
  have h := h o ho s hs
  cases hr : a o s with
  | ok v s' =>
    rw [hr] at h
    exact ⟨h.1, hq v h.2⟩
  | error f s' =>
    rw [hr] at h
    exact h

theorem map {f : α → β} (ha : g.Ends n a Q) (hf : ∀ v, Q v → R (f v)) :
    g.Ends n (f <$> a) R := by
  rw [← bind_pure_comp]
  exact ha.bind fun v hv => .pure (hf v hv)

end Ends

end Ground

/-! ## Frames -/

namespace Frame

variable {holds : Constant → Prop} {f f' : Frame} {name : String} {value : Constant}

theorem Holds.get (h : f.Holds holds) {l : KnownLocal} (hl : f.get? name = some l) :
    holds l.value := by
  obtain ⟨scope, hscope, hlookup⟩ := List.exists_of_findSome?_eq_some hl
  exact h scope hscope _ (mem_of_lookup hlookup)

theorem Holds.push (h : f.Holds holds) : f.push.Holds holds := by
  intro scope hscope
  rcases List.mem_cons.mp hscope with rfl | hscope
  · intro entry hentry
    cases hentry
  · exact h scope hscope

theorem Holds.pop (h : f.Holds holds) : f.pop.Holds holds := by
  obtain ⟨function, result, inner, outer⟩ := f
  cases outer with
  | nil => exact h
  | cons s rest =>
    intro scope hscope
    exact h scope (List.mem_cons_of_mem inner hscope)

theorem Holds.declare {isVar : Bool} (h : f.Holds holds) (hv : holds value)
    (hf : f.declare? name value isVar = some f') : f'.Holds holds := by
  unfold declare? at hf
  split at hf
  · cases hf
  · cases hf
    intro scope hscope
    rcases List.mem_cons.mp hscope with rfl | hscope
    · intro entry hentry
      rcases List.mem_cons.mp hentry with rfl | hentry
      · exact hv
      · exact h f.inner List.mem_cons_self entry hentry
    · exact h scope (List.mem_cons_of_mem f.inner hscope)

theorem holds_setIn (hv : holds value) :
    ∀ {scope : Scope}, (∀ entry ∈ scope, holds entry.2.value) →
      ∀ entry ∈ setIn name value scope, holds entry.2.value
  | [], h => h
  | (key, l) :: rest, h => by
    unfold setIn
    split
    · intro entry hentry
      rcases List.mem_cons.mp hentry with rfl | hentry
      · exact hv
      · exact h entry (List.mem_cons_of_mem _ hentry)
    · intro entry hentry
      rcases List.mem_cons.mp hentry with rfl | hentry
      · exact h _ List.mem_cons_self
      · exact holds_setIn hv (fun e he => h e (List.mem_cons_of_mem _ he)) entry hentry

theorem holds_setScopes (hv : holds value) :
    ∀ {scopes : List Scope}, (∀ s ∈ scopes, ∀ entry ∈ s, holds entry.2.value) →
      ∀ s ∈ setScopes name value scopes, ∀ entry ∈ s, holds entry.2.value
  | [], h => h
  | scope :: rest, h => by
    unfold setScopes
    split
    · intro s hs
      rcases List.mem_cons.mp hs with rfl | hs
      · exact holds_setIn hv (h scope List.mem_cons_self)
      · exact h s (List.mem_cons_of_mem _ hs)
    · intro s hs
      rcases List.mem_cons.mp hs with rfl | hs
      · exact h _ List.mem_cons_self
      · exact holds_setScopes hv (fun s hs => h s (List.mem_cons_of_mem _ hs)) s hs

theorem Holds.set (h : f.Holds holds) (hv : holds value) (hf : f.set? name value = some f') :
    f'.Holds holds := by
  have hinner : ∀ entry ∈ f.inner, holds entry.2.value := h f.inner List.mem_cons_self
  have houter : ∀ s ∈ f.outer, ∀ entry ∈ s, holds entry.2.value :=
    fun s hs => h s (List.mem_cons_of_mem _ hs)
  unfold set? at hf
  split at hf
  · cases hf
  · split at hf
    · cases hf
      intro scope hscope
      rcases List.mem_cons.mp hscope with rfl | hscope
      · exact holds_setIn hv hinner
      · exact houter scope hscope
    · cases hf
      intro scope hscope
      rcases List.mem_cons.mp hscope with rfl | hscope
      · exact hinner
      · exact holds_setScopes hv houter scope hscope

end Frame

/-! ## Actions on the state -/

namespace Emit

variable {g : Ground} {n : Nat} {α β : Type} {Q : α → Prop} {R : β → Prop}

theorem ends_refuse (f : Fault) (range : Span) : g.Ends n (refuse f range) Q := by
  intro o ho s hs
  exact ⟨hs.toStops, g.allows_fault f range⟩

theorem ends_mismatch (expected found : Ty) (range : Span) :
    g.Ends n (mismatch expected found range) Q := ends_refuse _ _

theorem ends_refuseName (e : ResolveError) : g.Ends n (refuseName e) Q := ends_refuse _ _

theorem ends_require {value : Option α} (f : Fault) (range : Span)
    (h : ∀ v, value = some v → Q v) : g.Ends n (require value f range) Q := by
  cases value with
  | none => exact ends_refuse f range
  | some v => exact .pure (h v rfl)

/-- A test that stops everything. -/
theorem ends_guard {c : Prop} [Decidable c] {f : Fault} {range : Span} {k : α → Emit β}
    {rest : Emit β} (hrest : ¬c → g.Ends n rest R) :
    g.Ends n (if c then refuse f range >>= k else rest) R := by
  split
  · exact (ends_refuse (Q := fun _ => False) f range).bind fun _ h => h.elim
  · exact hrest ‹_›

/-- A test that everything depends on. -/
theorem ends_unless {c : Prop} [Decidable c] {f : Fault} {range : Span} {k : α → Emit β}
    {rest : Emit β} (hrest : c → g.Ends n rest R) :
    g.Ends n (if c then rest else refuse f range >>= k) R := by
  split
  · exact hrest ‹_›
  · exact (ends_refuse (Q := fun _ => False) f range).bind fun _ h => h.elim

theorem ends_orRefuse {r : Except Fault α} (range : Span) (h : ∀ v, r = .ok v → Q v) :
    g.Ends n (orRefuse r range) Q := by
  cases r with
  | ok v => exact .pure (h v rfl)
  | error f => exact ends_refuse f range

theorem ends_orRefuseFold {r : Except FoldError α} (range : Span) (h : ∀ v, r = .ok v → Q v) :
    g.Ends n (orRefuseFold r range) Q := by
  cases r with
  | ok v => exact .pure (h v rfl)
  | error e => exact ends_refuse _ range

theorem ends_read : g.Ends n read g.admits := by
  intro o ho s hs
  exact ⟨hs, ho⟩

theorem ends_types : g.Ends n types g.knows := by
  intro o ho s hs
  exact ⟨hs, g.knows_types hs.code⟩

theorem ends_intern (ty : Ty) : g.Ends n (intern ty) (· = ty) := by
  intro o ho s hs
  exact ⟨⟨⟨hs.outer, hs.calls, g.code_intern ty hs.code, hs.warnings⟩, hs.frames⟩, rfl⟩

theorem ends_isAccessible (view : Viewpoint) (vis : Visibility) :
    g.Ends n (isAccessible view vis) fun _ => True := by
  intro o ho s hs
  exact ⟨hs, trivial⟩

theorem ends_resolveName (view : Viewpoint) (name : QName) :
    g.Ends n (resolveName view name) fun _ => True := by
  intro o ho s hs
  exact ⟨hs, trivial⟩

theorem ends_resolved (view : Viewpoint) (name : QName) :
    g.Ends n (resolved view name) fun _ => True := by
  refine (ends_resolveName view name).bind fun r _ => ?_
  split
  · exact .pure trivial
  · exact ends_refuseName _

theorem ends_symbolOf (id : EntityId) (range : Span) :
    g.Ends n (symbolOf id range) fun y => ∀ v, y.value? = some v → g.holds v := by
  intro o ho s hs
  have hsym : s.symbols = g.outer.symbols := congrArg Outer.symbols hs.outer
  have hrun : symbolOf id range o s =
      require (s.symbols.lookup id) (.notReady (s.entities.displayName id)) range o s := rfl
  rw [hrun, hsym]
  cases hl : g.outer.symbols.lookup id with
  | some y => exact ⟨hs, fun v hv => g.symbols hl hv⟩
  | none => exact ⟨hs.toStops, g.allows_fault _ _⟩

theorem ends_localOf (name : QName) : g.Ends n (localOf? name) fun r =>
    ∀ v, r = some v → ∀ c, v.known = some c → g.holds c := by
  have hfind (text : String) : g.Ends n (findLocal? text) fun r =>
      ∀ v, r = some v → ∀ c, v.known = some c → g.holds c := by
    intro o ho s hs
    refine ⟨hs, fun v hv c hc => ?_⟩
    obtain ⟨f, hf, hv⟩ := Option.bind_eq_some_iff.mp hv
    exact g.locals hs.code hf hv hc
  unfold localOf?
  split
  · exact hfind _
  · exact .pure fun v hv => by cases hv

theorem ends_unfinished (message : Option String) (range : Span) :
    g.Ends n (unfinished message range) fun _ => True := by
  intro o ho s hs
  have h := unfinished_apply message range o s
  cases hr : unfinished message range o s with
  | ok v s' =>
    rw [hr] at h
    obtain ⟨houter, hframes, hcore, hmode, d, hwarnings⟩ := h
    exact ⟨⟨⟨houter.trans hs.outer, hframes ▸ hs.calls, hcore ▸ g.code_abandon ho hmode hs.code,
      hwarnings ▸ g.warned_push d hs.warnings⟩, hframes ▸ hs.frames⟩, trivial⟩
  | error f s' =>
    rw [hr] at h
    obtain ⟨houter, hframes, hcore, hwarnings, hf⟩ := h
    refine ⟨⟨houter.trans hs.outer, hframes ▸ hs.calls, hcore ▸ hs.code, ?_⟩, ?_⟩
    · rcases hwarnings with hwarnings | ⟨d, hwarnings⟩
      · exact hwarnings ▸ hs.warnings
      · exact hwarnings ▸ g.warned_push d hs.warnings
    · rcases hf with rfl | ⟨rfl, fn, hfn, hblock⟩
      · exact g.allows_fault _ _
      · exact g.allows_missing hs.code hfn hblock

/-! ## Frames of calls -/

theorem ends_frame? : g.Ends n frame? fun r => ∀ f, r = some f → f.Holds g.holds := by
  intro o ho s hs
  exact ⟨hs, fun f hf => hs.frames f (List.mem_of_mem_head? hf)⟩

theorem ends_frame : g.Ends (n + 1) frame (Frame.Holds g.holds) := by
  intro o ho s hs
  obtain ⟨f, rest, hf⟩ := List.exists_cons_of_length_eq_add_one hs.calls
  have hrun : frame o s = .ok f s := by
    cases s
    cases hf
    rfl
  rw [hrun]
  exact ⟨hs, hs.frames f (hf ▸ List.mem_cons_self)⟩

theorem ends_setFrame {f : Frame} (hf : f.Holds g.holds) :
    g.Ends (n + 1) (setFrame f) fun _ => True := by
  intro o ho s hs
  refine ⟨⟨⟨hs.outer, ?_, hs.code, hs.warnings⟩, ?_⟩, trivial⟩
  · have hcalls := hs.calls
    show (f :: s.frames.drop 1).length = n + 1
    rw [List.length_cons, List.length_drop]
    omega
  · intro f' hf'
    rcases List.mem_cons.mp hf' with rfl | hf'
    · exact hf
    · exact hs.frames f' (List.mem_of_mem_drop hf')

end Emit

end Staged
