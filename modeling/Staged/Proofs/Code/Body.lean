/-
  Staged.Proofs.Code.Body — a body from its beginning to its end.

  Between bodies no function is under construction, and all that is referred to exists
  (`Compiler.Whole`). A body is begun with an open block, lowered, and ended by closing
  all blocks; afterwards the function has a block and the state is whole again. A function
  that is not external lacks its body until then (`Core.Lacks`). Nothing but a prototype
  adds functions that lack a body (`Core.Advances`).
-/

import Staged.Declare.Member
import Staged.Proofs.Code.Sentence

namespace Staged

/-! ## Extents grow -/

namespace Extent

structure Le (e e' : Extent) : Prop where
  functions : e.functions ≤ e'.functions
  globals : e.globals ≤ e'.globals
  strings : e.strings ≤ e'.strings

variable {e e' : Extent}

theorem Covers.mono {rs : List Ir.Ref} (h : e.Covers rs) (he : e.Le e') : e'.Covers rs := by
  intro r hr
  have hhas := h r hr
  cases r with
  | function id => exact hhas.trans_le he.functions
  | global id => exact hhas.trans_le he.globals
  | string id => exact hhas.trans_le he.strings

end Extent

theorem TypeTable.Sound.mono {t : TypeTable} {e e' : Extent} (h : t.Sound e) (he : e.Le e') :
    t.Sound e' :=
  ⟨fun d hd m hm => (h.structs d hd m hm).trans_le he.functions,
    fun d hd m hm => (h.done d hd m hm).trans_le he.functions⟩

theorem Ir.Function.Sound.mono {f : Ir.Function} {e e' : Extent} (h : f.Sound e) (he : e.Le e') :
    f.Sound e' :=
  ⟨h.refs.mono he, h.closed, h.targets, h.external⟩

namespace Core

def extent (c : Core) : Extent :=
  ⟨c.ir.functions.size, c.ir.globals.size, c.ir.strings.size, 0⟩

theorem Sound.mono {c : Core} {e e' : Extent} (h : c.Sound e) (he : e.Le e')
    (hf : c.func = none) : c.Sound e' where
  types := h.types.mono he
  functions f hmem := (h.functions f hmem).mono he
  globals g hg := (h.globals g hg).mono he
  func f hfunc := by
    rw [hf] at hfunc
    cases hfunc

theorem Grows.le {c c' : Core} (h : c.Grows c') : c.extent.Le c'.extent where
  functions := by
    obtain ⟨more, hmore, -⟩ := h.functions
    simp only [extent, hmore, Array.size_append]
    omega
  globals := by simp only [extent, h.globals, Nat.le_refl]
  strings := h.strings

/-! ## Functions without a body -/

def Plain (c : Core) (i : Ir.FunctionId) : Prop :=
  ∃ f, c.ir.functions[i]? = some f ∧ f.external = false

def Lacks (c : Core) (i : Ir.FunctionId) : Prop :=
  ∃ f, c.ir.functions[i]? = some f ∧ f.external = false ∧ f.blocks = #[]

structure Advances (c c' : Core) (new : Ir.FunctionId → Prop) : Prop where
  plain : ∀ i, c.Plain i → c'.Plain i
  lacks : ∀ i, c'.Lacks i → c.Lacks i ∨ new i

variable {c c' c'' : Core} {new new' : Ir.FunctionId → Prop}

theorem Advances.refl (c : Core) : c.Advances c fun _ => False :=
  ⟨fun _ h => h, fun _ h => .inl h⟩

theorem Advances.trans (h : c.Advances c' new) (h' : c'.Advances c'' new') :
    c.Advances c'' fun i => new i ∨ new' i where
  plain i hi := h'.plain i (h.plain i hi)
  lacks i hi := by
    rcases h'.lacks i hi with hi | hi
    · exact (h.lacks i hi).imp_right .inl
    · exact .inr (.inr hi)

theorem Advances.mono (h : c.Advances c' new) (hn : ∀ i, new i → new' i) : c.Advances c' new' :=
  ⟨h.plain, fun i hi => (h.lacks i hi).imp_right (hn i)⟩

theorem Grows.advances (h : c.Grows c') : c.Advances c' fun _ => False := by
  obtain ⟨more, hmore, hext⟩ := h.functions
  refine ⟨fun i ⟨f, hf, hx⟩ => ⟨f, ?_, hx⟩, fun i ⟨f, hf, hx, hb⟩ => .inl ⟨f, ?_, hx, hb⟩⟩
  · have hi : i < c.ir.functions.size := (Array.getElem?_eq_some_iff.mp hf).1
    rw [hmore, Array.getElem?_append_left hi, hf]
  · by_cases hi : i < c.ir.functions.size
    · rw [hmore, Array.getElem?_append_left hi] at hf
      exact hf
    · rw [hmore, Array.getElem?_append_right (Nat.le_of_not_lt hi)] at hf
      have := (hext f (Array.mem_of_getElem? hf)).1
      rw [hx] at this
      cases this

def replace (c : Core) (i : Ir.FunctionId) (f : Ir.Function) : Core :=
  { c with func := none, ir := { c.ir with functions := c.ir.functions.modify i fun _ => f } }

theorem functions_replace (c : Core) (i j : Ir.FunctionId) (f : Ir.Function) :
    (c.replace i f).ir.functions[j]? =
      if i = j then c.ir.functions[j]?.map fun _ => f else c.ir.functions[j]? :=
  Array.getElem?_modify

theorem advances_replace {i : Ir.FunctionId} {f : Ir.Function} (hext : f.external = false)
    (hblocks : f.blocks ≠ #[]) : c.Advances (c.replace i f) fun _ => False where
  plain j hj := by
    obtain ⟨g, hg, hx⟩ := hj
    unfold Plain
    rw [functions_replace]
    split
    · exact ⟨f, by rw [hg]; rfl, hext⟩
    · exact ⟨g, hg, hx⟩
  lacks j hj := by
    obtain ⟨g, hg, hx, hb⟩ := hj
    rw [functions_replace] at hg
    split at hg
    · obtain ⟨-, -, rfl⟩ := Option.map_eq_some_iff.mp hg
      exact absurd hb hblocks
    · exact .inl ⟨g, hg, hx, hb⟩

theorem not_lacks_replace {i : Ir.FunctionId} {f : Ir.Function} (hblocks : f.blocks ≠ #[]) :
    ¬(c.replace i f).Lacks i := by
  rintro ⟨g, hg, -, hb⟩
  rw [functions_replace, if_pos rfl] at hg
  obtain ⟨-, -, rfl⟩ := Option.map_eq_some_iff.mp hg
  exact hblocks hb

end Core

/-! ## Between bodies -/

structure Compiler.Whole (s : Compiler) : Prop where
  func : s.func = none
  code : s.core.Sound s.core.extent
  symbols : ∀ y ∈ s.symbols, s.core.extent.Covers y.2.refs

structure Compiler.Passes (s s' : Compiler) (new : Ir.FunctionId → Prop) : Prop where
  whole : s'.Whole
  symbols : s'.symbols = s.symbols
  types : s.types.SameDefinitions s'.types
  advances : s.core.Advances s'.core new

theorem Compiler.Passes.refl {s : Compiler} (hs : s.Whole) : s.Passes s fun _ => False :=
  ⟨hs, rfl, .refl _, .refl _⟩

theorem Compiler.Passes.trans {s s₁ s₂ : Compiler} {new new' : Ir.FunctionId → Prop}
    (h : s.Passes s₁ new) (h' : s₁.Passes s₂ new') : s.Passes s₂ fun i => new i ∨ new' i where
  whole := h'.whole
  symbols := h'.symbols.trans h.symbols
  types := h.types.trans h'.types
  advances := h.advances.trans h'.advances

/-- Something follows that adds no function without a body. -/
theorem Compiler.Passes.next {s s₁ s₂ : Compiler} {new : Ir.FunctionId → Prop}
    (h : s.Passes s₁ new) (h' : s₁.Passes s₂ fun _ => False) : s.Passes s₂ new :=
  { h.trans h' with advances := (h.trans h').advances.mono fun _ hi => hi.resolve_right not_false }

namespace Emit

variable {α : Type} {o : Options} {s s₁ s₂ s' : Compiler}

/-- Actions that can be written into a body can also stand between bodies. -/
theorem passes_of_emits {a : Emit α} {Q : Extent → α → Prop} {v : α}
    (ha : ∀ E, Emits E True a (Q E)) (hs : s.Whole) (hr : a o s = .ok v s') :
    s.Passes s' (fun _ => False) ∧ Q s'.core.extent v := by
  obtain ⟨hy, hg, hq⟩ := ha s'.core.extent o s v s' hr
  have hfunc : s'.func = none := by
    have hrel := hg.func
    rw [show s.core.func = none from hs.func] at hrel
    cases hf : s'.core.func with
    | none => exact hf
    | some f =>
      rw [hf] at hrel
      cases hrel
  have hfits : s'.core.Fits s'.core.extent :=
    ⟨Nat.le_refl _, Nat.le_refl _, Nat.le_refl _, fun f hf => by
      rw [show s'.core.func = none from hfunc] at hf
      cases hf⟩
  have hsyms : ∀ y ∈ s.symbols, s'.core.extent.Covers y.2.refs :=
    fun y hmem => (hs.symbols y hmem).mono hg.le
  obtain ⟨hsound, hv⟩ := hq hfits trivial hsyms (hs.code.mono hg.le hs.func)
  exact ⟨⟨⟨hfunc, hsound, hy ▸ hsyms⟩, hy, hg.types, hg.advances⟩, hv⟩

/-! ## The beginning and the end of a body -/

theorem prototype_ok {i : Ir.FunctionId} {p : Ir.Function} (h : prototype i o s = .ok p s') :
    s.ir.functions[i]? = some p ∧ s' = s := by
  obtain ⟨t, t', ht, hr⟩ := bind_ok h
  cases ht
  cases hp : s.ir.functions[i]? with
  | none =>
    simp only [hp] at hr
    cases hr
  | some q =>
    simp only [hp] at hr
    cases hr
    exact ⟨rfl, rfl⟩

def begun (i : Ir.FunctionId) (p : Ir.Function) (result : Ty) (self : Option Instance) :
    FunctionState :=
  { id := i, function := { (p.newBlock (some "entry")).1 with entry := p.blocks.size },
    current := p.blocks.size, result, self }

theorem beginFunction_ok {i : Ir.FunctionId} {result : Ty} {self : Option Instance} {u : Unit}
    (h : beginFunction i result self o s = .ok u s') :
    ∃ p, s.ir.functions[i]? = some p ∧ s' = { s with func := some (begun i p result self) } := by
  have hrun : beginFunction i result self = (do
    let t ← get
    if t.func.isSome then breach .nestedFunction
    let p ← prototype i
    setFunction (begun i p result self) : Emit Unit) := rfl
  rw [hrun] at h
  obtain ⟨t, t', ht, hr⟩ := bind_ok h
  cases ht
  cases hf : s.func with
  | some f =>
    simp only [hf, Option.isSome_some, if_true] at hr
    cases hr
  | none =>
    simp only [hf, Option.isSome_none, Bool.false_eq_true, if_false] at hr
    obtain ⟨p, t, hp, hset⟩ := bind_ok hr
    obtain ⟨hp, rfl⟩ := prototype_ok hp
    cases hset
    exact ⟨p, hp, rfl⟩

/-- Ending a body closes its blocks and puts the function in its place. -/
theorem finishFunction_apply (range : Span) {f : FunctionState}
    (hf : s.func = some f) : finishFunction range o s =
      match closeAll? f.function f.result with
      | some done =>
        if s.ir.functions[f.id]?.isNone then .error (.breach .lostFunction) { s with func := none }
        else .ok () { s with
          func := none
          ir := { s.ir with functions := s.ir.functions.modify f.id fun _ => done } }
      | none => .error (.fault (.missingGive f.function.name f.result) range)
          { s with func := none } := by
  unfold finishFunction
  rw [bind_apply, function_apply hf]
  show (do
    let done ← require (closeAll? f.function f.result) _ range
    _ : Emit Unit) o { s with func := none } = _
  rw [bind_apply]
  cases closeAll? f.function f.result with
  | none => rfl
  | some done =>
    show (if s.ir.functions[f.id]?.isNone then _ else _ : Emit Unit) o { s with func := none } = _
    cases s.ir.functions[f.id]?.isNone <;> rfl

theorem finishFunction_ok {range : Span} {u : Unit} (h : finishFunction range o s = .ok u s') :
    ∃ f done, s.func = some f ∧ closeAll? f.function f.result = some done ∧
      s' = { s with
        func := none
        ir := { s.ir with functions := s.ir.functions.modify f.id fun _ => done } } := by
  obtain ⟨f, t, hf, -⟩ := bind_ok h
  obtain ⟨hf, -⟩ := function_ok hf
  rw [finishFunction_apply range hf] at h
  cases hdone : closeAll? f.function f.result with
  | none =>
    rw [hdone] at h
    cases h
  | some done =>
    rw [hdone] at h
    dsimp only at h
    split at h
    · cases h
    · cases h
      exact ⟨f, done, hf, hdone, rfl⟩

def Ended (b b' : Ir.Block) : Prop :=
  b'.isClosed = true ∧ (b' = b ∨ ∃ t : Ir.Terminator, (t = .ret none ∨ t = .unreachable) ∧
    b' = b.close t)

theorem isClosed_close (b : Ir.Block) (t : Ir.Terminator) : (b.close t).isClosed = true := by
  unfold Ir.Block.close
  split
  · assumption
  · rfl

theorem endOf_cases {f : Ir.Function} {result : Ty} {id : Ir.BlockId} {t : Ir.Terminator}
    (h : endOf f result id = some t) : t = .ret none ∨ t = .unreachable := by
  unfold endOf at h
  split at h
  · cases h
    exact .inl rfl
  · split at h
    · cases h
      exact .inr rfl
    · cases h

theorem closeAll_spec {f done : Ir.Function} {result : Ty} (h : closeAll? f result = some done) :
    done.external = f.external ∧ List.Forall₂ Ended f.blocks.toList done.blocks.toList := by
  obtain ⟨blocks, hblocks, hdone⟩ := Option.bind_eq_some_iff.mp h
  cases hdone
  refine ⟨rfl, ?_⟩
  have hended : List.Forall₂ (fun p b' => Ended p.1 b') f.blocks.toList.zipIdx blocks := by
    refine (mapM_eq_some_iff.mp hblocks).imp fun ⟨b, id⟩ b' hb => ?_
    dsimp only at hb
    split at hb
    · cases hb
      exact ⟨‹_›, .inl rfl⟩
    · obtain ⟨t, ht, rfl⟩ := Option.map_eq_some_iff.mp hb
      exact ⟨isClosed_close b t, .inr ⟨t, endOf_cases ht, rfl⟩⟩
  have hmap := List.forall₂_map_left_iff.mpr hended
  rw [List.zipIdx_map_fst] at hmap
  exact hmap

theorem Ended.keeps {e : Extent} {b b' : Ir.Block} (h : Ended b b') :
    (e.Covers b.refs → e.Covers b'.refs) ∧
      ((∀ t ∈ b.successors, t < e.blocks) → ∀ t ∈ b'.successors, t < e.blocks) := by
  obtain ⟨-, rfl | ⟨t, ht, rfl⟩⟩ := h
  · exact ⟨id, id⟩
  · have hkeeps : Ir.Block.Keeps e (·.close t) := by
      refine Ir.Block.keeps_close ?_ ?_ <;> rcases ht with rfl | rfl
      · exact Extent.covers_nil
      · exact Extent.covers_nil
      · intro id hid
        cases hid
      · intro id hid
        cases hid
    exact ⟨hkeeps.refs b, hkeeps.targets b⟩

theorem exists_of_mem_right {α β : Type} {R : α → β → Prop} {as : List α} {bs : List β} {b : β}
    (h : List.Forall₂ R as bs) (hb : b ∈ bs) : ∃ a ∈ as, R a b := by
  obtain ⟨i, hi, rfl⟩ := List.mem_iff_getElem.mp hb
  have hi' : i < as.length := h.length_eq ▸ hi
  exact ⟨as[i], List.getElem_mem hi', h.get hi' hi⟩

/-- A function whose code is sound is sound once it is ended. -/
theorem sound_ended {f done : Ir.Function} {result : Ty} {e : Extent}
    (h : closeAll? f result = some done) (hext : f.external = false) (hrefs : e.Covers f.refs)
    (htargets : ∀ b ∈ f.blocks, ∀ t ∈ b.successors, t < e.blocks)
    (hsize : e.blocks = f.blocks.size) :
    done.Sound e ∧ done.external = false ∧ done.blocks.size = f.blocks.size := by
  obtain ⟨hexternal, hended⟩ := closeAll_spec h
  have hlen : done.blocks.size = f.blocks.size := by simpa using hended.length_eq.symm
  have hof {b' : Ir.Block} (hb' : b' ∈ done.blocks) : ∃ b ∈ f.blocks, Ended b b' := by
    obtain ⟨b, hb, h⟩ := exists_of_mem_right hended (Array.mem_toList_iff.mpr hb')
    exact ⟨b, Array.mem_toList_iff.mp hb, h⟩
  rw [Ir.Function.covers_refs] at hrefs
  refine ⟨⟨Ir.Function.covers_refs.mpr fun b' hb' => ?_, fun b' hb' => ?_, fun b' hb' => ?_,
    fun hx => ?_⟩, hexternal.trans hext, hlen⟩
  · obtain ⟨b, hb, h⟩ := hof hb'
    exact h.keeps.1 (hrefs b hb)
  · obtain ⟨b, hb, h⟩ := hof hb'
    exact h.1
  · obtain ⟨b, hb, h⟩ := hof hb'
    rw [hlen, ← hsize]
    exact h.keeps.2 (htargets b hb)
  · rw [hexternal, hext] at hx
    cases hx

/-! ## Whole bodies -/

theorem mem_modify_const {α : Type} {as : Array α} {i : Nat} {a b : α}
    (h : a ∈ as.modify i fun _ => b) : a = b ∨ a ∈ as := by
  obtain ⟨j, hj⟩ := Array.mem_iff_getElem?.mp h
  rw [Array.getElem?_modify] at hj
  split at hj
  · obtain ⟨-, -, rfl⟩ := Option.map_eq_some_iff.mp hj
    exact .inl rfl
  · exact .inr (Array.mem_of_getElem? hj)

theorem sound_begun {i : Ir.FunctionId} {p : Ir.Function} {result : Ty} {self : Option Instance}
    {e : Extent} (hp : p.Sound e) (hsize : p.blocks.size ≤ e.blocks)
    (hself : ∀ inst, self = some inst → e.Covers inst.address.refs) :
    (begun i p result self).Sound e where
  refs := by
    show e.Covers (p.newBlock (some "entry")).1.refs
    exact Ir.Function.covers_newBlock hp.refs
  targets b hb t ht := by
    rcases Array.mem_push.mp hb with hb | rfl
    · exact (hp.targets b hb t ht).trans_le hsize
    · cases ht
  loops l hl := by cases hl
  locals scope hscope v hv := by
    rw [List.mem_singleton.mp hscope] at hv
    cases hv
  self := hself

/-- A body that is lowered gives its function blocks and leaves the state whole. -/
theorem passes_body {i : Ir.FunctionId} {result : Ty} {self : Option Instance} {a : Emit Unit}
    {range : Span} {u u' u'' : Unit} (hs : s.Whole) (hplain : s.core.Plain i)
    (hself : ∀ E : Extent, ∀ inst, self = some inst → E.Covers inst.address.refs)
    (ha : ∀ E, Emits E True a fun _ => True) (hbegin : beginFunction i result self o s = .ok u s₁)
    (hrun : a o s₁ = .ok u' s₂) (hend : finishFunction range o s₂ = .ok u'' s') :
    s.Passes s' (fun _ => False) ∧ ¬s'.core.Lacks i := by
  obtain ⟨p, hp, rfl⟩ := beginFunction_ok hbegin
  obtain ⟨f, done, hf, hdone, rfl⟩ := finishFunction_ok hend
  obtain ⟨p', hp', hext⟩ := hplain
  rw [show s.core.ir = s.ir from rfl, hp] at hp'
  cases hp'
  -- everything is judged by what there is at the end
  let E : Extent := ⟨s₂.ir.functions.size, s₂.ir.globals.size, s₂.ir.strings.size,
    f.function.blocks.size⟩
  obtain ⟨hsyms, hgrows, hsound⟩ := ha E o _ u' s₂ hrun
  have hgrown : (begun i p result self).Grows f := by
    have hrel := hgrows.func
    rw [show s₂.core.func = some f from hf] at hrel
    cases hrel with
    | some h => exact h
  have hblocks : p.blocks.size < f.function.blocks.size := by
    have := hgrown.blocks
    simp only [begun, Ir.Function.newBlock, Array.size_push] at this
    exact this
  have hle : s.core.extent.Le E :=
    ⟨hgrows.le.functions, hgrows.le.globals, hgrows.le.strings⟩
  have hsymbols : ∀ y ∈ s.symbols, E.Covers y.2.refs := fun y hy => (hs.symbols y hy).mono hle
  have hcode : s.core.Sound E := hs.code.mono hle hs.func
  have hstart : Core.Sound { s.core with func := some (begun i p result self) } E :=
    hcode.setFunc (sound_begun (hcode.functions p (Array.mem_of_getElem? hp)) hblocks.le (hself E))
  have hfits : s₂.core.Fits E := ⟨Nat.le_refl _, Nat.le_refl _, Nat.le_refl _, fun g hg => by
    rw [show s₂.core.func = some f from hf] at hg
    cases hg
    exact Nat.le_refl _⟩
  obtain ⟨hend, -⟩ := hsound hfits trivial hsymbols hstart
  have hfunc := hend.func f hf
  obtain ⟨hdoneSound, hdoneExt, hdoneSize⟩ := sound_ended hdone
    (hgrown.external.trans hext) hfunc.refs hfunc.targets rfl
  have hnonempty : done.blocks ≠ #[] := by
    intro h
    rw [h] at hdoneSize
    simp only [Array.size_empty] at hdoneSize
    omega
  have hid : f.id = i := hgrown.id
  have hle' : E.Le ⟨(s₂.ir.functions.modify f.id fun _ => done).size, s₂.ir.globals.size,
      s₂.ir.strings.size, 0⟩ :=
    ⟨(Array.size_modify).ge, Nat.le_refl _, Nat.le_refl _⟩
  refine ⟨⟨⟨rfl, ⟨hend.types.mono hle', fun g hg => ?_, fun g hg => (hend.globals g hg).mono hle',
    fun g hg => by cases hg⟩, fun y hy => ?_⟩, hsyms, hgrows.types, ?_⟩, ?_⟩
  · rcases mem_modify_const hg with rfl | hg
    · exact hdoneSound.mono hle'
    · exact (hend.functions g hg).mono hle'
  · rw [show Compiler.symbols { s₂ with func := none, ir := _ } = s.symbols from hsyms] at hy
    exact (hsymbols y hy).mono hle'
  · have hstep := hgrows.advances.trans (Core.advances_replace (i := f.id) hdoneExt hnonempty)
    exact ⟨hstep.plain, fun j hj => (hstep.lacks j hj).imp_right fun h => h.elim id id⟩
  · rw [← hid]
    exact Core.not_lacks_replace (c := s₂.core) hnonempty

theorem emits_bindParam (name : Ident) (r : Ir.Register) (ty : Ty) (isVar : Bool) {E : Extent}
    {P : Prop} : Emits E P (bindParam name r ty isVar) fun _ => True := by
  unfold bindParam
  split
  · exact emits_declareLocal fun _ => Extent.covers_nil
  · refine (emits_requireSized ty _).step fun _ => (emits_alloca _ _).step fun slot => ?_
    refine (emits_store fun _ => ⟨Extent.covers_nil, Extent.covers_nil⟩).step fun _ => ?_
    exact emits_declareLocal fun _ => Extent.covers_nil

theorem emits_bindParams {E : Extent} {P : Prop} :
    ∀ (args : List Argument) (rs : List Ir.Register),
      Emits E P (bindParams args rs) fun _ => True
  | [], _ | _ :: _, [] => by
    unfold bindParams
    exact .pure fun _ => trivial
  | a :: args, r :: rs => by
    unfold bindParams
    exact (emits_bindParam a.name r r.type a.isVar).step fun _ => emits_bindParams args rs

theorem emits_bindMemberArgs {E : Extent} {P : Prop} (parent : Ty) {self : Option Instance}
    (hself : P → ∀ inst, self = some inst → E.Covers inst.address.refs) :
    ∀ (args : List MemberArg) (rs : List Ir.Register),
      Emits E P (bindMemberArgs parent self args rs) fun _ => True
  | [], _ | _ :: _, [] => by
    unfold bindMemberArgs
    exact .pure fun _ => trivial
  | a :: args, r :: rs => by
    have hrest := emits_bindMemberArgs parent hself args rs
    unfold bindMemberArgs
    dsimp only
    split
    · refine (emits_fieldPtr _ _ _ fun hp => hself hp _ rfl).step fun ptr => ?_
      exact (emits_store fun _ => ⟨Extent.covers_nil, Extent.covers_nil⟩).step fun _ => hrest
    · exact (emits_bindParam _ r _ _).step fun _ => hrest

/-- The body of a function. -/
theorem passes_functionBody {view : Viewpoint} {id : EntityId} {d : FunctionDecl} {range : Span}
    {u : Unit} (hs : s.Whole) (hr : functionBody view id d range o s = .ok u s')
    (hplain : ∀ i ty, s.symbols.lookup id = some (.function i ty) → d.body.isSome = true →
      s.core.Plain i) :
    s.Passes s' (fun _ => False) ∧ ∀ i ty, s.symbols.lookup id = some (.function i ty) →
      d.body.isSome = true → ¬s'.core.Lacks i := by
  unfold functionBody at hr
  cases hd : d.body with
  | none =>
    rw [hd] at hr
    cases hr
    exact ⟨.refl hs, fun _ _ _ h => by cases h⟩
  | some body =>
    rw [hd] at hr
    obtain ⟨y, t, hy, hr⟩ := bind_ok hr
    obtain ⟨hlookup, rfl⟩ := symbolOf_ok hy
    have hfails (h : (breach (.noPrototype d.name.text) : Emit Unit) o t = .ok u s') : False := by
      cases h
    cases y with
    | function f ty =>
      cases ty with
      | function result params variadic =>
        obtain ⟨p, t', hp, hrest⟩ := bind_ok hr
        obtain ⟨hp, rfl⟩ := prototype_ok hp
        obtain ⟨u₁, s₁, hbegin, hbody⟩ := bind_ok hrest
        rw [← bind_assoc] at hbody
        obtain ⟨u₂, s₂, hrun, hend⟩ := bind_ok hbody
        have ha (E : Extent) : Emits E True (bindParams d.args p.params >>= fun _ =>
            lowerSentences view body) fun _ => True :=
          (emits_bindParams _ _).step fun _ => writes_lowerSentences view body _
        obtain ⟨hpasses, hlacks⟩ := passes_body hs (hplain f _ hlookup (by rw [hd]; rfl))
          (fun _ _ h => by cases h) ha hbegin hrun hend
        refine ⟨hpasses, fun i ty h _ => ?_⟩
        rw [hlookup] at h
        cases h
        exact hlacks
      | _ => exact (hfails hr).elim
    | _ => exact (hfails hr).elim

/-! ## Bodies of members -/

theorem splitParams_ok {m : MemberFunction} {params args : List Ir.Register}
    {self : Option Instance} (h : splitParams m params o s = .ok (self, args) s') :
    s' = s ∧ ∀ inst, self = some inst → ∃ r : Ir.Register, inst.address = .reg r := by
  unfold splitParams at h
  by_cases hself : m.kind.hasSelf = true
  · rw [if_pos hself] at h
    cases params with
    | nil => cases h
    | cons r rest =>
      cases h
      exact ⟨rfl, fun inst hinst => by cases hinst; exact ⟨r, rfl⟩⟩
  · rw [if_neg hself] at h
    cases h
    exact ⟨rfl, fun inst hinst => by cases hinst⟩

theorem passes_memberBody {module : ModId} {m : MemberFunction} {d : MemberDecl} {u : Unit}
    (hs : s.Whole) (hplain : s.core.Plain m.function)
    (hr : memberBody module m d o s = .ok u s') :
    s.Passes s' (fun _ => False) ∧ ¬s'.core.Lacks m.function := by
  obtain ⟨p, t, hp, hsplit⟩ := bind_ok hr
  obtain ⟨hp, rfl⟩ := prototype_ok hp
  obtain ⟨⟨self, args⟩, t', hparams, hrest⟩ := bind_ok hsplit
  obtain ⟨rfl, hself⟩ := splitParams_ok hparams
  obtain ⟨u₁, s₁, hbegin, hbody⟩ := bind_ok hrest
  rw [← bind_assoc] at hbody
  obtain ⟨u₂, s₂, hrun, hend⟩ := bind_ok hbody
  have hcovers (E : Extent) (inst : Instance) (h : self = some inst) :
      E.Covers inst.address.refs := by
    obtain ⟨r, hr⟩ := hself inst h
    rw [hr]
    exact Extent.covers_nil
  exact passes_body hs hplain hcovers (fun E => (emits_bindMemberArgs _ (fun _ => hcovers E) _ _).step
    fun _ => writes_lowerSentences _ d.body _) hbegin hrun hend

/-- Members that are all declared get their bodies. -/
theorem passes_memberBodies {module : ModId} :
    ∀ {ms : List MemberFunction} {ds : List MemberDecl} {s : Compiler} {u : Unit}, s.Whole →
      (∀ m ∈ ms, s.core.Plain m.function) → memberBodies module ms ds o s = .ok u s' →
      s.Passes s' (fun _ => False) ∧
        (ms.length ≤ ds.length → ∀ m ∈ ms, ¬s'.core.Lacks m.function)
  | [], ds, s, u, hs, _, hr => by
    unfold memberBodies at hr
    cases hr
    exact ⟨.refl hs, fun _ m hm => by cases hm⟩
  | m :: ms, [], s, u, hs, _, hr => by
    unfold memberBodies at hr
    cases hr
    exact ⟨.refl hs, fun h => absurd h (by simp)⟩
  | m :: ms, d :: ds, s, u, hs, hplain, hr => by
    unfold memberBodies at hr
    obtain ⟨u₁, s₁, hbody, hr⟩ := bind_ok hr
    obtain ⟨hpasses, hlacks⟩ := passes_memberBody hs (hplain m List.mem_cons_self) hbody
    obtain ⟨hrest, hdone⟩ := passes_memberBodies hpasses.whole (fun x hx =>
      hpasses.advances.plain _ (hplain x (List.mem_cons_of_mem m hx))) hr
    refine ⟨hpasses.next hrest, fun hlen x hx => ?_⟩
    rcases List.mem_cons.mp hx with rfl | hx
    · exact fun h => hlacks ((hrest.advances.lacks _ h).elim id False.elim)
    · exact hdone (Nat.le_of_succ_le_succ hlen) x hx

end Emit

end Staged
