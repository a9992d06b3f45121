/-
  Staged.Proofs.Values.Sound — evaluation gives values that look like their type.

  Values that fit their types are a domain, as long as the definitions behind types stay
  as they are, and evaluation only uses types. So from a state in which whatever is known
  fits its type, evaluation gives values that fit theirs (`Emit.fits_evaluateWith`), inside
  calls as well as outside.

  In emitted code, what does not fit has no form and becomes `undef`. A value that fits is
  written out part for part, and `undef` stands for types and for `void` alone
  (`Data.Written`).
-/

import Staged.Proofs.Values.Calls
import Staged.Proofs.Values.Shape

namespace Staged

/-! ## Values that fit -/

/-- The values that fit their types, for the definitions of a table. -/
def Domain.fitting (t : TypeTable) (ht : t.HasDefaults) : Domain where
  holds c := c.Fits t
  knows t' := t.SameDefinitions t'
  bool _ := rfl
  char _ := rfl
  str _ := rfl
  void := rfl
  type ty := Constant.fits_type' ty
  usize _ := Constant.fits_int (Constant.isIntegral_usize t)
  byte _ := Constant.fits_int (Constant.isIntegral_u8 t)
  int h hinfo _ := Constant.fits_int (h.isIntegral _ ▸ Option.isSome_of_eq_some hinfo)
  below h hint _ _ _ _ := Constant.fits_int (h.isIntegral _ ▸ hint)
  float _ h hkind := Constant.fits_float (h.floatKind? _ ▸ hkind)
  null h := h
  none {ty} h := by
    cases ty with
    | maybe sub => rfl
    | _ => cases h
  some {c} h := Data.fits_maybe.mpr ⟨c.type, rfl, fun d hd => by cases hd; exact h⟩
  tuple {cs} h := by
    refine Data.fits_tuple.mpr ⟨_, _, rfl, ?_⟩
    rw [List.forall₂_map_left_iff, List.forall₂_map_right_iff, List.forall₂_same]
    exact h
  array h := Data.fits_array.mpr ⟨_, rfl, h⟩
  item h hd := Constant.fits_item h hd
  struct {t₁ t₂ ty ds} h₁ h₂ hs h := by
    obtain ⟨d, hd⟩ := Option.isSome_iff_exists.mp hs
    rw [h₁.structOf?] at hd
    rw [h₂.structOf?, hd] at h
    exact Data.fits_struct.mpr ⟨d, hd, h⟩
  default h hc := (Constant.fits_congr h).mp (TypeTable.fits_default (h.hasDefaults ht) hc)
  literal h hc := (Constant.fits_congr h).mp (TypeTable.fits_intLiteral hc)
  unary h hl hc :=
    (Constant.fits_congr h).mp (TypeTable.fits_foldUnary ((Constant.fits_congr h).mpr hl) hc)
  binary h hl _ hc :=
    (Constant.fits_congr h).mp (TypeTable.fits_foldBinary ((Constant.fits_congr h).mpr hl) hc)
  cast h hl hc :=
    (Constant.fits_congr h).mp (TypeTable.fits_foldCast ((Constant.fits_congr h).mpr hl) hc)
  index h hc := Constant.fits_index h hc
  member h hl hc :=
    (Constant.fits_congr h).mp (TypeTable.fits_knownMember ((Constant.fits_congr h).mpr hl) hc)
  variant h hp hc := (Constant.fits_congr h).mp
    (TypeTable.fits_knownVariant (fun c hc => (Constant.fits_congr h).mpr (hp c hc)) hc)

/-! ## Emitted constants -/

namespace Data

mutual

/-- The constant of emitted code says the value, part for part. -/
def Written (t : TypeTable) : Data → Ty → Ir.Const → Prop
  | int v, ty, c => c = .int ty v
  | char x, ty, c => c = .int ty x.toNat
  | float x, ty, c => c = .float ty x
  | bool b, ty, c => c = .bool ty b
  | str _, ty, c => ∃ id, c = .str ty id
  | null, ty, c => c = .null ty
  | void, ty, c | type _, ty, c => c = .undef ty
  | array items, ty, c => ∃ element members, ty.sequenceElement? = some element ∧
      c = .aggregate ty members ∧ WrittenAll t items element members
  | tuple items, ty, c | struct items, ty, c => ∃ types members,
      t.memberTypes? ty = some types ∧ c = .aggregate ty members ∧
        WrittenEach t items types members
  | maybe inner, ty, c => ∃ sub payload, ty.maybe? = some sub ∧
      c = .aggregate ty [.bool .bool inner.isSome, payload] ∧ WrittenInner t inner sub payload
  | mix variant payload, ty, c => ∃ d v members, t.mixOf? ty = some d ∧
      d.variants[variant]? = some v ∧
      c = .aggregate ty (.int (.uint d.tagBits) variant :: members) ∧
      WrittenPayload t payload v.payload members

def WrittenAll (t : TypeTable) : List Data → Ty → List Ir.Const → Prop
  | [], _, cs => cs = []
  | d :: ds, ty, cs => ∃ c rest, cs = c :: rest ∧ Written t d ty c ∧ WrittenAll t ds ty rest

def WrittenEach (t : TypeTable) : List Data → List Ty → List Ir.Const → Prop
  | [], tys, cs => tys = [] ∧ cs = []
  | d :: ds, tys, cs => ∃ ty tys' c rest, tys = ty :: tys' ∧ cs = c :: rest ∧
      Written t d ty c ∧ WrittenEach t ds tys' rest

def WrittenInner (t : TypeTable) : Option Data → Ty → Ir.Const → Prop
  | none, ty, c => c = .zero ty
  | some d, ty, c => Written t d ty c

def WrittenPayload (t : TypeTable) : Option Data → Option Ty → List Ir.Const → Prop
  | none, ty, cs => ty = none ∧ cs = []
  | some d, ty, cs => ∃ ty' c, ty = some ty' ∧ cs = [c] ∧ Written t d ty' c

end

end Data

namespace Pool

def Keeps (t : TypeTable) {α : Type} (m : StateM Pool α) (Q : α → Prop) : Prop :=
  ∀ p : Pool, t.SameDefinitions p.types → t.SameDefinitions (m p).2.types ∧ Q (m p).1

variable {t : TypeTable} {α β : Type} {m : StateM Pool α} {k : α → StateM Pool β} {Q : α → Prop}
  {R : β → Prop}

theorem Keeps.pure {v : α} (h : Q v) : Keeps t (pure v) Q := fun _ hp => ⟨hp, h⟩

theorem Keeps.bind (hm : Keeps t m Q) (hk : ∀ v, Q v → Keeps t (k v) R) :
    Keeps t (m >>= k) R := by
  intro p hp
  obtain ⟨hp', hq⟩ := hm p hp
  exact hk (m p).1 hq (m p).2 hp'

theorem keeps_get : Keeps t (get : StateM Pool Pool) fun p => t.SameDefinitions p.types :=
  fun _ hp => ⟨hp, hp⟩

theorem keeps_intern (ty : Ty) : Keeps t (intern ty) (· = ty) := fun _ hp => ⟨hp.intern ty, rfl⟩

theorem keeps_string (s : String) : Keeps t (string s) fun _ => True := fun _ hp => ⟨hp, trivial⟩

end Pool

namespace Data

variable {t : TypeTable}

/-- Nothing is written where the variant carries nothing. -/
theorem written_none : ∀ d : Option Data, fitsPayload t d none = true → WrittenPayload t d none []
  | none, _ => by
    rw [WrittenPayload]
    exact ⟨rfl, rfl⟩
  | some d, h => by
    simp [fitsPayload] at h

mutual

theorem written_emitted : ∀ (d : Data) (ty : Ty), d.fits t ty = true →
    Pool.Keeps t (d.emitted ty) (d.Written t ty)
  | int _, _, _ | char _, _, _ | float _, _, _ | bool _, _, _ | null, _, _ | void, _, _
  | type _, _, _ => by
    unfold emitted
    refine .pure ?_
    rw [Written]
  | str s, ty, _ => by
    unfold emitted
    refine (Pool.keeps_string s).bind fun id _ => .pure ?_
    rw [Written]
    exact ⟨id, rfl⟩
  | array items, ty, h => by
    obtain ⟨element, rfl, hitems⟩ := fits_array.mp h
    unfold emitted
    refine (written_emittedAll items element hitems).bind fun members hmembers => .pure ?_
    rw [Written]
    exact ⟨element, members, rfl, rfl, hmembers⟩
  | tuple items, ty, h => by
    obtain ⟨types, packed, rfl, hitems⟩ := fits_tuple.mp h
    unfold emitted
    refine Pool.keeps_get.bind fun p _ => ?_
    refine (written_emittedEach items types hitems).bind fun members hmembers => .pure ?_
    rw [Written]
    exact ⟨types, members, rfl, rfl, hmembers⟩
  | struct items, ty, h => by
    obtain ⟨d, hd, hitems⟩ := fits_struct.mp h
    have htypes : t.memberTypes? ty = some d.fieldTypes := by
      cases ty with
      | struct id =>
        have hdef : t.structs[id]? = some d := hd
        simp [TypeTable.memberTypes?, hdef]
      | _ => cases hd
    unfold emitted
    refine Pool.keeps_get.bind fun p hp => ?_
    rw [hp.memberTypes?, htypes]
    refine (written_emittedEach items d.fieldTypes hitems).bind fun members hmembers => .pure ?_
    rw [Written]
    exact ⟨d.fieldTypes, members, htypes, rfl, hmembers⟩
  | maybe inner, ty, h => by
    obtain ⟨sub, rfl, hinner⟩ := fits_maybe.mp h
    unfold emitted
    refine (written_emittedOption inner sub hinner).bind fun payload hpayload => .pure ?_
    rw [Written]
    exact ⟨sub, payload, rfl, rfl, hpayload⟩
  | mix variant payload, ty, h => by
    obtain ⟨d, v, hd, hv, hpayload⟩ := fits_mix.mp h
    have hrest (members : List Ir.Const) (hm : WrittenPayload t payload v.payload members) :
        (mix variant payload).Written t ty
          (.aggregate ty (.int (.uint d.tagBits) variant :: members)) := by
      rw [Written]
      exact ⟨d, v, members, hd, hv, rfl, hm⟩
    unfold emitted
    refine Pool.keeps_get.bind fun p hp => ?_
    rw [hp.mixOf?, hd]
    refine (Pool.keeps_intern _).bind fun tag htag => ?_
    subst htag
    rw [hv, Option.bind_some]
    cases hcarried : v.payload with
    | none =>
      rw [hcarried] at hpayload hrest
      exact .pure (hrest [] (written_none payload hpayload))
    | some payloadType =>
      rw [hcarried] at hpayload hrest
      refine (written_emittedPayload payload payloadType hpayload).bind fun members hm => ?_
      exact .pure (hrest members hm)

theorem written_emittedAll : ∀ (ds : List Data) (ty : Ty), (∀ d ∈ ds, d.fits t ty = true) →
    Pool.Keeps t (emittedAll ty ds) (WrittenAll t ds ty)
  | [], _, _ => by
    unfold emittedAll
    refine .pure ?_
    rw [WrittenAll]
  | d :: ds, ty, h => by
    obtain ⟨hd, hds⟩ := List.forall_mem_cons.mp h
    unfold emittedAll
    refine (written_emitted d ty hd).bind fun c hc => ?_
    refine (written_emittedAll ds ty hds).bind fun cs hcs => .pure ?_
    rw [WrittenAll]
    exact ⟨c, cs, rfl, hc, hcs⟩

theorem written_emittedEach : ∀ (ds : List Data) (tys : List Ty),
    List.Forall₂ (fun d ty => d.fits t ty = true) ds tys →
    Pool.Keeps t (emittedEach tys ds) (WrittenEach t ds tys)
  | [], [], _ => by
    unfold emittedEach
    refine .pure ?_
    rw [WrittenEach]
    exact ⟨rfl, rfl⟩
  | d :: ds, ty :: tys, h => by
    obtain ⟨hd, hds⟩ := List.forall₂_cons.mp h
    unfold emittedEach
    refine (written_emitted d ty hd).bind fun c hc => ?_
    refine (written_emittedEach ds tys hds).bind fun cs hcs => .pure ?_
    rw [WrittenEach]
    exact ⟨ty, tys, c, cs, rfl, rfl, hc, hcs⟩

theorem written_emittedOption : ∀ (d : Option Data) (ty : Ty),
    (∀ x, d = some x → x.fits t ty = true) →
    Pool.Keeps t (emittedOption ty d) (WrittenInner t d ty)
  | none, ty, _ => by
    unfold emittedOption
    refine .pure ?_
    rw [WrittenInner]
  | some d, ty, h => by
    unfold emittedOption
    exact fun p hp => by
      rw [WrittenInner]
      exact written_emitted d ty (h d rfl) p hp

theorem written_emittedPayload : ∀ (d : Option Data) (ty : Ty),
    fitsPayload t d (some ty) = true →
    Pool.Keeps t (emittedPayload ty d) (WrittenPayload t d (some ty))
  | some d, ty, h => by
    rw [fitsPayload] at h
    unfold emittedPayload
    refine (written_emitted d ty h).bind fun c hc => .pure ?_
    rw [WrittenPayload]
    exact ⟨ty, c, rfl, rfl, hc⟩
  | none, ty, h => by
    simp [fitsPayload] at h

end

end Data

/-! ## States -/

def FunctionState.Fits (f : FunctionState) (t : TypeTable) : Prop :=
  ∀ scope ∈ f.scopes, ∀ l ∈ scope, ∀ c, l.known = some c → c.Fits t

structure Compiler.Shaped (s : Compiler) : Prop where
  defaults : s.types.HasDefaults
  symbols : ∀ id y c, s.symbols.lookup id = some y → y.value? = some c → c.Fits s.types
  frames : ∀ f ∈ s.frames, f.Holds (·.Fits s.types)
  locals : ∀ f, s.func = some f → f.Fits s.types

structure Compiler.Knows (s : Compiler) (holds : Constant → Prop) : Prop where
  symbols : ∀ id y c, s.symbols.lookup id = some y → y.value? = some c → holds c
  frames : ∀ f ∈ s.frames, f.Holds holds
  locals : ∀ f, s.func = some f → ∀ scope ∈ f.scopes, ∀ l ∈ scope, ∀ c, l.known = some c → holds c

namespace Compiler

variable {s s' : Compiler} {d : Domain}

theorem Knows.mono {P Q : Constant → Prop} (h : s.Knows P) (hpq : ∀ c, P c → Q c) :
    s.Knows Q where
  symbols id y c hy hc := hpq c (h.symbols id y c hy hc)
  frames f hf scope hscope entry hentry := hpq _ (h.frames f hf scope hscope entry hentry)
  locals f hf scope hscope l hl c hc := hpq c (h.locals f hf scope hscope l hl c hc)

theorem Knows.and {P Q : Constant → Prop} (hp : s.Knows P) (hq : s.Knows Q) :
    s.Knows fun c => P c ∧ Q c where
  symbols id y c hy hc := ⟨hp.symbols id y c hy hc, hq.symbols id y c hy hc⟩
  frames f hf scope hscope entry hentry :=
    ⟨hp.frames f hf scope hscope entry hentry, hq.frames f hf scope hscope entry hentry⟩
  locals f hf scope hscope l hl c hc :=
    ⟨hp.locals f hf scope hscope l hl c hc, hq.locals f hf scope hscope l hl c hc⟩

/-- Evaluation from a state in which whatever is known is in a domain, for the definitions of
that state. -/
def Knows.ground (hs : s.Knows d.holds) (hd : ∀ t, s.types.SameDefinitions t → d.knows t)
    (admits : Options → Prop) (defines : ∀ (o : Options) name v, admits o →
      o.define? name = some (.int v) → d.holds (.int (.int 64) v)) : Ground where
  toDomain := d
  outer := s.outer
  admits := admits
  code c := s.types.SameDefinitions c.types ∧ ∀ f, c.func = some f →
    ∀ scope ∈ f.scopes, ∀ l ∈ scope, ∀ k, l.known = some k → d.holds k
  code_intern ty h := ⟨h.1.intern ty, h.2⟩
  code_abandon _ _ h := by
    refine ⟨h.1, fun f hf => ?_⟩
    obtain ⟨f', hf', rfl⟩ := Option.map_eq_some_iff.mp hf
    exact h.2 f' hf'
  knows_types h := hd _ h.1
  locals h hf hv hc := by
    obtain ⟨scope, hscope, hv⟩ := List.exists_of_findSome?_eq_some hv
    exact h.2 _ hf scope hscope _ (List.mem_of_find?_eq_some hv) _ hc
  symbols hy hc := hs.symbols _ _ _ hy hc
  defines ho hv := defines _ _ _ ho hv
  allows _ := True
  allows_fault _ _ := trivial
  allows_missing _ _ _ := trivial
  warned _ := True
  warned_push _ _ := trivial

section

variable {hs : s.Knows d.holds} {hd : ∀ t, s.types.SameDefinitions t → d.knows t}
  {admits : Options → Prop} {defines : ∀ (o : Options) name v, admits o →
    o.define? name = some (.int v) → d.holds (.int (.int 64) v)}

theorem Knows.stands : (hs.ground hd admits defines).Stands s.frames.length s where
  outer := rfl
  calls := rfl
  code := ⟨.refl s.types, hs.locals⟩
  warnings := trivial
  frames := hs.frames

/-- Where evaluation ends, definitions are the same and whatever is known is in the domain. -/
theorem Knows.of_stands {n : Nat} (h : (hs.ground hd admits defines).Stands n s') :
    s.types.SameDefinitions s'.types ∧ s'.Knows d.holds := by
  have hsame : s'.symbols = s.symbols := congrArg Outer.symbols h.outer
  exact ⟨h.code.1, fun id y c hy hc => hs.symbols id y c (hsame ▸ hy) hc, h.frames, h.code.2⟩

end

theorem Shaped.knows (hs : s.Shaped) : s.Knows (·.Fits s.types) :=
  ⟨hs.symbols, hs.frames, hs.locals⟩

def Shaped.ground (hs : s.Shaped) : Ground :=
  Knows.ground (d := .fitting s.types hs.defaults) hs.knows (fun _ h => h) (fun _ => True)
    fun _ _ _ _ _ => Constant.fits_int rfl

/-- Definitions that stay as they are, and values that fit them. -/
theorem Shaped.of_knows (hs : s.Shaped) (hsame : s.types.SameDefinitions s'.types)
    (h : s'.Knows (·.Fits s.types)) : s'.Shaped := by
  obtain ⟨hsymbols, hframes, hlocals⟩ := h.mono fun _ => (Constant.fits_congr hsame).mpr
  exact ⟨hsame.hasDefaults hs.defaults, hsymbols, hframes, hlocals⟩

theorem Shaped.stands (hs : s.Shaped) : hs.ground.Stands s.frames.length s := Knows.stands

/-- Where evaluation ends, whatever is known still fits its type. -/
theorem Shaped.of_stands (hs : s.Shaped) {n : Nat} (h : hs.ground.Stands n s') :
    s'.Shaped := by
  obtain ⟨hsame, hknows⟩ := Knows.of_stands h
  exact hs.of_knows hsame hknows

end Compiler

/-- From a state in which whatever is known fits its type, evaluation gives a value that
fits its type and is written out in full, however many calls may still nest. -/
theorem Emit.evaluateWith_sound {o : Options} {s s' : Compiler} {left : Nat} {view : Viewpoint}
    {e : Expr} {expected : Option Ty} {c : Constant} (hs : s.Shaped)
    (h : evaluateWith (callKnown left) view e expected o s = .ok c s') :
    c.Fits s'.types ∧ s'.Shaped ∧
      ∀ p : Pool, s'.types.SameDefinitions p.types →
        c.data.Written s'.types c.type (c.emitted p).1 := by
  have hrun : hs.ground.Ends s.frames.length (evaluateWith (callKnown left) view e expected)
      hs.ground.holds := ends_evaluateWith (calls_known left) e expected
  have hrun := hrun o trivial s hs.stands
  rw [h] at hrun
  obtain ⟨hstands, hfits⟩ := hrun
  have hc : c.Fits s'.types := (Constant.fits_congr hstands.code.1).mpr hfits
  exact ⟨hc, hs.of_stands hstands, fun p hp => (Data.written_emitted c.data c.type hc p hp).2⟩

/-- A call runs with an array as its local, where there is a mix whose second variant is
its default. -/
def lit : Compiler :=
  let range : Span := ⟨0, 0, 0⟩
  let mix : MixDef := ⟨⟨"Lamp", range⟩, "app::Lamp", 0, .pub,
    some [⟨⟨"on", range⟩, some .i32⟩, ⟨⟨"off", range⟩, none⟩], some 1, false⟩
  let pair : Constant := ⟨.array [.int 3, .int 5], .array .i32 2⟩
  { Compiler.ofOptions {} with
    types := { TypeTable.ofPointerWidth 64 with mixes := #[mix] }
    frames := [{ function := "app::f", result := .i32, inner := [("pair", ⟨pair, false⟩)] }] }

theorem shaped_lit : lit.Shaped where
  defaults := by
    intro d hd i hi
    cases Array.mem_singleton.mp hd
    cases hi
    decide
  symbols _ _ _ hy _ := by cases hy
  frames := by
    intro f hf scope hscope entry hentry
    cases List.mem_singleton.mp hf
    cases List.mem_singleton.mp hscope
    cases List.mem_singleton.mp hentry
    rfl
  locals _ hf := by cases hf

/-- The default of the mix beside the second item of the array. -/
def litPair : Expr :=
  let range : Span := ⟨0, 0, 0⟩
  .tuple range [.default range, .index range
    (.entity range ⟨0, [⟨"pair", range⟩], range⟩) (.int range 1 none)]

theorem Emit.evaluateWith_sound_lit : lit.Shaped ∧ ∃ c s',
    evaluateWith (callKnown 2) ⟨0, none⟩ litPair (some (.tuple [.mix 0] false)) {} lit = .ok c s' ∧
    c = ⟨.tuple [.mix 1 none, .int 5], .tuple [.mix 0, .i32] false⟩ ∧ c.Fits s'.types := by
  refine ⟨shaped_lit, _, _, rfl, rfl, ?_⟩
  exact (@evaluateWith_sound {} lit _ 2 ⟨0, none⟩ litPair (some (.tuple [.mix 0] false)) _
    shaped_lit rfl).1

end Staged
