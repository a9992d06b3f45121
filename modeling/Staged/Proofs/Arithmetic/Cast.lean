/-
  Staged.Proofs.Arithmetic.Cast — folding a cast and casting at run time agree.

  Integers, booleans, characters and choices are words when the program runs: a boolean has
  one bit, a character 32, and a choice those of its underlying type. A known value of such a
  type is a number (`TypeTable.Counts`), and a cast that is folded takes this number into the
  range of the target. A value that is not known is cast by one instruction (`Emit.CastsBy`):
  a comparison with zero if the target is a boolean, and otherwise the conversion that the
  two widths and the sign of the source select (`IntInfo.resize`).

  A conversion makes of the word of a number the word of the same number in the other width,
  whatever the widths and signs (`IntInfo.onWord?_resize`). So a cast that can be done both
  ways gives the same word both times (`TypeTable.foldCast_machine`).
-/

import Staged.Emit.Cast
import Staged.Proofs.Arithmetic.Fold
import Staged.Proofs.Compile.Enter
import Staged.Proofs.Modules.Naming
import Staged.Proofs.Typing.Code

namespace Staged

variable {t : TypeTable} {source target : Ty} {info info' : IntInfo} {v : Int}

/-! ## Conversions of words -/

namespace IntInfo

theorem signExtend_word (h : info.InRange v) (hs : info.signed = true) (hpos : 0 < info.bits)
    (n : Nat) : (info.word v).signExtend n = BitVec.ofInt n v := by
  rw [BitVec.signExtend, toInt_word h hs hpos]

theorem zeroExtend_word (h : info.InRange v) (hs : info.signed = false) (n : Nat) :
    (info.word v).setWidth n = BitVec.ofInt n v := by
  rw [← BitVec.ofNat_toNat, ← BitVec.ofInt_natCast, toNat_word h hs]

/-- Between any two integer types, a conversion keeps the number. -/
theorem onWord?_resize (h : info.InRange v) (hpos : 0 < info.bits) (target : IntInfo) :
    (info.resize target).onWord? target.bits (info.word v) = some (target.word v) := by
  unfold resize
  split
  · have hlt : target.bits < info.bits := ‹_›
    exact (if_pos hlt).trans (congrArg some (setWidth_ofInt hlt.le))
  · split
    · have hlt : info.bits < target.bits := ‹_›
      split
      · exact (if_pos hlt).trans (congrArg some (signExtend_word h ‹_› hpos _))
      · have hs : info.signed = false := eq_false_of_ne_true ‹_›
        exact (if_pos hlt).trans (congrArg some (zeroExtend_word h hs _))
    · have heq : info.bits = target.bits := by omega
      exact (if_pos heq).trans (congrArg some (setWidth_ofInt heq.ge))

end IntInfo

/-! ## Known values -/

namespace TypeTable

/-- A known value of a type that the machine has as an integer, with the integer that the
machine has for the type and the number that the value is. -/
inductive Counts (t : TypeTable) : Constant → IntInfo → Int → Prop
  | integer {ty : Ty} {info : IntInfo} {v : Int} :
    t.intInfo? ty = some info → info.InRange v → t.Counts (.int ty v) info v
  | choice {ty : Ty} {d : ChoiceDef} {info : IntInfo} {v : Int} :
    t.choiceOf? ty = some d → t.intInfo? d.underlying = some info → info.InRange v →
    t.Counts (.int ty v) info v
  | bool (b : Bool) : t.Counts (.bool b) ⟨1, false⟩ b.toNat
  | char (c : Char) : t.Counts ⟨.char c, .char⟩ ⟨32, false⟩ c.toNat

variable {c r : Constant}

theorem machineInt?_of_intInfo? {ty : Ty} (h : t.intInfo? ty = some info) :
    t.machineInt? ty = some info := by
  cases ty <;> first | exact h | cases h

theorem choiceOf?_eq_some {ty : Ty} {d : ChoiceDef} (h : t.choiceOf? ty = some d) :
    ∃ id, ty = .choice id := by
  cases ty with
  | choice id => exact ⟨id, rfl⟩
  | _ => cases h

theorem Counts.machineInt? (h : t.Counts c info v) : t.machineInt? c.type = some info := by
  cases h with
  | integer hinfo _ => exact machineInt?_of_intInfo? hinfo
  | @choice ty d info v hd hinfo _ =>
    obtain ⟨id, rfl⟩ := choiceOf?_eq_some hd
    show (t.choiceOf? (.choice id)).bind (fun d => t.intInfo? d.underlying) = some info
    rw [hd]
    exact hinfo
  | bool b => rfl
  | char c => rfl

theorem Counts.inRange (h : t.Counts c info v) : info.InRange v := by
  cases h with
  | integer _ hrange => exact hrange
  | choice _ _ hrange => exact hrange
  | bool b => cases b <;> decide
  | char c =>
    have hlt : c.toNat < 2 ^ 32 := c.val.toNat_lt
    exact ⟨Int.natCast_nonneg _, by exact_mod_cast hlt⟩

/-- A type that the machine has as an integer, other than a choice. -/
theorem machineInt?_cases (h : t.machineInt? target = some info)
    (hchoice : t.choiceOf? target = none) :
    target = .bool ∧ info = ⟨1, false⟩ ∨ target = .char ∧ info = ⟨32, false⟩ ∨
      t.intInfo? target = some info := by
  cases target with
  | bool => exact .inl ⟨rfl, (Option.some.inj h).symm⟩
  | char => exact .inr (.inl ⟨rfl, (Option.some.inj h).symm⟩)
  | choice id =>
    have hnone : (t.choiceOf? (.choice id)).bind (fun d => t.intInfo? d.underlying) = some info := h
    rw [hchoice] at hnone
    cases hnone
  | _ => exact .inr (.inr h)

/-! ## Folding -/

theorem foldCast_ok (hne : c.type ≠ target) (h : t.foldCast c target = .ok r) :
    ∃ data, t.castData? c target = some data ∧ r = ⟨data, target⟩ := by
  unfold foldCast at h
  rw [if_neg hne] at h
  cases hd : t.castData? c target with
  | none => rw [hd] at h; cases h
  | some data => rw [hd] at h; cases h; exact ⟨data, rfl, rfl⟩

theorem castData?_integer (hc : t.Counts c info v) (h : t.intInfo? target = some info') :
    t.castData? c target = some (.int (info'.wrap v)) := by
  unfold castData?
  rw [choiceOf?_of_intInfo? h, h]
  cases hc <;> rfl

theorem toNat_of_charOf? {ch : Char} (h : charOf? v = some ch) : (ch.toNat : Int) = v := by
  unfold charOf? at h
  obtain ⟨hvalid, hch⟩ := Option.ite_none_right_eq_some.mp h
  have hv : v.toNat.isValidChar := by
    unfold Nat.isValidChar
    omega
  rw [← Option.some.inj hch, Char.toNat_ofNat, if_pos hv]
  omega

/-- Only integers and choices fold to characters, if the number is one of a character. -/
theorem castData?_char {data : Data} (hc : t.Counts c info v) (hne : c.type ≠ .char)
    (h : t.castData? c .char = some data) :
    (t.intInfo? c.type = some info ∨ ∃ d, t.choiceOf? c.type = some d) ∧
      ∃ ch : Char, data = .char ch ∧ (ch.toNat : Int) = v := by
  cases hc with
  | integer hinfo _ =>
    obtain ⟨ch, hch, rfl⟩ := Option.map_eq_some_iff.mp h
    exact ⟨.inl hinfo, ch, rfl, toNat_of_charOf? hch⟩
  | choice hd _ _ =>
    obtain ⟨ch, hch, rfl⟩ := Option.map_eq_some_iff.mp h
    exact ⟨.inr ⟨_, hd⟩, ch, rfl, toNat_of_charOf? hch⟩
  | bool b => cases h
  | char ch => exact absurd rfl hne

/-- Only integers fold to booleans. -/
theorem castData?_bool {data : Data} (hc : t.Counts c info v) (hne : c.type ≠ .bool)
    (h : t.castData? c .bool = some data) :
    t.intInfo? c.type = some info ∧ data = .bool (v != 0) := by
  cases hc with
  | @integer ty info v hinfo _ =>
    have hdata : (if (t.choiceOf? ty).isNone then some (Data.bool (v != 0)) else none) =
      some data := h
    rw [choiceOf?_of_intInfo? hinfo] at hdata
    exact ⟨hinfo, (Option.some.inj hdata).symm⟩
  | @choice ty d info v hd _ _ =>
    have hdata : (if (t.choiceOf? ty).isNone then some (Data.bool (v != 0)) else none) =
      some data := h
    rw [hd] at hdata
    cases hdata
  | bool b => exact absurd rfl hne
  | char c => cases h

/-! ## The instruction for a cast -/

theorem runtimeCast?_integer (hs : t.machineInt? source = some info)
    (h : t.intInfo? target = some info') :
    t.runtimeCast? source target = some (info.resize info') := by
  unfold runtimeCast? numericCast?
  rw [hs, h]
  rfl

theorem runtimeCast?_char (hs : t.intInfo? source = some info) :
    t.runtimeCast? source .char = some (info.resize ⟨32, false⟩) := by
  unfold runtimeCast? numericCast?
  rw [machineInt?_of_intInfo? hs, hs]
  rfl

theorem runtimeCast?_choice_char {d : ChoiceDef} (h : t.choiceOf? source = some d) :
    t.runtimeCast? source .char = none := by
  obtain ⟨id, rfl⟩ := choiceOf?_eq_some h
  unfold runtimeCast? numericCast?
  cases t.machineInt? (.choice id) <;> rfl

end TypeTable

namespace Emit

open TypeTable

variable {α β : Type} {o : Options} {s : Compiler} {view : Viewpoint} {x : Value} {range : Span}

/-! ### Loading leaves types alone -/

theorem Ignores.returns {a : Emit α} (h : Ignores s.types a) :
    Returns o s a fun _ s' => s'.types = s.types := by
  intro v s' hr
  have hstate := h o s rfl
  rwa [hr] at hstate

theorem ignores_function : Ignores t function := by
  refine ignores_get fun s _ => ?_
  split
  · exact ignores_pure _
  · exact ignores_breach _

theorem ignores_setFunction (f : FunctionState) : Ignores t (setFunction f) :=
  ignores_modify fun _ => rfl

theorem ignores_fresh (type : Ty) : Ignores t (fresh type) :=
  ignores_function.bind fun _ => (ignores_setFunction _).bind fun _ => ignores_pure _

theorem ignores_push (i : Ir.Instr) : Ignores t (push i) := by
  refine ignores_function.bind fun f => ?_
  dsimp only
  split
  · exact (ignores_breach _).bind fun _ => ignores_setFunction _
  · exact ignores_setFunction _

theorem ignores_load (ptr : Ir.Value) (type : Ty) : Ignores t (load ptr type) :=
  (ignores_fresh type).bind fun _ => (ignores_push _).bind fun _ => ignores_pure _

/-- A value that is not known is loaded as one that is not known either. -/
theorem returns_rvalue (hknown : x.known = none) : Returns o s (rvalue x) fun w s' =>
    w.type = x.type.value ∧ w.known = none ∧ s'.types = s.types := by
  have hload (ptr : Ir.Value) (type : Ty) (s₁ : Compiler) (hs₁ : s₁.types = s.types) :
      Returns o s₁ (do return Value.temporary (← load ptr type) type x.range : Emit Value)
        fun w s' => w.type = type ∧ w.known = none ∧ s'.types = s.types :=
    (ignores_load ptr type).returns.bind fun r s' hs' => .pure ⟨rfl, rfl, hs'.trans hs₁⟩
  unfold rvalue
  split
  · rename_i sub isVar href
    have hvalue : x.type.value = sub := by
      rw [Ty.eq_ref_of_refInfo? href]
      rfl
    rw [hvalue]
    refine Returns.bind (Q := fun _ s' => s'.types = s.types) ?_ fun a s₁ hs₁ =>
      hload a.ir sub s₁ hs₁
    unfold referenceAddress
    split
    · exact .pure rfl
    · exact (hload x.ir x.type s rfl).mono fun _ _ h => h.2.2
  · rename_i href
    have hvalue : x.type.value = x.type := Ty.value_eq_self href
    rw [hvalue]
    split
    · exact .pure ⟨rfl, hknown, rfl⟩
    · have hfixed : x.fixed? = none := by
        unfold Value.fixed?
        rw [hknown, ite_self]
      rw [hfixed]
      exact hload x.ir x.type s rfl

/-! ### Casting what is not known -/

/-- Without a convertor, a value that is not known is loaded and cast at run time. -/
theorem castValue_unknown {v : Value} (hknown : v.known = none) (hne : v.type.value ≠ target)
    (hconv : s.types.convertor? v.type.value target = none) :
    castValue view v target range o s =
      (do let x ← rvalue v; castAtRuntime x target range : Emit Value) o s := by
  have htypes (s : Compiler) : types o s = .ok s.types s := rfl
  unfold castValue
  rw [bind_apply, htypes]
  dsimp only
  rw [hconv]
  dsimp only
  rw [bind_apply, bind_apply]
  cases hx : rvalue v o s with
  | error f s' => rfl
  | ok x s' =>
    obtain ⟨-, hunknown, -⟩ := returns_rvalue hknown x s' hx
    have hfolded : foldedCast? s'.types x target = none := by
      unfold foldedCast?
      rw [hunknown]
      rfl
    dsimp only
    rw [if_neg hne, bind_apply, htypes]
    dsimp only
    rw [hfolded]

theorem castAtRuntime_bool (hint : s.types.isIntegral x.type = true) :
    castAtRuntime x .bool range o s = (do
      let r ← compute .bool (.compare · .ne x.ir (Ir.Const.int x.type 0))
      return .temporary r .bool range : Emit Value) o s := by
  show (do
    unless s.types.isIntegral x.type do refuse _ range
    _ : Emit Value) o s = _
  rw [hint]
  rfl

theorem castAtRuntime_refused (hbool : target ≠ .bool) (hchoice : s.types.choiceOf? target = none)
    (hcast : s.types.runtimeCast? x.type target = none) :
    castAtRuntime x target range o s =
      .error (.fault (.castRefused x.type target) range) s := by
  show (if target = .bool then _ else if (s.types.choiceOf? target).isSome then _ else
    _ : Emit Value) o s = _
  rw [if_neg hbool, hchoice, hcast]
  rfl

theorem castAtRuntime_cast {op : Ir.CastOp} (hbool : target ≠ .bool)
    (hchoice : s.types.choiceOf? target = none) (hstr : x.type ≠ .str)
    (hcast : s.types.runtimeCast? x.type target = some op) :
    castAtRuntime x target range o s = (do
      let r ← compute target (.cast · op x.ir)
      return .temporary r target range : Emit Value) o s := by
  show (if target = .bool then _ else if (s.types.choiceOf? target).isSome then _ else
    _ : Emit Value) o s = _
  rw [if_neg hbool, hchoice, hcast]
  show (if x.type = .str then _ else _ : Emit Value) o s = _
  rw [if_neg hstr]
  rfl

/-- Values of one type that are not known are cast to another by one instruction: no member
converts them, and some such value is cast. -/
structure Casts (t : TypeTable) (source target : Ty) : Prop where
  differ : source ≠ target
  unconverted : t.convertor? source target = none
  passes : ∃ view o s v range w s', s.types = t ∧ v.type.value = source ∧ v.known = none ∧
    castValue view v target range o s = .ok w s'

/-- A value of the type that is not known is loaded and then cast by this instruction, with a
result of the target type. -/
def CastsBy (t : TypeTable) (source target : Ty) (instr : Ir.Register → Ir.Value → Ir.Instr) :
    Prop :=
  ∀ view o s (v : Value) range, s.types = t → v.type.value = source → v.known = none →
    castValue view v target range o s = (do
      let x ← rvalue v
      let r ← compute target (instr · x.ir)
      return .temporary r target range : Emit Value) o s

theorem Casts.castsBy {instr : Ir.Register → Ir.Value → Ir.Instr} (h : Casts t source target)
    (hcast : ∀ o s (x : Value) range, s.types = t → x.type = source →
      castAtRuntime x target range o s = (do
        let r ← compute target (instr · x.ir)
        return .temporary r target range : Emit Value) o s) :
    CastsBy t source target instr := by
  rintro view o s v range rfl rfl hknown
  rw [castValue_unknown hknown h.differ h.unconverted, bind_apply, bind_apply]
  cases hx : rvalue v o s with
  | error f s' => rfl
  | ok x s' =>
    obtain ⟨htype, -, hs'⟩ := returns_rvalue hknown x s' hx
    exact hcast o s' x range hs' htype

/-- A cast to a number or a character that passes has an instruction. -/
theorem Casts.runtimeCast? (h : Casts t source target) (hbool : target ≠ .bool)
    (hchoice : t.choiceOf? target = none) : ∃ op, t.runtimeCast? source target = some op := by
  cases hop : t.runtimeCast? source target with
  | some op => exact ⟨op, rfl⟩
  | none =>
    obtain ⟨view, o, s, v, range, w, s', rfl, rfl, hknown, hok⟩ := h.passes
    rw [castValue_unknown hknown h.differ h.unconverted] at hok
    obtain ⟨x, s₁, hx, hcast⟩ := bind_ok hok
    obtain ⟨htype, -, hs₁⟩ := returns_rvalue hknown x s₁ hx
    rw [castAtRuntime_refused hbool (hs₁ ▸ hchoice) (by rw [htype, hs₁]; exact hop)] at hcast
    cases hcast

theorem Casts.castsBy_bool (h : Casts t source .bool) (hs : t.intInfo? source = some info) :
    CastsBy t source .bool (.compare · .ne · (Ir.Const.int source 0)) := by
  refine h.castsBy fun o s x range htypes htype => ?_
  subst htypes htype
  refine castAtRuntime_bool ?_
  unfold isIntegral
  rw [hs]
  rfl

theorem Casts.castsBy_cast {op : Ir.CastOp} (h : Casts t source target) (hbool : target ≠ .bool)
    (hchoice : t.choiceOf? target = none) (hs : t.machineInt? source = some info)
    (hop : t.runtimeCast? source target = some op) :
    CastsBy t source target (.cast · op ·) := by
  refine h.castsBy fun o s x range htypes htype => ?_
  subst htypes htype
  refine castAtRuntime_cast hbool hchoice (fun hstr => ?_) hop
  rw [hstr] at hs
  cases hs

end Emit

/-! ## Both ways -/

namespace TypeTable

variable {c r : Constant}

/-- The word of a truth value that says whether a number is zero. -/
theorem onWords?_ne_zero (h : info.InRange v) (hpos : 0 < info.bits) :
    Ir.Pred.ne.onWords? (info.word v) (info.word 0) = some (v != 0) := by
  have hzero : info.word 0 = 0 := BitVec.ofInt_ofNat _ 0
  have heq : (info.word v == 0) = (v == 0) := by
    rw [Bool.eq_iff_iff, beq_iff_eq, beq_iff_eq, IntInfo.word_eq_zero h hpos]
  rw [hzero]
  exact congrArg (fun same => some !same) heq

/-- A number is cast to a number, a character or a boolean the same way at once and when the
program runs. For every integer, choice, boolean or character `c` in the range of its type,
if it can be folded to the target, and values of its type that are not known are cast to the
target by an instruction, then the word of the folded value is the one that this instruction
makes of the word of `c`. -/
theorem foldCast_machine (hc : t.Counts c info v) (hpos : 0 < info.bits)
    (htarget : t.machineInt? target = some info') (hchoice : t.choiceOf? target = none)
    (hfold : t.foldCast c target = .ok r) (hcasts : Emit.Casts t c.type target) :
    (target = .bool → ∃ holds, r = .bool holds ∧
      Emit.CastsBy t c.type .bool (.compare · .ne · (Ir.Const.int c.type 0)) ∧
      Ir.Pred.ne.onWords? (info.word v) (info.word 0) = some holds) ∧
    (target ≠ .bool → ∃ result, r.type = target ∧ r.asInt? = some result ∧
      Emit.CastsBy t c.type target (.cast · (info.resize info') ·) ∧
      (info.resize info').onWord? info'.bits (info.word v) = some (info'.word result)) := by
  obtain ⟨data, hdata, rfl⟩ := foldCast_ok hcasts.differ hfold
  have hresize := IntInfo.onWord?_resize hc.inRange hpos info'
  refine ⟨?_, fun hbool => ?_⟩
  · rintro rfl
    obtain ⟨hs, rfl⟩ := castData?_bool hc hcasts.differ hdata
    exact ⟨_, rfl, hcasts.castsBy_bool hs, onWords?_ne_zero hc.inRange hpos⟩
  · obtain ⟨rfl, -⟩ | ⟨rfl, rfl⟩ | hinfo := machineInt?_cases htarget hchoice
    · exact absurd rfl hbool
    · obtain ⟨hs | ⟨d, hd⟩, ch, rfl, hch⟩ := castData?_char hc hcasts.differ hdata
      · refine ⟨v, rfl, congrArg some hch, ?_, hresize⟩
        exact hcasts.castsBy_cast hbool hchoice hc.machineInt? (runtimeCast?_char hs)
      · obtain ⟨op, hop⟩ := hcasts.runtimeCast? hbool hchoice
        rw [runtimeCast?_choice_char hd] at hop
        cases hop
    · rw [castData?_integer hc hinfo] at hdata
      cases hdata
      refine ⟨info'.wrap v, rfl, rfl, ?_, by rw [hresize, IntInfo.word_wrap]⟩
      exact hcasts.castsBy_cast hbool hchoice hc.machineInt?
        (runtimeCast?_integer hc.machineInt? hinfo)

/-- Minus one as `i8` is 65535 as `u16`: the instruction repeats the sign. -/
theorem foldCast_machine_minus_one :
    let t := TypeTable.ofPointerWidth 64
    let c : Constant := .int (.int 8) (-1)
    t.Counts c ⟨8, true⟩ (-1) ∧ t.foldCast c (.uint 16) = .ok (.int (.uint 16) 65535) ∧
      Emit.Casts t (.int 8) (.uint 16) ∧
      Emit.CastsBy t (.int 8) (.uint 16) (.cast · .sext ·) ∧
      Ir.CastOp.sext.onWord? 16 ((⟨8, true⟩ : IntInfo).word (-1)) =
        some ((⟨16, false⟩ : IntInfo).word 65535) := by
  intro t c
  have hc : t.Counts c ⟨8, true⟩ (-1) := .integer rfl (by decide)
  have hfold : t.foldCast c (.uint 16) = .ok (.int (.uint 16) 65535) := rfl
  let f : Ir.Function := { name := "f", params := [⟨0, .int 8⟩], result := .uint 16,
                           blocks := #[{ label := "entry" }], nextRegister := 1 }
  let s : Compiler := { types := t, ir := { name := "m" },
                        func := some { id := 0, function := f, current := 0, result := .uint 16 } }
  have hcasts : Emit.Casts t (.int 8) (.uint 16) :=
    ⟨by decide, rfl, ⟨0, none⟩, {}, s, .temporary (.reg ⟨0, .int 8⟩) (.int 8) ⟨0, 0, 0⟩,
      ⟨0, 0, 0⟩, _, _, rfl, rfl, rfl, rfl⟩
  obtain ⟨-, hword⟩ := foldCast_machine hc (by decide) rfl rfl hfold hcasts
  obtain ⟨result, -, hresult, hby, hsext⟩ := hword (by decide)
  cases hresult
  exact ⟨hc, hfold, hcasts, hby, hsext⟩

end TypeTable

end Staged
