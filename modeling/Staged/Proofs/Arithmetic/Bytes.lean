/-
  Staged.Proofs.Arithmetic.Bytes — how many bytes the heap is asked for.

  The heap works on bytes. A number of elements becomes a value of the type of lengths first
  (`Emit.convertInt`) and is multiplied with the size of one element then (`Emit.byteCount`):
  at once if the number is known, and by an instruction if it is not.

  The word is the same both ways, the product modulo the words of the type of lengths
  (`Emit.convertInt_machine`, `Emit.byteCount_machine`). The two differ in what is written
  down: the product at run time is a value of the type, while the constant is the product
  itself, which is a value of the type only as long as the product is below the number of
  words (`TypeTable.inRange_wide_mul`).
-/

import Staged.Emit.Heap
import Staged.Proofs.Arithmetic.Cast
import Staged.Proofs.Strings.Blocks
import Staged.Proofs.Strings.Machine

namespace Staged

open Ir (Instr Register)

variable {t : TypeTable} {info : IntInfo} {m n : Int} {size : Nat}

/-! ## Lengths -/

namespace TypeTable

def lengthInfo (t : TypeTable) : IntInfo := ⟨t.pointerWidth, false⟩

@[simp] theorem intInfo?_usize : t.intInfo? .usize = some t.lengthInfo := rfl

@[simp] theorem bits_lengthInfo : t.lengthInfo.bits = t.pointerWidth := rfl

theorem inRange_length : t.lengthInfo.InRange m ↔ 0 ≤ m ∧ m < 2 ^ t.pointerWidth := Iff.rfl

theorem inRange_wrap_length (hwidth : t.pointerWidth < 128) :
    t.lengthInfo.InRange (t.lengthInfo.wrap n) := by
  have hpow : (0 : Int) < 2 ^ t.pointerWidth := by positivity
  have hwrap : t.lengthInfo.wrap n = n % 2 ^ t.pointerWidth := if_neg (by simpa using hwidth)
  rw [inRange_length, hwrap]
  exact ⟨Int.emod_nonneg _ hpow.ne', Int.emod_lt_of_pos _ hpow⟩

/-- The constant that a product is kept as is a length if the product is one. -/
theorem inRange_wide_mul (hwidth : t.pointerWidth ≤ 64) (hm : t.lengthInfo.InRange m)
    (hsize : size < 2 ^ 64) :
    t.lengthInfo.InRange (wide (m * size)) ↔ m * size < 2 ^ t.pointerWidth := by
  obtain ⟨hle, hlt⟩ := inRange_length.mp hm
  have hpow : (2 : Int) ^ t.pointerWidth ≤ 2 ^ 64 := by gcongr; decide
  have hzero : (0 : Int) ≤ m * size := by positivity
  have hprod : m * size < 2 ^ 128 := by
    calc m * size ≤ 2 ^ 64 * (size : Int) := by gcongr; omega
      _ < 2 ^ 64 * 2 ^ 64 := by gcongr; exact_mod_cast hsize
      _ = 2 ^ 128 := by norm_num
  have hwide : wide (m * size) = if m * size < 2 ^ 127 then m * size else m * size - 2 ^ 128 := by
    show Int.bmod _ (2 ^ 128) = _
    rw [Int.bmod_def, Int.emod_eq_of_lt hzero (by exact_mod_cast hprod)]
    norm_num
  rw [inRange_length, hwide]
  split <;> omega

end TypeTable

namespace Emit

variable {o : Options} {s : Compiler} {f : FunctionState} {v count : Value} {r : Nat}

/-! ## The number of elements -/

/-- A value of a machine integer type is cast at compile time if it can be, and at run time
otherwise. -/
theorem convertInt_folded {c : Constant} (hty : s.types.intInfo? v.type = some info)
    (hne : v.type ≠ .usize) (h : foldedCast? s.types v .usize = some c) :
    convertInt v .usize o s = constant c v.range o s := by
  show (if v.type = .usize then _ else _ : Emit Value) o s = _
  rw [if_neg hne, TypeTable.machineInt?_of_intInfo? hty, h]
  rfl

theorem convertInt_unfolded (hty : s.types.intInfo? v.type = some info) (hne : v.type ≠ .usize)
    (h : foldedCast? s.types v .usize = none) :
    convertInt v .usize o s = (do
      return .temporary (← castTo (info.resize s.types.lengthInfo) v.ir .usize) .usize
        v.range : Emit Value) o s := by
  show (if v.type = .usize then _ else _ : Emit Value) o s = _
  rw [if_neg hne, TypeTable.machineInt?_of_intInfo? hty, h]
  rfl

/-- A value of another integer type becomes a length: the number modulo the words of that
type if it is known, and otherwise what an instruction makes of its word. -/
theorem convertInt_machine (hwidth : s.types.pointerWidth < 128)
    (hty : s.types.intInfo? v.type = some info) (hpos : 0 < info.bits) (hn : info.InRange n)
    (hne : v.type ≠ .usize) :
    (v.known = some (.int v.type n) → s.types.lengthInfo.InRange (s.types.lengthInfo.wrap n) ∧
      convertInt v .usize o s = .ok (.constant (.int .usize (s.types.lengthInfo.wrap n))
        (.int .usize (s.types.lengthInfo.wrap n)) v.range) s) ∧
    (v.known = none → s.func = some f → f.function.nextRegister = r → f.current < f.size →
      ∃ s', convertInt v .usize o s =
          .ok (.temporary (Register.mk r .usize) .usize v.range) s' ∧
        s'.func = some (f.write 1
          [.cast ⟨r, .usize⟩ (info.resize s.types.lengthInfo) v.ir]) ∧
        (info.resize s.types.lengthInfo).onWord? s.types.pointerWidth (info.word n) =
          some (s.types.lengthInfo.word n)) := by
  refine ⟨fun hknown => ?_, fun hknown hfunc hr hc => ?_⟩
  · have hfolded : foldedCast? s.types v .usize =
        some (.int .usize (s.types.lengthInfo.wrap n)) := by
      have hdata := TypeTable.castData?_integer (.integer hty hn) s.types.intInfo?_usize
      have hne' : (Constant.int v.type n).type ≠ .usize := hne
      unfold foldedCast? TypeTable.foldCast
      rw [hknown, Option.bind_some, if_neg hne', hdata]
      rfl
    exact ⟨TypeTable.inRange_wrap_length hwidth, convertInt_folded hty hne hfolded⟩
  · have hunfolded : foldedCast? s.types v .usize = none := by
      unfold foldedCast?
      rw [hknown]
      rfl
    obtain ⟨s', hcast, hs'⟩ := forms_compute .usize
      (.cast · (info.resize s.types.lengthInfo) v.ir) hr hc o s hfunc
    refine ⟨s', ?_, hs', IntInfo.onWord?_resize hn hpos _⟩
    rw [convertInt_unfolded hty hne hunfolded, bind_apply, castTo, hcast]
    rfl

/-! ## The number of bytes -/

theorem byteCount_known (h : count.known = some (.int .usize m)) :
    byteCount count size o s = .ok (Ir.Const.int .usize (wide (m * size))) s := by
  unfold byteCount
  rw [h]
  rfl

theorem forms_byteCount (h : count.known = none) (hr : f.function.nextRegister = r)
    (hc : f.current < f.size) :
    Forms (byteCount count size) f (Register.mk r .usize)
      (f.write 1 [.arith ⟨r, .usize⟩ .mul count.ir (Ir.Const.int .usize size)]) := by
  unfold byteCount
  rw [h]
  exact (forms_compute _ _ hr hc).bind (forms_return _)

/-- Whether the number of elements is known or in a register, the operand for the bytes is
the word of the product. As a constant it is a length only while the product is one. -/
theorem byteCount_machine (hwidth : s.types.pointerWidth ≤ 64)
    (hm : s.types.lengthInfo.InRange m) (hsize : size < 2 ^ 64) :
    (count.known = some (.int .usize m) → ∃ bytes : Int,
      byteCount count size o s = .ok (Ir.Const.int .usize bytes) s ∧
      s.types.lengthInfo.word bytes = s.types.lengthInfo.word (m * size) ∧
      (s.types.lengthInfo.InRange bytes ↔ m * size < 2 ^ s.types.pointerWidth)) ∧
    (count.known = none → s.func = some f → f.function.nextRegister = r → f.current < f.size →
      ∃ s' code, byteCount count size o s = .ok (Register.mk r .usize) s' ∧
        s'.func = some (f.write 1 code) ∧
        ∀ strings (σ : Ir.Machine s.types.pointerWidth),
          count.ir.datum? s.types strings σ =
            some (.word s.types.lengthInfo.bits (s.types.lengthInfo.word m)) →
          Ir.execAll? s.types strings σ code =
            some (σ.assign ⟨r, .usize⟩
              (.word s.types.lengthInfo.bits (s.types.lengthInfo.word (m * size))))) := by
  refine ⟨fun hknown => ?_, fun hknown hfunc hr hc => ?_⟩
  · exact ⟨_, byteCount_known hknown, IntInfo.word_wide (hwidth.trans (by decide)),
      TypeTable.inRange_wide_mul hwidth hm hsize⟩
  · obtain ⟨s', hcount, hs'⟩ := forms_byteCount hknown hr hc o s hfunc
    refine ⟨s', _, hcount, hs', fun strings σ hσ => Ir.execAll?_cons ?_ Ir.execAll?_nil⟩
    exact Ir.exec?_arith hσ rfl (congrArg some IntInfo.word_mul.symm)

end Emit

/-- The product of `2 ^ 62` elements of four bytes is no length: its word is zero. -/
example :
    let t := TypeTable.ofPointerWidth 64
    let bytes := wide (2 ^ 62 * 4)
    bytes = 2 ^ 64 ∧ ¬t.lengthInfo.InRange bytes ∧ t.lengthInfo.word bytes = 0 := by
  decide

end Staged
