/-
  Staged.Source.Kind — the floating-point formats and the types of the platform's C
  interface.

  A platform type has no width of its own: `Native.repr` gives the machine
  representation for a pointer width. `long` is 64 bits wide exactly on 64-bit
  targets.
-/

namespace Staged

inductive FloatKind where
  | half | brain | f32 | f64 | f80 | f128
  deriving DecidableEq, Repr

namespace FloatKind

def bitwidth : FloatKind → Nat
  | half | brain => 16
  | f32 => 32
  | f64 => 64
  | f80 => 80
  | f128 => 128

def name : FloatKind → String
  | half => "f16" | brain => "fbrain" | f32 => "f32" | f64 => "f64" | f80 => "f80"
  | f128 => "f128"

/-- The name of the format in emitted code. -/
def irName : FloatKind → String
  | half => "half" | brain => "bfloat" | f32 => "float" | f64 => "double"
  | f80 => "x86_fp80" | f128 => "fp128"

def all : List FloatKind := [half, brain, f32, f64, f80, f128]

def ofName? (s : String) : Option FloatKind := all.find? (·.name == s)

end FloatKind

inductive Native where
  | bool | char | uchar | short | ushort | int | uint | long | ulong
  | longLong | ulongLong | usize | isize | float | double | cstring
  deriving DecidableEq, Repr

/-- What a platform type is on the machine. -/
inductive NativeRepr where
  | signed (bits : Nat)
  | unsigned (bits : Nat)
  | float (kind : FloatKind)
  | pointer
  deriving DecidableEq, Repr

namespace Native

def name : Native → String
  | bool => "cBool" | char => "cChar" | uchar => "cUChar" | short => "cShort"
  | ushort => "cUShort" | int => "cInt" | uint => "cUInt" | long => "cLong"
  | ulong => "cULong" | longLong => "cLongLong" | ulongLong => "cULongLong"
  | usize => "usize" | isize => "isize" | float => "cFloat" | double => "cDouble"
  | cstring => "cStr"

def all : List Native :=
  [bool, char, uchar, short, ushort, int, uint, long, ulong, longLong, ulongLong,
    usize, isize, float, double, cstring]

def ofName? (s : String) : Option Native := all.find? (·.name == s)

def repr (pointerWidth : Nat) : Native → NativeRepr
  | bool => .unsigned 1
  | char => .signed 8
  | uchar => .unsigned 8
  | short => .signed 16
  | ushort => .unsigned 16
  | int => .signed 32
  | uint => .unsigned 32
  | long => .signed (if pointerWidth = 64 then 64 else 32)
  | ulong => .unsigned (if pointerWidth = 64 then 64 else 32)
  | longLong => .signed 64
  | ulongLong => .unsigned 64
  | usize => .unsigned pointerWidth
  | isize => .signed pointerWidth
  | float => .float .f32
  | double => .float .f64
  | cstring => .pointer

end Native

end Staged
