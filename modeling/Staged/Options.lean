/-
  Staged.Options — what a compilation is told besides the program.

  Compile-time loops and calls are bounded by the options, so evaluation ends whatever
  the program does. A define stands for a value wherever its name means nothing else.
-/

namespace Staged

/-- In a release build, unfinished code is refused instead of warned about. -/
inductive BuildMode where
  | debug | release
  deriving DecidableEq, Repr

def BuildMode.name : BuildMode → String
  | debug => "debug"
  | release => "release"

def BuildMode.ofName? : String → Option BuildMode
  | "debug" => some .debug
  | "release" => some .release
  | _ => none

inductive Define where
  | bool (value : Bool)
  | int (value : Int)
  | str (value : String)
  deriving DecidableEq, Repr

structure Options where
  name : String := "main"
  mode : BuildMode := .debug
  pointerWidth : Nat := 64
  /-- The most iterations of one compile-time loop. -/
  loopLimit : Nat := 65536
  /-- The most compile-time calls inside each other. -/
  callDepth : Nat := 256
  defines : List (String × Define) := []
  deriving Repr

inductive OptionsError where
  /-- The text is not what an options file looks like. -/
  | parse
  | pointerWidth (width : Nat)
  | missingName
  deriving DecidableEq, Repr

def OptionsError.message : OptionsError → String
  | parse => "Failed to parse options"
  | pointerWidth width => s!"Unsupported pointer width {width}, expected 16, 32 or 64"
  | missingName => "Module name must not be empty"

namespace Options

def define? (o : Options) (name : String) : Option Define := o.defines.lookup name

def validate (o : Options) : Except OptionsError Options :=
  if o.pointerWidth ≠ 16 ∧ o.pointerWidth ≠ 32 ∧ o.pointerWidth ≠ 64 then
    .error (.pointerWidth o.pointerWidth)
  else if o.name.isEmpty then .error .missingName
  else .ok o

end Options

end Staged
