import Cpu32.Machine.Access

/-!
# Operations

What each instruction computes, apart from where its operands are, and how an operation acts on
operands.
-/

namespace Cpu32

/-- Operations on `a` and `b`. -/
inductive Binary
  /-- `b` becomes a function of `b` and `a`. -/
  | combine (f : UInt32 → UInt32 → UInt32)
  /-- `b` becomes `a`. -/
  | copy
  /-- `b` becomes `a` if the flag is set; the flag is cleared either way. -/
  | copyIfFlag
  /-- `b` becomes the top of `a`, sign-extended. -/
  | widen (w : Width)
  /-- The top of `b` becomes the low end of `a`. -/
  | insert (w : Width)
  /-- The flag becomes a relation between `a` and `b`. -/
  | compare (relation : UInt32 → UInt32 → Bool)

/-- Operations on `a`, `b` and `c`. -/
inductive Ternary
  /-- `b` becomes `a`, and then `c` becomes the old `b`. -/
  | exchange
  /-- `c` becomes the high word of a product of `b` and `a`, and then `b` its low word. -/
  | multiply (product : UInt32 → UInt32 → UInt64)

/-- Shifting by the width of a word or more leaves no bit. -/
def shiftRight (word n : UInt32) : UInt32 := if n < 32 then word >>> n else 0

def shiftLeft (word n : UInt32) : UInt32 := if n < 32 then word <<< n else 0

/-- Shifting by the width of a word or more leaves copies of the sign. -/
def shiftRightSigned (word n : UInt32) : UInt32 :=
  (word.toInt32 >>> (if n < 32 then n else 31).toInt32).toUInt32

def productUnsigned (a b : UInt32) : UInt64 := a.toUInt64 * b.toUInt64

def productSigned (a b : UInt32) : UInt64 :=
  (a.toInt32.toInt64 * b.toInt32.toInt64).toUInt64

/-- An operation together with its operands. -/
inductive Action
  | binary (operation : Binary) (a b : Addressing)
  | ternary (operation : Ternary) (a b c : Addressing)

/-- What an instruction does, without operands. -/
inductive Operation
  | binary (operation : Binary)
  | ternary (operation : Ternary)

def Instruction.operation : Instruction → Operation
  | .ata => .binary (.combine fun b a => b + a)
  | .nta => .binary (.combine fun b a => b - a)
  | .ada => .binary (.combine fun b a => b &&& a)
  | .ekc => .binary (.combine fun b a => b ||| a)
  | .dto => .binary (.combine shiftRight)
  | .dro => .binary (.combine shiftLeft)
  | .dtosna => .binary (.combine shiftRightSigned)
  | .dal => .binary (.combine fun b a => ~~~(b ^^^ a))
  | .krz => .binary .copy
  | .malkrz => .binary .copyIfFlag
  | .krz8i => .binary (.widen .byte)
  | .krz16i => .binary (.widen .half)
  | .krz8c => .binary (.insert .byte)
  | .krz16c => .binary (.insert .half)
  | .llonys => .binary (.compare fun a b => b < a)
  | .xtlonys => .binary (.compare fun a b => a ≤ b)
  | .xolonys => .binary (.compare fun a b => b ≤ a)
  | .xylonys => .binary (.compare fun a b => a < b)
  | .clo => .binary (.compare fun a b => a = b)
  | .niv => .binary (.compare fun a b => a ≠ b)
  | .llo => .binary (.compare fun a b => b.toInt32 < a.toInt32)
  | .xtlo => .binary (.compare fun a b => a.toInt32 ≤ b.toInt32)
  | .xolo => .binary (.compare fun a b => b.toInt32 ≤ a.toInt32)
  | .xylo => .binary (.compare fun a b => a.toInt32 < b.toInt32)
  | .inj => .ternary .exchange
  | .lat => .ternary (.multiply productUnsigned)
  | .latsna => .ternary (.multiply productSigned)

namespace Exec

/-- Carries out a binary operation.  Where both values are needed `b` is read first, except by a
comparison. -/
def binary (site : Site) (a b : Addressing) : Binary → Exec Unit
  | .combine f => do
      let vb ← load .word b
      let va ← load .word a
      store site .word b (f vb va)
  | .copy => do
      let va ← load .word a
      store site .word b va
  | .copyIfFlag => do
      if (← get).registers.flag then
        let va ← load .word a
        store site .word b va
      modify (·.setFlag false)
  | .widen w => do
      let va ← load w a
      store site .word b (w.signExtend va)
  | .insert w => do
      let va ← load .word a
      store site w b va
  | .compare relation => do
      let va ← load .word a
      let vb ← load .word b
      modify (·.setFlag (relation va vb))

/-- Carries out a ternary operation.  The two stores are made one after the other, and a place in
memory is found anew for each. -/
def ternary (site : Site) (a b c : Addressing) : Ternary → Exec Unit
  | .exchange => do
      let va ← load .word a
      let vb ← load .word b
      store site .word b va
      store site .word c vb
  | .multiply product => do
      let vb ← load .word b
      let va ← load .word a
      let p := product vb va
      store site .word c (p >>> 32).toUInt32
      store site .word b p.toUInt32

end Exec

/-- Carries out an action. -/
def Action.perform (site : Site) : Action → Exec Unit
  | .binary operation a b => Exec.binary site a b operation
  | .ternary operation a b c => Exec.ternary site a b c operation

end Cpu32
