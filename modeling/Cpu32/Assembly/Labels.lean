import Std.Data.ExtTreeMap

/-!
# Labels

Names bound to byte offsets from the start of an image.  A name is bound once.
-/

namespace Cpu32

structure Labels where
  offsets : Std.ExtTreeMap String UInt32 := ∅

structure DuplicateLabel where
  label : String
deriving DecidableEq, Repr

def DuplicateLabel.message (e : DuplicateLabel) : String := s!"duplicate label: {e.label}"

structure UndefinedLabel where
  label : String
deriving DecidableEq, Repr

def UndefinedLabel.message (e : UndefinedLabel) : String := s!"undefined label: {e.label}"

namespace Labels

variable (labels : Labels) (name : String)

def find? : Option UInt32 := labels.offsets[name]?

def size : Nat := labels.offsets.size

/-- The labels with a name bound. -/
def insert (offset : UInt32) : Labels := ⟨labels.offsets.insert name offset⟩

/-- Binds a name that is not bound yet. -/
def define (offset : UInt32) : EStateM DuplicateLabel Labels Unit := do
  match (← get).find? name with
  | some _ => throw ⟨name⟩
  | none => modify fun labels => labels.insert name offset

/-- The offset of a bound name. -/
def resolve : Except UndefinedLabel UInt32 :=
  match labels.find? name with
  | some offset => .ok offset
  | none => .error ⟨name⟩

end Labels

end Cpu32
