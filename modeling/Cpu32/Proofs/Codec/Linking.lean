import Cpu32.Assembly.Code
import Cpu32.Proofs.Codec.Operand
import Cpu32.Proofs.Outcome

/-!
# Linking instructions

Linking looks up names one after the other and fails at the first that is not bound.  If all are,
the bytes of an instruction are a function of its operands and the labels, and their number does
not depend on the labels.
-/

namespace Cpu32

namespace Labels

variable (labels : Labels) {α β γ : Type}

/-- The outcome of a computation that needs some names to be bound, in this order. -/
def demand (names : List String) (a : α) : Except UndefinedLabel α :=
  match names.find? fun name => (labels.find? name).isNone with
  | some name => .error ⟨name⟩
  | none => .ok a

theorem demand_bind {names others : List String} {a : α} {b : β}
    {f : α → Except UndefinedLabel β} (h : f a = labels.demand others b) :
    (labels.demand names a >>= f) = labels.demand (names ++ others) b := by
  rw [demand, demand, List.find?_append]
  cases names.find? fun name => (labels.find? name).isNone with
  | none => exact h
  | some name => rfl

theorem demand_map (names : List String) (a : α) (f : α → β) :
    (labels.demand names a).map f = labels.demand names (f a) := by
  rw [demand, demand]
  cases names.find? fun name => (labels.find? name).isNone <;> rfl

theorem demand_bind_pure (names : List String) (a : α) (f : α → β) :
    (labels.demand names a >>= fun a => pure (f a)) = labels.demand names (f a) :=
  labels.demand_map names a f

/-- Names are demanded item by item. -/
theorem demand_mapM {f : γ → Except UndefinedLabel α} {names : γ → List String} {value : γ → α}
    (h : ∀ item, f item = labels.demand (names item) (value item)) (items : List γ) :
    items.mapM f = labels.demand (items.flatMap names) (items.map value) := by
  induction items with
  | nil => rfl
  | cons item rest ih =>
      rw [List.mapM_cons, h item, ih]
      exact labels.demand_bind (labels.demand_bind_pure ..)

variable {labels}

theorem demand_eq_ok_iff {names : List String} {a b : α} :
    labels.demand names a = .ok b ↔ (∀ name ∈ names, labels.find? name ≠ none) ∧ b = a := by
  rw [demand]
  cases h : names.find? fun name => (labels.find? name).isNone with
  | none =>
      have hbound : ∀ name ∈ names, labels.find? name ≠ none := by
        simpa [List.find?_eq_none] using h
      simp only [Except.ok.injEq]
      exact ⟨fun hvalue => ⟨hbound, hvalue.symm⟩, fun ⟨_, hvalue⟩ => hvalue.symm⟩
  | some name =>
      have hfree : labels.find? name = none := by
        simpa using List.find?_some h
      exact ⟨nofun, fun ⟨hbound, _⟩ => absurd hfree (hbound name (List.mem_of_find?_eq_some h))⟩

theorem demand_eq_error_iff {names : List String} {a : α} {e : UndefinedLabel} :
    labels.demand names a = .error e ↔
      names.find? (fun name => (labels.find? name).isNone) = some e.label := by
  rw [demand]
  obtain ⟨label⟩ := e
  cases names.find? fun name => (labels.find? name).isNone <;> simp

end Labels

section Linking

variable (labels : Labels) (base : UInt32)

namespace Placed

/-- The operand names no label, or a bound one. -/
def IsBound (p : Placed) : Prop :=
  ∀ name, p.label = some name → labels.find? name ≠ none

/-- The descriptor with the address of its label, if it names a bound one. -/
def linked (p : Placed) : ModRM :=
  match p.label.bind labels.find? with
  | some offset => { p.modrm with value := base + offset }
  | none => p.modrm

/-- Labels change values, but no widths. -/
@[simp] theorem size_linked (p : Placed) : (p.linked labels base).size = p.modrm.size := by
  rw [linked]
  cases p.label.bind labels.find? <;> rfl

theorem resolve_eq_demand (p : Placed) :
    p.resolve labels base = labels.demand p.label.toList (p.linked labels base) := by
  obtain ⟨modrm, label⟩ := p
  cases label with
  | none => rfl
  | some name =>
      cases h : labels.find? name <;>
        simp [resolve, linked, Labels.resolve, Labels.demand, h, Except.map]

end Placed

namespace Code

/-- Every label that an operand names is bound. -/
def IsBound (code : Code) : Prop :=
  ∀ p ∈ code.operands, p.IsBound labels

/-- The labels that the operands name, from left to right. -/
def names (code : Code) : List String :=
  code.operands.flatMap fun p => p.label.toList

/-- The bytes of an instruction whose labels are bound. -/
def bytes (code : Code) : List UInt8 :=
  code.instruction.opcode :: (code.operands.map (Placed.linked labels base)).flatMap ModRM.encode

/-- The number of bytes of a list of instructions. -/
def totalSize (codes : List Code) : Nat :=
  codes.foldr (fun code n => code.size + n) 0

@[simp] theorem totalSize_nil : totalSize [] = 0 := rfl

@[simp] theorem totalSize_cons (code : Code) (codes : List Code) :
    totalSize (code :: codes) = code.size + totalSize codes := rfl

@[simp] theorem totalSize_append (codes others : List Code) :
    totalSize (codes ++ others) = totalSize codes + totalSize others := by
  induction codes with
  | nil => simp
  | cons code codes ih => simp [ih, Nat.add_assoc]

theorem totalSize_take_succ {codes : List Code} {k : Nat} {code : Code}
    (h : codes[k]? = some code) :
    totalSize (codes.take (k + 1)) = totalSize (codes.take k) + code.size := by
  rw [List.take_add_one, h, Option.toList_some, totalSize_append, totalSize_cons, totalSize_nil,
    Nat.add_zero]

/-- The size, which is computed before labels have addresses, is the number of bytes. -/
@[simp] theorem length_bytes (code : Code) : (code.bytes labels base).length = code.size := by
  simp only [bytes, size, List.length_cons, Nat.add_comm 1]
  induction code.operands with
  | nil => rfl
  | cons p rest ih =>
      simp only [List.map_cons, List.flatMap_cons, List.length_append, ModRM.length_encode,
        Placed.size_linked, List.foldr_cons]
      omega

theorem length_flatMap_bytes (codes : List Code) :
    (codes.flatMap (bytes labels base)).length = totalSize codes := by
  induction codes with
  | nil => rfl
  | cons code rest ih => simp [ih]

theorem encode_eq_demand (code : Code) :
    code.encode labels base = labels.demand code.names (code.bytes labels base) := by
  rw [encode, labels.demand_mapM (Placed.resolve_eq_demand labels base)]
  exact labels.demand_bind_pure ..

/-- Emission needs the labels of all operands, in order, and puts the instructions one after the
other. -/
theorem emit_eq_demand (codes : List Code) :
    emit labels base codes =
      labels.demand (codes.flatMap names) (codes.flatMap (bytes labels base)) := by
  induction codes with
  | nil => rfl
  | cons code rest ih =>
      rw [emit, encode_eq_demand, ih]
      exact labels.demand_bind (labels.demand_bind_pure ..)

theorem isBound_iff (code : Code) :
    code.IsBound labels ↔ ∀ name ∈ code.names, labels.find? name ≠ none := by
  simp only [IsBound, Placed.IsBound, names, List.mem_flatMap, Option.mem_toList]
  exact ⟨fun h name ⟨p, hp, hname⟩ => h p hp name hname, fun h p hp name hname =>
    h name ⟨p, hp, hname⟩⟩

/-- Emission succeeds when every label is bound. -/
theorem emit_eq_ok_iff (codes : List Code) (out : List UInt8) :
    emit labels base codes = .ok out ↔
      (∀ code ∈ codes, code.IsBound labels) ∧ out = codes.flatMap (bytes labels base) := by
  simp only [emit_eq_demand, Labels.demand_eq_ok_iff, isBound_iff, List.mem_flatMap]
  constructor
  · rintro ⟨hbound, rfl⟩
    exact ⟨fun code hcode name hname => hbound name ⟨code, hcode, hname⟩, rfl⟩
  · rintro ⟨hbound, rfl⟩
    exact ⟨fun name ⟨code, hcode, hname⟩ => hbound code hcode name hname, rfl⟩

end Code

end Linking

end Cpu32
