import Cpu32.Proofs.Session.Boundary
import Cpu32.Proofs.Session.Linked

/-!
# Relocation

The base address of a session counts for nothing until the session is linked.  Two images of the
same calls at different bases differ in the addresses of labels and nowhere else: a label takes a
full word before it has an address, so no length depends on the base.
-/

namespace Cpu32

/-- The places in a list of items that are laid out one after the other, given the size of each
item and the places in it. -/
def placesIn {α : Type} (size : α → Nat) (places : α → List Nat) : List α → List Nat
  | [] => []
  | item :: rest => places item ++ (placesIn size places rest).map (size item + ·)

/-- Where the value of an operand stands in its encoding, if it is the address of a label. -/
def Placed.labelPlaces (p : Placed) : List Nat :=
  if p.label.isSome then [1] else []

/-- Where the addresses of labels stand in the bytes of an instruction. -/
def Code.labelPlaces (code : Code) : List Nat :=
  (placesIn (fun p => p.modrm.size) Placed.labelPlaces code.operands).map (1 + ·)

/-- Where the addresses of labels stand in the bytes of a session. -/
def Session.labelPlaces (s : Session) : List Nat :=
  placesIn Code.size Code.labelPlaces s.code.toList

/-- Two lists of bytes are the same except for the words at some places, which differ by a fixed
amount. -/
structure Relocated (delta : UInt32) (places : List Nat) (xs ys : List UInt8) : Prop where
  length_eq : ys.length = xs.length
  same : ∀ n, (∀ place ∈ places, n < place ∨ place + 4 ≤ n) → ys[n]? = xs[n]?
  moved : ∀ place ∈ places, place + 4 ≤ xs.length ∧
    ofBigEndian ((ys.drop place).take 4) = ofBigEndian ((xs.drop place).take 4) + delta

namespace Relocated

variable {delta : UInt32} {places others : List Nat} {xs ys xs' ys' : List UInt8}

theorem refl (delta : UInt32) (xs : List UInt8) : Relocated delta [] xs xs :=
  ⟨rfl, fun _ _ => rfl, nofun⟩

theorem append (h : Relocated delta places xs ys) (h' : Relocated delta others xs' ys') :
    Relocated delta (places ++ others.map (xs.length + ·)) (xs ++ xs') (ys ++ ys') where
  length_eq := by
    rw [List.length_append, List.length_append, h.length_eq, h'.length_eq]
  same := by
    intro n hn
    rw [List.forall_mem_append, List.forall_mem_map] at hn
    by_cases hlt : n < xs.length
    · rw [List.getElem?_append_left hlt, List.getElem?_append_left (h.length_eq ▸ hlt)]
      exact h.same n hn.1
    · have hge : xs.length ≤ n := Nat.le_of_not_lt hlt
      rw [List.getElem?_append_right hge, List.getElem?_append_right (h.length_eq ▸ hge),
        h.length_eq]
      apply h'.same
      intro place hplace
      have hside := hn.2 place hplace
      omega
  moved := by
    rw [List.forall_mem_append, List.forall_mem_map]
    constructor
    · intro place hplace
      obtain ⟨hfits, hword⟩ := h.moved place hplace
      have htake (zs zs' : List UInt8) (hzs : zs.length = xs.length) :
          ((zs ++ zs').drop place).take 4 = (zs.drop place).take 4 := by
        rw [List.drop_append_of_le_length (by omega), List.take_append_of_le_length]
        rw [List.length_drop]
        omega
      rw [htake xs xs' rfl, htake ys ys' h.length_eq, List.length_append]
      exact ⟨by omega, hword⟩
    · intro place hplace
      obtain ⟨hfits, hword⟩ := h'.moved place hplace
      have hdrop (zs zs' : List UInt8) (hzs : zs.length = xs.length) :
          (zs ++ zs').drop (xs.length + place) = zs'.drop place := by
        rw [← hzs, List.drop_length_add_append]
      rw [hdrop xs xs' rfl, hdrop ys ys' h.length_eq, List.length_append]
      exact ⟨by omega, hword⟩

/-- What is laid out item by item is relocated item by item. -/
theorem flatMap {α : Type} {size : α → Nat} {places : α → List Nat} {f g : α → List UInt8}
    (hsize : ∀ item, (f item).length = size item) {items : List α}
    (h : ∀ item ∈ items, Relocated delta (places item) (f item) (g item)) :
    Relocated delta (placesIn size places items) (items.flatMap f) (items.flatMap g) := by
  induction items with
  | nil => exact .refl delta []
  | cons item rest ih =>
      rw [List.forall_mem_cons] at h
      rw [placesIn, List.flatMap_cons, List.flatMap_cons, ← hsize item]
      exact h.1.append (ih h.2)

end Relocated

section Operands

variable {labels : Labels} (base base' : UInt32)

/-- Each operand that names a label has room for a full word. -/
def Placed.IsWide (p : Placed) : Prop :=
  p.label ≠ none → p.modrm.width = some .word

theorem Operand.isWide {o : Operand} {p : Placed} (h : o.encode = .ok p) : p.IsWide := by
  obtain ⟨shape, address⟩ := o
  have hword : (ModRM.wideImmediate 0).width = some .word := by
    decide
  cases shape <;> cases address <;> cases h
  case label name => exact fun _ => hword
  all_goals exact fun hlabel => absurd rfl hlabel

theorem Placed.relocated {p : Placed} (hbound : p.IsBound labels) (hwide : p.IsWide) :
    Relocated (base' - base) p.labelPlaces (p.linked labels base).encode
      (p.linked labels base').encode := by
  obtain ⟨modrm, label⟩ := p
  cases label with
  | none => exact .refl _ _
  | some name =>
      obtain ⟨offset, hoffset⟩ := Option.ne_none_iff_exists'.mp (hbound name rfl)
      have hencode (base : UInt32) :
          (Placed.linked labels base ⟨modrm, some name⟩).encode =
            modrm.code :: Width.word.bytes (base + offset) := by
        have hword : Width.ofMode? modrm.mode = some .word := hwide nofun
        simp only [linked, Option.bind_some, hoffset, ModRM.encode, ModRM.width, hword]
        rfl
      rw [hencode, hencode]
      refine ⟨by simp, ?_, ?_⟩
      · -- Outside the four bytes of the value stands the descriptor byte, or nothing any more.
        intro n hn
        rcases hn 1 (List.mem_singleton_self 1) with hlt | hge
        · obtain rfl : n = 0 := by omega
          rfl
        · have hlength (value : UInt32) :
              (modrm.code :: Width.word.bytes value).length ≤ n := by
            simpa [Width.size] using hge
          rw [List.getElem?_eq_none (hlength _), List.getElem?_eq_none (hlength _)]
      · intro place hplace
        obtain rfl : place = 1 := List.mem_singleton.mp hplace
        have htake (value : UInt32) : ((modrm.code :: Width.word.bytes value).drop 1).take 4 =
            Width.word.bytes value := by
          exact List.take_of_length_le (by simp [Width.size])
        rw [htake, htake, Width.ofBigEndian_bytes, Width.ofBigEndian_bytes]
        refine ⟨by simp [Width.size], ?_⟩
        change base' + offset = base + offset + (base' - base)
        grind

theorem Code.relocated {code : Code} (hbound : code.IsBound labels)
    (hwide : ∀ p ∈ code.operands, p.IsWide) :
    Relocated (base' - base) code.labelPlaces (code.bytes labels base)
      (code.bytes labels base') := by
  rw [bytes, bytes, List.flatMap_map, List.flatMap_map]
  have hsize (p : Placed) : ((p.linked labels base).encode).length = p.modrm.size := by
    rw [ModRM.length_encode, Placed.size_linked]
  have hoperands := Relocated.flatMap hsize fun p hp =>
    Placed.relocated base base' (hbound p hp) (hwide p hp)
  exact (Relocated.refl (base' - base) [code.instruction.opcode]).append hoperands

end Operands

namespace Session

variable (base : UInt32)

/-- The session with another base address. -/
def rebase (base : UInt32) (s : Session) : Session :=
  { s with base }

theorem onLabels_rebase (x : EStateM DuplicateLabel Labels Unit) (s : Session) :
    onLabels x (s.rebase base) = mapState (rebase base) (onLabels x s) := by
  have hlabels : (s.rebase base).labels = s.labels := rfl
  rw [onLabels, onLabels, hlabels]
  cases x s.labels <;> rfl

theorem append_rebase (instruction : Instruction) (operands : List Operand) (s : Session) :
    append instruction operands (s.rebase base) =
      mapState (rebase base) (append instruction operands s) := by
  refine bind_mapState ?_ fun _ _ => rfl
  cases assemble instruction operands <;> rfl

theorem apply_rebase (s : Session) (statement : Source.Statement) :
    (s.rebase base).apply statement = mapState (rebase base) (s.apply statement) := by
  cases statement with
  | instruction instruction operands => exact append_rebase base instruction operands s
  | bindNext name => exact onLabels_rebase base (Labels.define name s.offset) s
  | bindPrevious name =>
      have hprevious : (s.rebase base).previous? = s.previous? := rfl
      rw [apply, bindPrevious, get_bind, get_bind, hprevious]
      cases s.previous? with
      | none => rfl
      | some code => exact onLabels_rebase base _ s
  | exporting name => rfl
  | importing name => rfl
  | order order => rfl

theorem buildFrom_rebase (s : Session) (order : Source.Order) (words : List Source.Token) :
    Source.buildFrom order words (s.rebase base) =
      mapState (rebase base) (Source.buildFrom order words s) := by
  induction order, words using Source.buildFrom.induct generalizing s with
  | case1 order => rw [Source.buildFrom_nil, Source.buildFrom_nil, mapState]
  | case2 order head rest ih =>
      rw [Source.buildFrom]
      refine bind_mapState (adaptExcept_mapState _ ?_) fun next t => ih _ _ t
      refine bind_mapState ?_ fun first t => bind_mapState (apply_rebase base t first.1) ?_
      · cases Source.firstStatement order head rest <;> rfl
      · exact fun _ _ => rfl

theorem feed_rebase (s : Session) (source : String) :
    feed source (s.rebase base) = mapState (rebase base) (feed source s) := by
  simp only [feed]
  cases Source.tokenize source with
  | error error => rfl
  | ok words => exact buildFrom_rebase base s.beginFile .sourceFirst words

/-- No call looks at the base address. -/
theorem perform_rebase (s : Session) (edit : Edit) :
    edit.perform (s.rebase base) = mapState (rebase base) (edit.perform s) := by
  cases edit with
  | append instruction operands =>
      exact adaptExcept_mapState _ (append_rebase base instruction operands s)
  | appendComparison a b relation =>
      refine adaptExcept_mapState _ ?_
      rw [appendComparison]
      split
      · exact append_rebase base relation [a, b] s
      · rfl
  | appendComplement operand => exact adaptExcept_mapState _ (append_rebase base .dal _ s)
  | bindNext name => exact adaptExcept_mapState _ (s.apply_rebase base (.bindNext name))
  | bindPrevious name => exact adaptExcept_mapState _ (s.apply_rebase base (.bindPrevious name))
  | beginFile => rfl
  | addExport name => rfl
  | addImport name => rfl
  | feed source => exact adaptExcept_mapState _ (feed_rebase base s source)

/-- What is seen of some calls: how each of them ends, and the offset after it. -/
def transcript : Session → List Edit → List (Except Edit.Failure Unit × UInt32)
  | _, [] => []
  | s, edit :: rest =>
      let t := stateAfter edit.perform s
      (outcome edit.perform s, t.offset) :: t.transcript rest

/-- Nor does a series of calls, but for the base that the session keeps. -/
theorem after_rebase (s : Session) (edits : List Edit) :
    (s.rebase base).after edits = (s.after edits).rebase base ∧
      (s.rebase base).transcript edits = s.transcript edits := by
  induction edits generalizing s with
  | nil => exact ⟨rfl, rfl⟩
  | cons edit rest ih =>
      have hperform := s.perform_rebase base edit
      have hstate := stateAfter_of_mapState hperform
      have hend := outcome_of_mapState hperform
      obtain ⟨hafter, htranscript⟩ := ih (stateAfter edit.perform s)
      constructor
      · rw [after, hstate, hafter, after]
      · simp only [transcript, hstate, hend, htranscript]
        rfl

/-- Whatever was accepted leaves room for the addresses of its labels. -/
theorem isWide_of_assemble {i : Instruction} {operands : List Operand} {code : Code}
    (h : assemble i operands = .ok code) : ∀ p ∈ code.operands, p.IsWide := by
  intro p hp
  have hmem : Except.ok p ∈ (code.operands.map .ok : List (Except Operand.Misfit Placed)) :=
    List.mem_map_of_mem hp
  rw [← (assemble_eq_ok h).2.2.1] at hmem
  obtain ⟨o, _, hencode⟩ := List.mem_map.mp hmem
  exact o.isWide hencode

/-- The symbols of an image move with the base. -/
theorem symbols_rebase (s : Session) (name : String) :
    (s.rebase base).image.symbols[name]? =
      s.image.symbols[name]?.map (· + (base - s.base)) := by
  have hmoved (offset : UInt32) : base + offset = s.base + offset + (base - s.base) := by
    grind
  rw [getElem?_symbols, getElem?_symbols]
  by_cases hname : name ∈ s.exports
  · have hname' : name ∈ (s.rebase base).exports := hname
    rw [if_pos hname, if_pos hname', Option.map_some]
    exact congrArg some (hmoved _)
  · have hname' : name ∉ (s.rebase base).exports := hname
    rw [if_neg hname, if_neg hname', Option.map_none]

/-- The bytes of an image are the same at any base, but for the addresses of labels. -/
theorem relocated_image {s : Session} (hbound : ∀ code ∈ s.code.toList, code.IsBound s.labels)
    (hwide : ∀ code ∈ s.code.toList, ∀ p ∈ code.operands, p.IsWide) :
    Relocated (base - s.base) s.labelPlaces s.image.bytes (s.rebase base).image.bytes :=
  Relocated.flatMap (Code.length_bytes s.labels s.base) fun code hcode =>
    Code.relocated s.base base (hbound code hcode) (hwide code hcode)

/-- Whatever is called on two sessions that differ in their base address, the calls end alike and
lead to the same offsets.  In the end both sessions can be linked or neither, for the same reason,
and their images differ in the addresses of labels: those in the bytes and those of the symbols all
lie apart as far as the bases do. -/
theorem relocation (base base' : UInt32) (edits : List Edit) :
    let s := ({ base } : Session).after edits
    let t := ({ base := base' } : Session).after edits
    ({ base } : Session).transcript edits = ({ base := base' } : Session).transcript edits ∧
      t = { s with base := base' } ∧
      (∀ e, s.finish = .error e ↔ t.finish = .error e) ∧
      ∀ image, s.finish = .ok image → ∃ image', t.finish = .ok image' ∧
        image.base = base ∧ image'.base = base' ∧
        Relocated (base' - base) s.labelPlaces image.bytes image'.bytes ∧
        ∀ name : String, image'.symbols[name]? = image.symbols[name]?.map (· + (base' - base)) := by
  intro s t
  obtain ⟨hafter, htranscript⟩ := ({ base } : Session).after_rebase base' edits
  have hbuilds : Builds { base } (({ base } : Session).history edits) s :=
    builds_history { base } edits
  have hrebased : t = s.rebase base' := hafter
  have hbase : s.base = base := hbuilds.base_eq
  refine ⟨htranscript.symm, hafter, ?_, ?_⟩
  · intro e
    rw [finish_eq_demand, finish_eq_demand, Labels.demand_eq_error_iff,
      Labels.demand_eq_error_iff, hrebased]
    rfl
  · intro image hfinish
    have hbound := (finish_eq_ok hfinish).2.1
    rw [finish_eq_demand, Labels.demand_eq_ok_iff] at hfinish
    obtain ⟨hdemanded, rfl⟩ := hfinish
    have hwide (code : Code) (hcode : code ∈ s.code.toList) : ∀ p ∈ code.operands, p.IsWide := by
      obtain ⟨i, operands, hassemble⟩ := hbuilds.exists_assemble hcode
      exact isWide_of_assemble hassemble
    refine ⟨(s.rebase base').image, ?_, hbase, rfl, ?_, ?_⟩
    · rw [finish_eq_demand, Labels.demand_eq_ok_iff, hrebased]
      exact ⟨hdemanded, rfl⟩
    · rw [← hbase]
      exact relocated_image base' hbound hwide
    · rw [← hbase]
      exact s.symbols_rebase base'

/-- A jump to an exported label at the end, from a base near the top of the address space to one
near its bottom. -/
theorem relocation_wraps :
    let edits : List Edit :=
      [.addExport "end", .append .krz [{ shape := .label "end" }, { shape := .register .xx }],
        .bindNext "end", .bindNext "end"]
    let s := ({ base := 0xFFFFFFF0 } : Session).after edits
    let t := ({ base := 0x10 } : Session).after edits
    s.finish = .ok s.image ∧ s.image.symbols["end"]? = some 0xFFFFFFF7 ∧ s.labelPlaces = [2] ∧
      ∃ image, t.finish = .ok image ∧ image.symbols["end"]? = some 0x17 ∧
        ofBigEndian ((image.bytes.drop 2).take 4) = 0x17 := by
  intro edits s t
  have hfinish : s.finish = .ok s.image := rfl
  have hsymbol : s.image.symbols["end"]? = some 0xFFFFFFF7 := rfl
  have hplaces : s.labelPlaces = [2] := rfl
  have hword : ofBigEndian ((s.image.bytes.drop 2).take 4) = 0xFFFFFFF7 := by
    decide
  obtain ⟨_, _, _, hlinked⟩ := relocation 0xFFFFFFF0 0x10 edits
  obtain ⟨image, himage, _, _, hbytes, hsymbols⟩ := hlinked s.image hfinish
  refine ⟨hfinish, hsymbol, hplaces, image, himage, ?_, ?_⟩
  · rw [hsymbols, hsymbol]
    rfl
  · rw [(hbytes.moved 2 (hplaces ▸ List.mem_singleton_self 2)).2, hword]
    rfl

end Session

end Cpu32
