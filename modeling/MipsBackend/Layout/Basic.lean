import MipsBackend.Offset
import MipsBackend.Program.Lookup

/-!
# Layouts

What the layout pass finds out: how many fields the objects of a class have and which method stands
in each slot of its dispatch table, where each method finds its receiver, and the offsets of
instance variables and formal parameters.  Entries are written once (`record_eq_ok_iff`), and an
entry that was never written cannot be read (`classAt_eq_ok_iff` and its like).
-/

namespace MipsBackend

/-- The layout of a class, with all that it inherits. -/
structure ClassLayout where
  /-- The number of scalar fields. -/
  numScalar : Nat := 0
  /-- The number of reference fields. -/
  numReference : Nat := 0
  /-- The methods of the dispatch table from slot 1 on; slot 0 is the superclass word. -/
  vtable : List MethodId := []
deriving DecidableEq

namespace ClassLayout

/-- What a root class inherits. -/
def root : ClassLayout :=
  {}

/-- The method in a slot. -/
def slot? (cl : ClassLayout) : Nat → Option MethodId
  | 0 => none
  | n + 1 => cl.vtable[n]?

end ClassLayout

/-- The layout of a method. -/
structure MethodLayout where
  /-- The slot of the dispatch table, shared with the method that this one overrides. -/
  slot : Nat
  /-- The frame offset of the receiver, just above the formal parameters. -/
  receiverOffset : Int
deriving DecidableEq

namespace MethodLayout

/-- The offset of the method's entry in a class record.  Slots are counted in unsigned words, and
the offset is reckoned in signed ones. -/
def entryOffset (m : MethodLayout) : Int :=
  (Int32.ofNat m.slot).toInt * wordSize

/-- The offset of the method's entry, if it fits. -/
def entry (m : MethodLayout) : Except Fault Int :=
  Offset.mul (Int32.ofNat m.slot).toInt wordSize

theorem entry_eq_ok_iff {m : MethodLayout} {offset : Int} :
    m.entry = .ok offset ↔ Offset.Fits m.entryOffset ∧ offset = m.entryOffset :=
  Offset.checked_eq_ok_iff

/-- As an address, the offset is that of the slot's word, whatever the slot. -/
theorem ofInt_entryOffset (m : MethodLayout) :
    BitVec.ofInt 32 m.entryOffset = BitVec.ofInt 32 (m.slot * wordSize) := by
  have hslot : BitVec.ofInt 32 (Int32.ofNat m.slot).toInt = BitVec.ofInt 32 m.slot := by
    rw [BitVec.ofInt_natCast]
    exact BitVec.ofInt_toInt
  rw [entryOffset, BitVec.ofInt_mul, BitVec.ofInt_mul, hslot]

/-- A slot whose entry can be addressed is the same number as a signed word. -/
theorem entryOffset_eq {m : MethodLayout} (h : Offset.Fits (m.slot * wordSize)) :
    m.entryOffset = m.slot * wordSize := by
  have hslot : (Int32.ofNat m.slot).toInt = m.slot := by
    refine Int32.toInt_ofNat_of_lt ?_
    have hlt := h.2
    rw [wordSize] at hlt
    omega
  rw [entryOffset, hslot]

end MethodLayout

/-- The layout of a program, one entry for each node of the arenas. -/
structure Layout where
  classes : Array (Option ClassLayout)
  methods : Array (Option MethodLayout)
  /-- Instance variables count from the object, formal parameters from the frame. -/
  vars : Array (Option Int)
deriving DecidableEq

/-- Writes an entry that was not written before. -/
def record {α : Type} {sort : NodeSort} (entries : Array (Option α)) (id : NodeId sort)
    (value : α) : Except Fault (Array (Option α)) := do
  match ← lookup entries id with
  | some _ => defect (.laidOutTwice id)
  | none => return entries.setIfInBounds id.toNat (some value)

theorem record_eq_ok_iff {α : Type} {sort : NodeSort} {entries entries' : Array (Option α)}
    {id : NodeId sort} {value : α} :
    record entries id value = .ok entries' ↔
      entries[id.toNat]? = some none ∧
        entries' = entries.setIfInBounds id.toNat (some value) := by
  unfold record lookup
  rcases entries[id.toNat]? with _ | _ | old <;> simp [bind_eq_ok_iff]

namespace Layout

/-- A layout without entries. -/
def blank (p : Program) : Layout where
  classes := .replicate p.classes.size none
  methods := .replicate p.methods.size none
  vars := .replicate p.vars.size none

/-- The layout of a class. -/
def classAt (l : Layout) (id : ClassId) : Except Fault ClassLayout := do
  match ← lookup l.classes id with
  | some cl => return cl
  | none => defect (.classWithoutLayout id)

/-- The layout of a method. -/
def methodAt (l : Layout) (id : MethodId) : Except Fault MethodLayout := do
  match ← lookup l.methods id with
  | some m => return m
  | none => defect (.methodWithoutLayout id)

/-- The offset of an instance variable or formal parameter. -/
def varOffset (l : Layout) (id : VarId) : Except Fault Int := do
  match ← lookup l.vars id with
  | some offset => return offset
  | none => defect (.varWithoutOffset id)

theorem classAt_eq_ok_iff {l : Layout} {id : ClassId} {cl : ClassLayout} :
    l.classAt id = .ok cl ↔ l.classes[id.toNat]? = some (some cl) := by
  unfold classAt lookup
  rcases l.classes[id.toNat]? with _ | _ | found <;> simp [bind_eq_ok_iff, @eq_comm _ cl]

theorem methodAt_eq_ok_iff {l : Layout} {id : MethodId} {m : MethodLayout} :
    l.methodAt id = .ok m ↔ l.methods[id.toNat]? = some (some m) := by
  unfold methodAt lookup
  rcases l.methods[id.toNat]? with _ | _ | found <;> simp [bind_eq_ok_iff, @eq_comm _ m]

theorem varOffset_eq_ok_iff {l : Layout} {id : VarId} {offset : Int} :
    l.varOffset id = .ok offset ↔ l.vars[id.toNat]? = some (some offset) := by
  unfold varOffset lookup
  rcases l.vars[id.toNat]? with _ | _ | found <;> simp [bind_eq_ok_iff, @eq_comm _ offset]

end Layout

end MipsBackend
