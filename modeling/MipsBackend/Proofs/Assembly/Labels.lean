import Mathlib.Data.List.Count
import MipsBackend.Assembly.Basic

/-!
# Where labels stand

A label names the line that defines it.  `LabelAt` says that it stands at a position of some code,
`Encloses` that a position lies between two labels, the first included, and `InRecord` that it lies
in the record of a class.  If a label is defined
once, its position is unique (`LabelAt.unique`, `existsUnique_labelAt`), and what the two labels of
a stretch of code enclose is that stretch (`encloses_iff`).
-/

namespace MipsBackend

/-- The label that an instruction defines. -/
def Inst.definedLabel : Inst → Option Label
  | .label l => some l
  | _ => none

namespace Code

variable {code pre mid post : Code} {l : Label} {i j : Nat}

/-- The labels that some code defines, in order. -/
def labels (code : Code) : List Label :=
  code.insts.filterMap Inst.definedLabel

/-- The line at a position defines a label. -/
def LabelAt (code : Code) (l : Label) (i : Nat) : Prop :=
  code.insts[i]? = some (.label l)

/-- A position lies at or after the first label of a range and before the second one. -/
def Encloses (code : Code) (range : Label × Label) (i : Nat) : Prop :=
  ∃ a b, code.LabelAt range.1 a ∧ code.LabelAt range.2 b ∧ a ≤ i ∧ i < b

/-- A position lies in the record of a class: at its start label or behind it, before any other
label. -/
def InRecord (code : Code) (name : String) (i : Nat) : Prop :=
  ∃ a, code.LabelAt (.classStart name) a ∧ a ≤ i ∧ ∀ l j, code.LabelAt l j → ¬ (a < j ∧ j ≤ i)

/-- The label stands once, and words follow it. -/
def HoldsWords (code : Code) (l : Label) (words : List DataWord) : Prop :=
  code.labels.count l = 1 ∧
    ∃ pre post, code.insts = pre ++ .label l :: (words.map Inst.word ++ post)

@[simp] theorem labels_nil : labels [] = [] :=
  rfl

@[simp] theorem labels_append (c d : Code) : labels (c ++ d) = labels c ++ labels d := by
  simp [labels, insts]

@[simp] theorem labels_of (span : Span) (is : List Inst) :
    (Code.of span is).labels = is.filterMap Inst.definedLabel := by
  simp [labels]

@[simp] theorem labels_cons (line : Line) (code : Code) :
    labels (line :: code) = line.inst.definedLabel.toList ++ labels code := by
  cases h : line.inst.definedLabel <;> simp [labels, insts, h]

theorem definedLabel_eq_some_iff {inst : Inst} : inst.definedLabel = some l ↔ inst = .label l := by
  cases inst <;> simp [Inst.definedLabel]

theorem mem_labels_iff : l ∈ code.labels ↔ ∃ i, code.LabelAt l i := by
  rw [labels, List.mem_filterMap]
  constructor
  · rintro ⟨inst, hinst, hl⟩
    obtain ⟨i, hi, hget⟩ := List.mem_iff_getElem.1 hinst
    refine ⟨i, ?_⟩
    rw [LabelAt, List.getElem?_eq_getElem hi, hget, definedLabel_eq_some_iff.1 hl]
  · rintro ⟨i, hi⟩
    exact ⟨_, List.mem_of_getElem? hi, rfl⟩

theorem labelAt_append_left (h : i < pre.length) :
    (pre ++ post).LabelAt l i ↔ pre.LabelAt l i := by
  rw [LabelAt, LabelAt, insts_append, List.getElem?_append_left (by simpa [insts] using h)]

theorem labelAt_append_right (h : pre.length ≤ i) :
    (pre ++ post).LabelAt l i ↔ post.LabelAt l (i - pre.length) := by
  rw [LabelAt, LabelAt, insts_append, List.getElem?_append_right (by simpa [insts] using h)]
  simp [insts]

/-- A label that is not defined twice has one position. -/
theorem LabelAt.unique (h : code.LabelAt l i) (h' : code.LabelAt l j)
    (hcount : code.labels.count l ≤ 1) : i = j := by
  -- Cut before the later of two positions: both halves would define the label.
  have hlt : ∀ {i j}, code.LabelAt l i → code.LabelAt l j → ¬ i < j := by
    intro i j hi hj hij
    have hjlen : j < code.length := by
      have := (List.getElem?_eq_some_iff.1 hj).1
      simpa [insts] using this
    have hlen : (code.take j).length = j := by
      rw [List.length_take]
      omega
    rw [← List.take_append_drop j code] at hi hj hcount
    have hleft : l ∈ labels (code.take j) :=
      mem_labels_iff.2 ⟨i, (labelAt_append_left (by omega)).1 hi⟩
    have hright : l ∈ labels (code.drop j) :=
      mem_labels_iff.2 ⟨_, (labelAt_append_right (by omega)).1 hj⟩
    rw [labels_append, List.count_append] at hcount
    have := List.count_pos_iff.2 hleft
    have := List.count_pos_iff.2 hright
    omega
  rcases Nat.lt_trichotomy i j with hij | rfl | hji
  · exact absurd hij (hlt h h')
  · rfl
  · exact absurd hji (hlt h' h)

theorem existsUnique_labelAt (h : code.labels.count l = 1) : ∃! i, code.LabelAt l i := by
  obtain ⟨i, hi⟩ := mem_labels_iff.1 (List.count_pos_iff.1 (show 0 < code.labels.count l by omega))
  exact ⟨i, hi, fun j hj => hj.unique hi (Nat.le_of_eq h)⟩

theorem Encloses.of_between {range : Label × Label} {a b : Nat} (ha : code.Encloses range a)
    (hb : code.Encloses range b) (hai : a ≤ i) (hib : i ≤ b) : code.Encloses range i := by
  obtain ⟨start, _, hstart, _, hle, _⟩ := ha
  obtain ⟨_, stop, _, hstop, _, hlt⟩ := hb
  exact ⟨start, stop, hstart, hstop, by omega, by omega⟩

/-- A range has a line of a record iff it has the record's start label, since a range begins and
ends at labels. -/
theorem InRecord.exists_encloses_iff {name : String} (h : code.InRecord name i)
    (range : Label × Label) :
    ∃ a, code.LabelAt (.classStart name) a ∧ (code.Encloses range i ↔ code.Encloses range a) := by
  obtain ⟨a, ha, hai, hnone⟩ := h
  refine ⟨a, ha, ?_, ?_⟩
  · rintro ⟨start, stop, hstart, hstop, hle, hlt⟩
    have := hnone _ _ hstart
    exact ⟨start, stop, hstart, hstop, by omega, by omega⟩
  · rintro ⟨start, stop, hstart, hstop, hle, hlt⟩
    have := hnone _ _ hstop
    exact ⟨start, stop, hstart, hstop, by omega, by omega⟩

section Stretch

/-! ## What two labels enclose -/

variable {span span' : Span} {s e : Label}
  (hcode : code = pre ++ (⟨span, .label s⟩ :: mid ++ ⟨span', .label e⟩ :: post))
  (hs : code.labels.count s ≤ 1) (he : code.labels.count e ≤ 1)
include hcode hs he

/-- Two labels enclose the stretch of code from the line of the first to that of the second. -/
theorem encloses_iff :
    code.Encloses (s, e) i ↔ pre.length ≤ i ∧ i < pre.length + (mid.length + 1) := by
  have hstart : code.LabelAt s pre.length := by
    rw [hcode, labelAt_append_right (Nat.le_refl _), Nat.sub_self]
    rfl
  have hend : code.LabelAt e (pre.length + (mid.length + 1)) := by
    rw [hcode, labelAt_append_right (Nat.le_add_right _ _), Nat.add_sub_cancel_left,
      labelAt_append_right (by simp), List.length_cons, Nat.sub_self]
    rfl
  constructor
  · rintro ⟨a, b, ha, hb, hai, hib⟩
    obtain rfl := ha.unique hstart hs
    obtain rfl := hb.unique hend he
    exact ⟨hai, hib⟩
  · rintro ⟨hi, hi'⟩
    exact ⟨_, _, hstart, hend, hi, hi'⟩

/-- A label that is not defined twice is enclosed if the stretch defines it. -/
theorem encloses_label_iff (hl : code.labels.count l ≤ 1) (hi : code.LabelAt l i) :
    code.Encloses (s, e) i ↔ l ∈ labels (⟨span, .label s⟩ :: mid) := by
  rw [encloses_iff hcode hs he]
  constructor
  · rintro ⟨hle, hlt⟩
    rw [hcode, labelAt_append_right hle,
      labelAt_append_left (by rw [List.length_cons]; omega)] at hi
    exact mem_labels_iff.2 ⟨_, hi⟩
  · intro hmem
    obtain ⟨j, hj⟩ := mem_labels_iff.1 hmem
    have hjlen : j < mid.length + 1 := by
      have := (List.getElem?_eq_some_iff.1 hj).1
      simpa [insts] using this
    have hj' : code.LabelAt l (pre.length + j) := by
      rw [hcode, labelAt_append_right (Nat.le_add_right _ _), Nat.add_sub_cancel_left,
        labelAt_append_left (by rw [List.length_cons]; exact hjlen)]
      exact hj
    obtain rfl := hi.unique hj' hl
    exact ⟨Nat.le_add_right _ _, by omega⟩

end Stretch

end Code

end MipsBackend
