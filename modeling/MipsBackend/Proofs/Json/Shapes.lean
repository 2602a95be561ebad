import MipsBackend.Json.Shape
import MipsBackend.Proofs.Json.Lexing

/-!
# Reading the shapes of data

A number, list, record or choice is read back as it was written, where its parts are.
-/

namespace MipsBackend.Json

mutual

/-- How deep a value nests arrays and objects, the outermost included. -/
def depth : Json → Nat
  | array items => itemsDepth items + 1
  | object members => membersDepth members + 1
  | _ => 0

/-- How deep the deepest of some items nests. -/
def itemsDepth : List Json → Nat
  | [] => 0
  | item :: items => max (depth item) (itemsDepth items)

/-- How deep the deepest value of some members nests. -/
def membersDepth : List (Option String × Json) → Nat
  | [] => 0
  | (_, value) :: members => max (depth value) (membersDepth members)

end

theorem depth_lt_of_mem_items {item : Json} {items : List Json} (h : item ∈ items) :
    item.depth < (array items).depth := by
  rw [depth]
  induction items with
  | nil => cases h
  | cons first items ih =>
    rw [itemsDepth]
    rcases List.mem_cons.1 h with rfl | h
    · omega
    · have := ih h
      omega

theorem depth_lt_of_mem_members {m : Option String × Json} {members : List (Option String × Json)}
    (h : m ∈ members) : m.2.depth < (object members).depth := by
  rw [depth]
  induction members with
  | nil => cases h
  | cons first members ih =>
    rw [membersDepth]
    rcases List.mem_cons.1 h with rfl | h
    · omega
    · have := ih h
      omega

theorem depth_lt_record (name : String) {value : Json} {fields : List (String × Json)}
    (h : (name, value) ∈ fields) : value.depth < (record fields).depth :=
  depth_lt_of_mem_members (List.mem_map_of_mem (f := fun m => (some m.1, m.2)) h)

/-- An item of a list that is a field stands two levels below the record. -/
theorem depth_add_two_le_record {α : Type} {write : α → Json} {items : List α} {a : α}
    (h : a ∈ items) (name : String) {fields : List (String × Json)}
    (field : (name, ofList write items) ∈ fields) :
    (write a).depth + 2 ≤ (record fields).depth := by
  have listed : (write a).depth < (ofList write items).depth :=
    depth_lt_of_mem_items (List.mem_map_of_mem h)
  have contained := depth_lt_record name field
  omega

theorem depth_choiceOf (name : String) (content : Json) :
    (choiceOf name content).depth = content.depth + 1 := by
  simp [choiceOf, ofMembers, depth, membersDepth]

/-! ## Plain shapes -/

theorem IsPlain.text (s : String) : (Json.text s).IsPlain :=
  .string _

theorem IsPlain.choice (name : String) : (Json.choice name).IsPlain :=
  .string _

theorem IsPlain.ofMembers {members : List (String × Json)} (h : ∀ m ∈ members, m.2.IsPlain) :
    (Json.ofMembers members).IsPlain := by
  refine .object _ fun m mem => ?_
  obtain ⟨member, listed, rfl⟩ := List.mem_map.1 mem
  exact h member listed

theorem IsPlain.choiceOf (name : String) {content : Json} (h : content.IsPlain) :
    (Json.choiceOf name content).IsPlain :=
  .ofMembers (by simpa using h)

theorem IsPlain.ofOption {α : Type} {write : α → Json} (h : ∀ a, (write a).IsPlain) (o : Option α) :
    (Json.ofOption write o).IsPlain := by
  cases o
  · exact .null
  · exact h _

theorem IsPlain.ofList {α : Type} {write : α → Json} (h : ∀ a, (write a).IsPlain) (items : List α) :
    (Json.ofList write items).IsPlain := by
  refine .array _ fun item mem => ?_
  obtain ⟨a, -, rfl⟩ := List.mem_map.1 mem
  exact h a

/-! ## Reading what was written -/

theorem uint32?_toNat (n : UInt32) : uint32? (integer n.toNat) = some n := by
  have small := n.toNat_lt
  have inRange : (0 : Int) ≤ n.toNat ∧ (n.toNat : Int) < 0x100000000 := by omega
  unfold uint32? integer?
  rw [Option.bind_eq_bind, Option.bind_some, if_pos inRange, Int.toNat_natCast, UInt32.ofNat_toNat]

theorem int32?_toInt (n : Int32) : int32? (integer n.toInt) = some n := by
  simp only [int32?, integer?, Option.bind_eq_bind, Option.bind_some]
  rw [if_pos ⟨n.le_toInt, n.toInt_lt⟩, Int32.ofInt_toInt]

theorem mapM_map_eq_some {α β γ : Type} {f : β → Option γ} {g : α → β} {h : α → γ} {items : List α}
    (reads : ∀ a ∈ items, f (g a) = some (h a)) : (items.map g).mapM f = some (items.map h) := by
  induction items with
  | nil => rfl
  | cons a items ih =>
    obtain ⟨first, rest⟩ := List.forall_mem_cons.1 reads
    simp [first, ih rest]

theorem list_ofList {α : Type} {read : Json → Option α} {write : α → Json} {items : List α}
    (h : ∀ a ∈ items, read (write a) = some a) : (ofList write items).list read = some items := by
  have reads := mapM_map_eq_some (h := id) h
  rwa [List.map_id] at reads

theorem optional_ofOption {α : Type} {read : Json → Option α} {write : α → Json}
    (h : ∀ a, read (write a) = some a) (present : ∀ a, write a ≠ null) (o : Option α) :
    optional read (ofOption write o) = some o := by
  cases o with
  | none => rfl
  | some a =>
    unfold optional ofOption
    split
    · exact absurd ‹_› (present a)
    · rw [h, Option.map_some]

/-- Of members with different names, each is found by its own. -/
theorem filter_name_eq {fields : List (String × Json)} (nodup : (fields.map Prod.fst).Nodup)
    {field : String × Json} (h : field ∈ fields) :
    (fields.map fun m => (some m.1, m.2)).filter (·.1 = some field.1) =
      [(some field.1, field.2)] := by
  induction fields with
  | nil => cases h
  | cons first fields ih =>
    obtain ⟨fresh, nodup⟩ := List.nodup_cons.1 nodup
    rcases List.mem_cons.1 h with rfl | h
    · have others : ∀ m ∈ fields, m.1 ≠ field.1 := fun m mem same =>
        fresh (same ▸ List.mem_map_of_mem mem)
      simpa [List.filter_map] using others
    · have other : first.1 ≠ field.1 := fun same => fresh (same ▸ List.mem_map_of_mem h)
      simpa [other] using ih nodup h

/-- A record is read by the names of its fields. -/
theorem fields?_record {fields : List (String × Json)} {names : List String}
    (named : fields.map Prod.fst = names) (nodup : names.Nodup) :
    (record fields).fields? names = some (fields.map fun field => some field.2) := by
  subst named
  have present : (fields.map fun m => (some m.1, m.2)).all (·.1.isSome) = true := by simp
  refine (if_pos present).trans ?_
  exact mapM_map_eq_some fun field mem => by rw [filter_name_eq nodup mem]

theorem text?_text (s : String) : (text s).text? = some s :=
  rfl

theorem choice?_choice (name : String) : (choice name).choice? = some (name, null) :=
  rfl

theorem choice?_choiceOf (name : String) (content : Json) :
    (choiceOf name content).choice? = some (name, content) :=
  rfl

end MipsBackend.Json
