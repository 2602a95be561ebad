import Mathlib.Algebra.Ring.Nat
import Mathlib.Data.Prod.Lex
import MipsBackend.Span

/-!
# The algebra of spans

A span is determined by its ends, and it is the dummy span exactly if it ends at 0
(`isDummy_iff`).  So two spans with source text are never joined to the dummy span, and joining is
a semilattice operation with the dummy span at the bottom.  The hull of a list is the least upper
bound of its members (`join_hull_eq_iff`), hence the same for all lists with the same members.

Spans are compared by their starts and then by their ends.  The words in which they are packed hold
the ends in the high half, so the words themselves compare differently; `order_eq_compare_pack`
exchanges the halves.  `spanLaws` puts everything together.
-/

namespace MipsBackend

namespace Span

variable {a b : UInt32} {s t u : Span} {xs ys : List Span}

/-! ## Ends -/

theorem ext_iff : s = t ↔ s.lo = t.lo ∧ s.hi = t.hi := by
  constructor
  · rintro rfl
    exact ⟨rfl, rfl⟩
  · rintro ⟨hlo, hhi⟩
    rw [← ofEnds_lo_hi s, hlo, hhi, ofEnds_lo_hi]

theorem toNat_lo_ofEnds : (ofEnds a b).lo.toNat = min a.toNat b.toNat := by
  rw [lo_ofEnds, ← UInt32.toNat_min]
  rfl

theorem toNat_hi_ofEnds : (ofEnds a b).hi.toNat = max a.toNat b.toNat := by
  rw [hi_ofEnds, ← UInt32.toNat_max]
  rfl

theorem toNat_lo_le_hi (s : Span) : s.lo.toNat ≤ s.hi.toNat :=
  UInt32.le_iff_toNat_le.1 s.lo_le_hi

theorem toNat_ext_iff : s = t ↔ s.lo.toNat = t.lo.toNat ∧ s.hi.toNat = t.hi.toNat := by
  rw [ext_iff, UInt32.toNat_inj, UInt32.toNat_inj]

/-- A span that ends at 0 starts there too. -/
theorem isDummy_iff : s.isDummy = true ↔ s.hi.toNat = 0 := by
  have hle := s.toNat_lo_le_hi
  rw [isDummy, beq_iff_eq, toNat_ext_iff, dummy, toNat_lo_ofEnds, toNat_hi_ofEnds]
  simp only [UInt32.toNat_zero]
  omega

theorem isDummy_eq_false_iff : s.isDummy = false ↔ s ≠ dummy :=
  beq_eq_false_iff_ne

theorem toNat_pack : (pack a b).toNat = b.toNat * 2 ^ 32 + a.toNat := by
  have hfit : b.toNat * 2 ^ 32 < 2 ^ 64 := by
    have hb := b.toNat_lt
    omega
  have hamount : (32 : UInt64).toNat % 64 = 32 := rfl
  rw [pack, UInt64.toNat_or, UInt64.toNat_shiftLeft, hamount, UInt32.toNat_toUInt64,
    UInt32.toNat_toUInt64, Nat.shiftLeft_eq, Nat.mod_eq_of_lt hfit, ← Nat.shiftLeft_eq, Nat.or_comm,
    ← Nat.shiftLeft_add_eq_or_of_lt a.toNat_lt]

/-! ## Joining -/

/-- The first span contains every byte of the second one. -/
def Covers (s t : Span) : Prop :=
  s.lo ≤ t.lo ∧ t.hi ≤ s.hi

theorem covers_iff : s.Covers t ↔ s.lo.toNat ≤ t.lo.toNat ∧ t.hi.toNat ≤ s.hi.toNat := by
  rw [Covers, UInt32.le_iff_toNat_le, UInt32.le_iff_toNat_le]

/-- Two dummy spans are the same, so the starts need to be compared only if neither is one. -/
theorem toNat_lo_join : (s.join t).lo.toNat =
    if s.hi.toNat = 0 then t.lo.toNat else if t.hi.toNat = 0 then s.lo.toNat
    else min s.lo.toNat t.lo.toNat := by
  have hs := s.toNat_lo_le_hi
  have ht := t.toNat_lo_le_hi
  simp only [join, isDummy_iff]
  split
  · rfl
  · split
    · rfl
    · rw [toNat_lo_ofEnds, UInt32.toNat_min, UInt32.toNat_max]
      omega

/-- The dummy span ends at 0, so that it need not be told apart here. -/
theorem toNat_hi_join : (s.join t).hi.toNat = max s.hi.toNat t.hi.toNat := by
  have hs := s.toNat_lo_le_hi
  have ht := t.toNat_lo_le_hi
  simp only [join, isDummy_iff]
  split
  · omega
  · split
    · omega
    · rw [toNat_hi_ofEnds, UInt32.toNat_min, UInt32.toNat_max]
      omega

theorem dummy_join (s : Span) : dummy.join s = s :=
  if_pos (beq_self_eq_true dummy)

theorem join_comm (s t : Span) : s.join t = t.join s := by
  have hs := s.toNat_lo_le_hi
  have ht := t.toNat_lo_le_hi
  rw [toNat_ext_iff]
  simp only [toNat_lo_join, toNat_hi_join]
  grind

theorem join_dummy (s : Span) : s.join dummy = s := by
  rw [join_comm, dummy_join]

theorem join_assoc (s t u : Span) : (s.join t).join u = s.join (t.join u) := by
  rw [toNat_ext_iff]
  simp only [toNat_lo_join, toNat_hi_join]
  grind

theorem join_self (s : Span) : s.join s = s := by
  rw [toNat_ext_iff]
  simp only [toNat_lo_join, toNat_hi_join]
  grind

theorem isDummy_join : (s.join t).isDummy = (s.isDummy && t.isDummy) := by
  rw [Bool.eq_iff_iff, Bool.and_eq_true]
  simp only [isDummy_iff, toNat_hi_join]
  omega

/-- What covers two spans covers their union. -/
theorem Covers.join (hs : u.Covers s) (ht : u.Covers t) : u.Covers (s.join t) := by
  rw [covers_iff] at hs ht ⊢
  simp only [toNat_lo_join, toNat_hi_join]
  grind

theorem join_covers_left (hs : s.isDummy = false) : (s.join t).Covers s := by
  rw [← Bool.not_eq_true, isDummy_iff] at hs
  rw [covers_iff]
  simp only [toNat_lo_join, toNat_hi_join]
  grind

theorem join_covers_right (ht : t.isDummy = false) : (s.join t).Covers t := by
  rw [join_comm]
  exact join_covers_left ht

/-! ## Hulls -/

theorem hull_cons : hull (s :: xs) = s.join (hull xs) := by
  have : Std.Associative join := ⟨join_assoc⟩
  have hfold : (xs.foldl join (s.join dummy)) = s.join (xs.foldl join dummy) := List.foldl_assoc
  rw [hull, List.foldl_cons, dummy_join, hull, ← hfold, join_dummy]

/-- A union is below a span exactly if both parts are. -/
theorem join_join_eq_iff : (s.join t).join u = u ↔ s.join u = u ∧ t.join u = u := by
  constructor
  · intro h
    constructor
    · rw [← h, ← join_assoc, ← join_assoc, join_self]
    · rw [← h, join_comm s, ← join_assoc, ← join_assoc, join_self]
  · rintro ⟨hs, ht⟩
    rw [join_assoc, ht, hs]

/-- The hull of a list is its least upper bound. -/
theorem join_hull_eq_iff : (hull xs).join u = u ↔ ∀ s ∈ xs, s.join u = u := by
  induction xs with
  | nil => exact iff_of_true (dummy_join u) fun _ h => absurd h List.not_mem_nil
  | cons s xs ih => rw [hull_cons, join_join_eq_iff, ih, List.forall_mem_cons]

theorem hull_congr (h : ∀ s, s ∈ xs ↔ s ∈ ys) : hull xs = hull ys := by
  have hbelow : ∀ {xs ys : List Span}, (∀ s ∈ xs, s ∈ ys) → (hull xs).join (hull ys) = hull ys :=
    fun hsub => join_hull_eq_iff.2 fun s hs => join_hull_eq_iff.1 (join_self _) s (hsub s hs)
  rw [← hbelow fun s hs => (h s).1 hs, join_comm]
  exact (hbelow fun s hs => (h s).2 hs).symm

/-! ## Order -/

theorem order_eq_lt_iff : s.order t = .lt ↔
    s.lo.toNat < t.lo.toNat ∨ s.lo.toNat = t.lo.toNat ∧ s.hi.toNat < t.hi.toNat := by
  rw [order, Ordering.then_eq_lt, Std.compare_eq_lt, Std.compare_eq_lt, Std.compare_eq_iff_eq,
    UInt32.lt_iff_toNat_lt, UInt32.lt_iff_toNat_lt, UInt32.toNat_inj]

theorem order_eq_eq_iff : s.order t = .eq ↔ s = t := by
  rw [order, Ordering.then_eq_eq, Std.compare_eq_iff_eq, Std.compare_eq_iff_eq, ext_iff]

theorem order_swap (s t : Span) : (s.order t).swap = t.order s := by
  rw [order, Ordering.swap_then, ← Std.OrientedOrd.eq_swap, ← Std.OrientedOrd.eq_swap, order]

theorem isLE_order_iff : (s.order t).isLE ↔
    s.lo.toNat < t.lo.toNat ∨ s.lo.toNat = t.lo.toNat ∧ s.hi.toNat ≤ t.hi.toNat := by
  rw [Ordering.isLE_iff_eq_lt_or_eq_eq, order_eq_lt_iff, order_eq_eq_iff, toNat_ext_iff]
  omega

/-- Spans compare like keys if the smaller span has the smaller key. -/
theorem order_eq_compare {α : Type} [LinearOrder α] (key : Span → α)
    (hkey : ∀ s t, s.order t = .lt ↔ key s < key t) (s t : Span) :
    s.order t = compare (key s) (key t) := by
  cases h : s.order t with
  | lt => exact (compare_lt_iff_lt.2 ((hkey s t).1 h)).symm
  | eq => rw [order_eq_eq_iff.1 h, compare_eq_iff_eq.2 rfl]
  | gt =>
    rw [← order_swap, Ordering.swap_eq_gt, hkey] at h
    exact (compare_gt_iff_gt.2 h).symm

/-- Packed with the start in the high half, spans compare like words. -/
theorem order_eq_compare_pack (s t : Span) :
    s.order t = compare (pack s.hi s.lo).toNat (pack t.hi t.lo).toNat := by
  refine order_eq_compare (fun s => (pack s.hi s.lo).toNat) (fun s t => ?_) s t
  have hs := s.hi.toNat_lt
  have ht := t.hi.toNat_lt
  rw [order_eq_lt_iff, toNat_pack, toNat_pack]
  omega

/-! ## The laws -/

/-- What spans promise: they are built from their ends, which are packed without loss, they form a
semilattice under joining, and they are in total order. -/
structure Laws : Prop where
  /-- The ends may be given in either order. -/
  ends : ∀ a b, (ofEnds a b).lo = min a b ∧ (ofEnds a b).hi = max a b
  lo_le_hi : ∀ a b, (ofEnds a b).lo ≤ (ofEnds a b).hi
  /-- All spans are built so. -/
  ofEnds_ends : ∀ s : Span, ofEnds s.lo s.hi = s
  /-- Any two positions can be read back from a word. -/
  unpack_pack : ∀ a b, (pack a b).toUInt32 = a ∧ (pack a b >>> 32).toUInt32 = b
  /-- A word holds nothing else. -/
  pack_unpack : ∀ word : UInt64, pack word.toUInt32 (word >>> 32).toUInt32 = word
  ext_iff : ∀ s t : Span, s = t ↔ s.lo = t.lo ∧ s.hi = t.hi
  assoc : ∀ s t u : Span, (s.join t).join u = s.join (t.join u)
  comm : ∀ s t : Span, s.join t = t.join s
  self : ∀ s : Span, s.join s = s
  identity : ∀ s : Span, dummy.join s = s ∧ s.join dummy = s
  /-- The union of two spans with source text has source text, and is the smallest span that covers
  both. -/
  least : ∀ s t : Span, s ≠ dummy → t ≠ dummy → s.join t ≠ dummy ∧ (s.join t).Covers s ∧
    (s.join t).Covers t ∧ ∀ u : Span, u.Covers s → u.Covers t → u.Covers (s.join t)
  /-- A hull depends neither on the order nor on how often a span is listed. -/
  hull : ∀ xs ys : List Span, (∀ s, s ∈ xs ↔ s ∈ ys) → xs.foldl join dummy = ys.foldl join dummy
  /-- The order is that of the pairs of start and end. -/
  lexicographic : ∀ s t : Span,
    s.order t = compare (toLex (s.lo.toNat, s.hi.toNat)) (toLex (t.lo.toNat, t.hi.toNat))
  /-- It is the order of the packed words when their halves are exchanged. -/
  exchanged : ∀ s t : Span, s.order t = compare (pack s.hi s.lo).toNat (pack t.hi t.lo).toNat
  eq_iff : ∀ s t : Span, s.order t = .eq ↔ s = t
  swap : ∀ s t : Span, (s.order t).swap = t.order s
  trans : ∀ s t u : Span, (s.order t).isLE → (t.order u).isLE → (s.order u).isLE

theorem spanLaws : Laws where
  ends a b := ⟨lo_ofEnds a b, hi_ofEnds a b⟩
  lo_le_hi a b := (ofEnds a b).lo_le_hi
  ofEnds_ends := ofEnds_lo_hi
  unpack_pack a b := ⟨pack_low a b, pack_high a b⟩
  pack_unpack := pack_unpack
  ext_iff _ _ := ext_iff
  assoc := join_assoc
  comm := join_comm
  self := join_self
  identity s := ⟨dummy_join s, join_dummy s⟩
  least s t hs ht := by
    simp only [← isDummy_eq_false_iff] at hs ht ⊢
    refine ⟨?_, join_covers_left hs, join_covers_right ht, fun _ => .join⟩
    rw [isDummy_join, hs, Bool.false_and]
  hull _ _ := hull_congr
  lexicographic := order_eq_compare (fun s => toLex (s.lo.toNat, s.hi.toNat)) fun _ _ => by
    rw [order_eq_lt_iff, Prod.Lex.toLex_lt_toLex]
  exchanged := order_eq_compare_pack
  eq_iff _ _ := order_eq_eq_iff
  swap := order_swap
  trans s t u hst htu := by
    rw [isLE_order_iff] at hst htu ⊢
    omega

end Span

end MipsBackend
