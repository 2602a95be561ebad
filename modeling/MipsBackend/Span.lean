/-!
# Source spans

A span is a half-open byte range of the source text.  Both ends are packed into one word, the start
in the low half and the end in the high half, and a span is only ever built with its ends in order.
The range `0..0` is the dummy span: it marks what has no source text.

`lo_ofEnds` and `hi_ofEnds` say what is read back from a packed span, and `ofEnds_lo_hi` that
nothing else is stored.
-/

namespace MipsBackend

/-- A byte range `lo..hi` of the source text. -/
structure Span where
  /-- The start in the low half and the end in the high half. -/
  packed : UInt64
  /-- The start does not lie after the end. -/
  ordered : packed.toUInt32 ≤ (packed >>> 32).toUInt32
deriving DecidableEq

namespace Span

/-- The word with `lo` in its low half and `hi` in its high half. -/
def pack (lo hi : UInt32) : UInt64 :=
  lo.toUInt64 ||| hi.toUInt64 <<< 32

theorem pack_low (lo hi : UInt32) : (pack lo hi).toUInt32 = lo := by
  apply UInt32.toBitVec_inj.1
  ext i hi
  simp [pack]

theorem pack_high (lo hi : UInt32) : (pack lo hi >>> 32).toUInt32 = hi := by
  apply UInt32.toBitVec_inj.1
  ext i h
  have h₁ : i < 64 := by omega
  have h₂ : 32 + i < 64 := by omega
  simp [pack, h₁, h₂, BitVec.getLsbD_eq_getElem h]

/-- A word of 64 bits is the union of its two halves. -/
theorem halves_union (v : BitVec 64) :
    (v.setWidth 32).setWidth 64 ||| ((v >>> 32).setWidth 32).setWidth 64 <<< 32 = v := by
  ext i h
  simp only [BitVec.getElem_or, BitVec.getElem_setWidth, BitVec.getElem_shiftLeft,
    BitVec.getLsbD_setWidth, BitVec.getLsbD_ushiftRight]
  by_cases low : i < 32
  · simp [low, BitVec.getLsbD_eq_getElem h]
  · have h₁ : i - 32 < 32 := by omega
    have h₂ : 32 + (i - 32) = i := by omega
    simp [low, h₁, h₂, BitVec.getLsbD_eq_getElem h]

theorem pack_unpack (word : UInt64) :
    pack word.toUInt32 (word >>> 32).toUInt32 = word :=
  UInt64.eq_of_toBitVec_eq (halves_union word.toBitVec)

/-- The position of the first byte. -/
def lo (s : Span) : UInt32 :=
  s.packed.toUInt32

/-- The position after the last byte. -/
def hi (s : Span) : UInt32 :=
  (s.packed >>> 32).toUInt32

/-- The span between two positions, given in either order. -/
def ofEnds (a b : UInt32) : Span :=
  if h : a ≤ b then ⟨pack a b, by rwa [pack_low, pack_high]⟩
  else ⟨pack b a, by
    rw [pack_low, pack_high]
    exact UInt32.le_of_lt (UInt32.not_le.1 h)⟩

theorem lo_ofEnds (a b : UInt32) : (ofEnds a b).lo = if a ≤ b then a else b := by
  unfold ofEnds lo
  split <;> simp [pack_low]

theorem hi_ofEnds (a b : UInt32) : (ofEnds a b).hi = if a ≤ b then b else a := by
  unfold ofEnds hi
  split <;> simp [pack_high]

theorem lo_le_hi (s : Span) : s.lo ≤ s.hi :=
  s.ordered

theorem ofEnds_lo_hi (s : Span) : ofEnds s.lo s.hi = s := by
  obtain ⟨word, ordered⟩ := s
  simp [ofEnds, lo, hi, ordered, pack_unpack]

/-- The span of what has no source text. -/
def dummy : Span :=
  ofEnds 0 0

instance : Inhabited Span :=
  ⟨dummy⟩

/-- Whether this is the dummy span. -/
def isDummy (s : Span) : Bool :=
  s == dummy

/-- The smallest span that covers both; a dummy span covers nothing. -/
def join (s t : Span) : Span :=
  if s.isDummy then t
  else if t.isDummy then s
  else ofEnds (min s.lo t.lo) (max s.hi t.hi)

/-- The span that covers a whole list. -/
def hull (spans : List Span) : Span :=
  spans.foldl join dummy

/-- Spans are ordered by their start, then by their end. -/
def order (s t : Span) : Ordering :=
  (compare s.lo t.lo).then (compare s.hi t.hi)

instance : Ord Span :=
  ⟨order⟩

/-- Spans in order, equal ones as they were. -/
def sort (spans : List Span) : List Span :=
  spans.mergeSort fun s t => (s.order t).isLE

/-- The text `lo..hi`. -/
def text (s : Span) : String :=
  toString s.lo.toNat ++ ".." ++ toString s.hi.toNat

/-- The span spelled out, as in `Span(3..5)`. -/
def detail (s : Span) : String :=
  "Span(" ++ s.text ++ ")"

instance : ToString Span :=
  ⟨text⟩

end Span

end MipsBackend
