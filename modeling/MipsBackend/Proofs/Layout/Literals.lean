import MipsBackend.Proofs.Assembly.Strings
import MipsBackend.Proofs.Layout.References

/-!
# String literals in the data segment

The string literals stand at the end of the data segment, one block each: the words of an array
header, the label, the characters and padding.  `literalsHold_of_compute` says that each block
describes its literal and that its header starts on a word boundary.  The padding is what makes the
next block start on one (`keepsAligned_stringLiteral`), and what is before the first block consists
of words (`LaidOut.keepsAligned`).
-/

namespace MipsBackend

variable {p : Program} {L : Layout} {data code : Code} {e : ExprId} {text : String}

/-! ## Addresses -/

/-- The address behind a line of the data segment, if the line stands at the given one. -/
def Inst.addressAfter (address : Nat) : Inst → Nat
  | .word _ => address + 4
  | .ascii text => address + text.utf8ByteSize
  | .align n => (address + 2 ^ n - 1) / 2 ^ n * 2 ^ n
  | _ => address

/-- Lines that start on a word boundary end on one. -/
def KeepsAligned (insts : List Inst) : Prop :=
  ∀ address, 4 ∣ address → 4 ∣ insts.foldl Inst.addressAfter address

namespace KeepsAligned

variable {insts insts' : List Inst}

theorem nil : KeepsAligned [] :=
  fun _ haddress => haddress

theorem append (h : KeepsAligned insts) (h' : KeepsAligned insts') :
    KeepsAligned (insts ++ insts') := by
  intro address haddress
  rw [List.foldl_append]
  exact h' _ (h _ haddress)

theorem of_forall (h : ∀ inst ∈ insts, KeepsAligned [inst]) : KeepsAligned insts := by
  induction insts with
  | nil => exact .nil
  | cons inst insts ih =>
    rw [List.forall_mem_cons] at h
    exact h.1.append (ih h.2)

theorem word (w : DataWord) : KeepsAligned [.word w] := by
  intro address haddress
  simpa [Inst.addressAfter] using haddress

theorem label (l : Label) : KeepsAligned [.label l] :=
  fun _ haddress => haddress

/-- Padding ends on a word boundary, wherever it starts. -/
theorem append_align (insts : List Inst) : KeepsAligned (insts ++ [.align 2]) := by
  intro address _
  rw [List.foldl_append]
  exact Nat.dvd_mul_left _ _

theorem flatten {codes : List Code} (h : ∀ code ∈ codes, KeepsAligned code.insts) :
    KeepsAligned (Code.insts codes.flatten) := by
  induction codes with
  | nil => exact .nil
  | cons code codes ih =>
    rw [List.forall_mem_cons] at h
    rw [List.flatten_cons, Code.insts_append]
    exact h.1.append (ih h.2)

end KeepsAligned

namespace Layout

theorem keepsAligned_recordBody {superclass : Option ClassId} {cl : ClassLayout} {body : List Inst}
    (h : recordBody p superclass cl = .ok body) : KeepsAligned body := by
  obtain ⟨superWord, table, rfl, _, htable⟩ := recordBody_eq_ok h
  refine .of_forall fun inst hinst => ?_
  rcases List.mem_cons.1 hinst with rfl | hinst
  · exact .word superWord
  · obtain ⟨_, _, label, _, rfl⟩ := exists_of_mem_forall₂ htable hinst
    exact .word _

theorem keepsAligned_arrayRecords {superclass : Option ClassId} {cl : ClassLayout}
    {arrays : List Inst} (h : arrayRecords p superclass cl = .ok arrays) :
    KeepsAligned arrays := by
  obtain ⟨body, hbody, harrays⟩ := bind_eq_ok_iff.1 h
  obtain rfl := pure_eq_ok_iff.1 harrays
  have hbody := keepsAligned_recordBody hbody
  have hrecord : ∀ name,
      KeepsAligned (.label (.classStart name) :: body ++ [.label (.classEnd name)]) :=
    fun name => ((KeepsAligned.label _).append hbody).append (.label _)
  simpa using (hrecord scalarArrayRecord).append (hrecord referenceArrayRecord)

/-- Class records consist of words. -/
theorem LaidOut.keepsAligned {tree : ClassTree} {inherited : ClassLayout}
    (h : LaidOut p L inherited tree code) : KeepsAligned code.insts := by
  induction tree generalizing inherited code with
  | broken id fault => exact h.elim
  | node id decl subclasses ih =>
    have hall : ∀ {cl : ClassLayout} {code : Code}, LaidOutAll p L cl subclasses code →
        KeepsAligned code.insts := by
      clear h
      intro cl code h
      induction subclasses generalizing code with
      | nil =>
        obtain rfl := h
        exact .nil
      | cons tree trees ihs =>
        obtain ⟨first, rest, hfirst, hrest, rfl⟩ := h
        rw [Code.insts_append]
        exact (ih tree List.mem_cons_self hfirst).append
          (ihs (fun t ht => ih t (List.mem_cons_of_mem tree ht)) hrest)
    obtain ⟨cl, body, descendants, arrays, _, hbody, hdescendants, harrays, rfl⟩ := h
    have harrays : KeepsAligned arrays := by
      split at harrays
      · exact keepsAligned_arrayRecords harrays
      · obtain rfl := Except.ok.inj harrays
        exact .nil
    rw [Code.insts_append, Code.insts_append, Code.insts_of, Code.insts_of]
    exact (((KeepsAligned.label _).append (keepsAligned_recordBody hbody)).append
      (hall hdescendants)).append (harrays.append (.label _))

/-! ## Blocks -/

/-- The block of a literal. -/
def literalBlock (record : String) (e : ExprId) (text : String) : List Inst := [
  .word (.label (.classStart record)),
  .word (.int (-((text.utf8ByteSize + 3) / 4 : Nat))),
  .word (.int text.utf8ByteSize),
  .label (.strLit e),
  .ascii text,
  .align 2]

/-- No length of a literal is too long for a word. -/
theorem stringLiteral_eq_block {record : String} {insts : List Inst}
    (h : stringLiteral record e text = .ok insts) (hsize : text.utf8ByteSize < 2 ^ 31 - 3) :
    insts = literalBlock record e text := by
  have hlength : (Int32.ofNat text.utf8ByteSize).toInt = text.utf8ByteSize :=
    Int32.toInt_ofNat_of_lt (by omega)
  have hwords : ((text.utf8ByteSize : Int) + wordSize - 1).tdiv wordSize =
      ((text.utf8ByteSize + 3) / 4 : Nat) := by
    rw [Int.tdiv_eq_ediv_of_nonneg (by simp only [wordSize]; omega)]
    simp only [wordSize]
    omega
  obtain ⟨_, rfl⟩ := stringLiteral_eq_ok_iff.1 h
  rw [hlength, hwords, literalBlock]

theorem keepsAligned_stringLiteral {record : String} {insts : List Inst}
    (h : stringLiteral record e text = .ok insts) : KeepsAligned insts := by
  obtain ⟨_, rfl⟩ := stringLiteral_eq_ok_iff.1 h
  exact KeepsAligned.append_align [_, _, _, _, _]

/-- The literal has a block behind whole words, and its printed characters read back as its
bytes. -/
structure HoldsLiteral (p : Program) (data : Code) (e : ExprId) (text : String) : Prop where
  exists_block : ∃ before after record, IsLiteralRecord p record ∧
    data.insts = before ++ literalBlock record e text ++ after ∧ KeepsAligned before
  printed : ∃ body, (Inst.ascii text).text = ".ascii \"" ++ body ++ "\"" ∧
    Inst.Quotes body text.toUTF8.data.toList

end Layout

/-- The literal that a label stands for. -/
def Label.literal? : Label → Option ExprId
  | .strLit e => some e
  | _ => none

namespace Layout

/-- The data segment has a block for each string literal, in order. -/
structure LiteralsHold (p : Program) (data : Code) : Prop where
  holds : ∀ e expr text, p.exprAt e = .ok expr → expr.kind = .str text →
    text.utf8ByteSize < 2 ^ 31 - 3 → HoldsLiteral p data e text
  /-- Positions are 32-bit words, so that different literals have different labels. -/
  once : p.exprs.size ≤ 2 ^ 32 → ∀ e expr text, p.exprAt e = .ok expr → expr.kind = .str text →
    data.labels.count (.strLit e) = 1
  ordered : p.exprs.size ≤ 2 ^ 32 →
    (data.labels.filterMap Label.literal?).Pairwise fun e e' => e.toNat < e'.toNat

/-- Class records are words and labels, none of which is a literal's. -/
theorem Complete.exists_records (h : Complete p L data) : ∃ records literals,
    stringLiterals p = .ok literals ∧ data = records ++ literals ∧ KeepsAligned records.insts ∧
      ∃ names, records.LabelsData names [] := by
  obtain ⟨records, literals, hliterals, rfl, hrecords⟩ := h.exists_code
  have hsegment : (Code.of .dummy [.segment .data]).LabelsData [] [] := by
    intro l
    cases l <;> rfl
  have haligned : KeepsAligned [.segment .data] := fun _ haddress => haddress
  refine ⟨_, literals, hliterals, rfl, ?_⟩
  rw [Code.insts_append, Code.insts_of]
  obtain ⟨root, _, _, hlaid⟩ | ⟨arrays, _, _, harrays, rfl⟩ := hrecords
  · exact ⟨haligned.append hlaid.keepsAligned, _, hsegment.append hlaid.labelsData⟩
  · rw [Code.insts_of]
    exact ⟨haligned.append (keepsAligned_arrayRecords harrays), _,
      hsegment.append (labelsData_arrayRecords harrays)⟩

/-- Each literal has its block. -/
theorem Complete.holdsLiteral (h : Complete p L data) {expr : Expr}
    (hmem : (e, expr, text) ∈ p.stringLiterals) (hsize : text.utf8ByteSize < 2 ^ 31 - 3) :
    HoldsLiteral p data e text := by
  obtain ⟨records, literals, hliterals, rfl, haligned, _⟩ := h.exists_records
  obtain ⟨record, codes, hrecord, hcodes, rfl⟩ := stringLiterals_eq_ok hliterals
  obtain ⟨code, hcode, insts, rfl, hinsts⟩ := exists_of_mem_forall₂ hcodes.flip hmem
  have hblocks : ∀ code ∈ codes, KeepsAligned code.insts := by
    intro code hcode
    obtain ⟨_, _, insts, rfl, hinsts⟩ := exists_of_mem_forall₂ hcodes hcode
    rw [Code.insts_of]
    exact keepsAligned_stringLiteral hinsts
  obtain ⟨before, after, rfl⟩ := List.append_of_mem hcode
  obtain rfl := stringLiteral_eq_block hinsts hsize
  rw [List.forall_mem_append] at hblocks
  refine ⟨⟨records.insts ++ Code.insts before.flatten, Code.insts after.flatten, record, hrecord,
    ?_, haligned.append (.flatten hblocks.1)⟩, _, Inst.text_ascii text, Inst.quotes_asciiText text⟩
  simp [Code.insts_append]

/-- The data segment has the literals of the program. -/
theorem literalsHold_of_compute (h : compute p = .ok (L, data)) : LiteralsHold p data := by
  have hcomplete := compute_eq_ok h
  obtain ⟨records, literals, hliterals, hdata, _, names, hrecords⟩ := hcomplete.exists_records
  have hlabels : data.LabelsData (names ++ []) ([] ++ p.stringLiterals.map Prod.fst) :=
    hdata ▸ hrecords.append (labelsData_stringLiterals hliterals)
  refine ⟨fun e expr text he hkind => hcomplete.holdsLiteral (Program.mem_stringLiterals he hkind),
    fun fits e expr text he hkind => ?_, fun fits => ?_⟩
  · rw [hlabels]
    exact List.count_eq_one_of_mem (Program.nodup_stringLiterals fits)
      (List.mem_map_of_mem (Program.mem_stringLiterals he hkind))
  · have hnone : records.labels.filterMap Label.literal? = [] := by
      refine List.filterMap_eq_nil_iff.2 fun l hl => ?_
      have hpos := List.count_pos_iff.2 hl
      rw [hrecords l] at hpos
      cases l <;> first | rfl | simp at hpos
    rw [hdata, Code.labels_append, List.filterMap_append, hnone, labels_stringLiterals hliterals,
      List.nil_append, List.filterMap_map]
    simpa [Function.comp_def, Label.literal?] using Program.pairwise_stringLiterals fits

/-- Two literals in a program without classes.  One has every kind of escape, and a digit behind an
octal one. -/
def greetings : Program where
  exprs := #[⟨.dummy, .null, .null⟩, ⟨.dummy, .array .int, .str "say \"hi\"\n\\é7"⟩,
    ⟨.dummy, .array .int, .str ""⟩]

theorem literalsHold_greetings : ∃ L data, compute greetings = .ok (L, data) ∧
    LiteralsHold greetings data ∧ HoldsLiteral greetings data ⟨1⟩ "say \"hi\"\n\\é7" := by
  obtain ⟨⟨L, data⟩, h⟩ := exists_eq_ok_of_isSome
    (show (compute greetings).toOption.isSome by decide +kernel)
  have hold := literalsHold_of_compute h
  exact ⟨L, data, h, hold, hold.holds ⟨1⟩ _ _ rfl rfl (by decide)⟩

end Layout

end MipsBackend
