import MipsBackend.Proofs.Closure
import MipsBackend.Proofs.Code.Peaks
import MipsBackend.Proofs.Collection.Expressions

/-!
# Values at collection points

Wherever the code of a word-typed expression leaves for a routine of the runtime library or a
method, the words that it has pushed are the values of the operands that are pending there, and in
the end they are the value of the expression (`ExprTree.representsValues_of_code`).  This is what is
to hold in a run, and by the previous module it does if the library and the methods keep to their
contracts.
-/

namespace MipsBackend

open Gen ExprTree

variable {p : Program} {l : Layout} {f f' : Frame} {code : Code}

/-! ## The marker -/

/-- No instruction of the code writes `$s5`. -/
def Code.KeepsMarker (code : Code) : Prop :=
  ∀ inst ∈ code.insts, inst.written? ≠ some .s5

theorem Code.RefersTo.keepsMarker {known : Label → Prop} (h : code.RefersTo known) :
    code.KeepsMarker :=
  fun inst hinst => (h inst hinst).2

/-- Where any label will do, all that is linked to is known. -/
theorem Links.of_forall {known : Label → Prop} (h : ∀ label, known label)
    (literals : List ExprId) (callees : List MethodId) : Links p known literals callees :=
  ⟨fun _ => h _, fun _ => ⟨h _, h _⟩, fun _ _ => h _, fun _ _ _ _ => h _⟩

/-- None of the lines that a program is compiled to writes `$s5`. -/
theorem Program.keepsMarker_of_output {o : Options} {L : Layout}
    (h : p.output o = .ok (L, code)) : code.KeepsMarker := by
  have hdata : ∀ {data : Code}, Layout.compute p = .ok (L, data) → data.KeepsMarker := by
    intro data hcompute
    have hrefers : data.RefersTo fun _ => True :=
      (Layout.compute_eq_ok hcompute).refersTo_data (fun _ => trivial) trivial
        fun _ _ _ _ _ => trivial
    exact hrefers.keepsMarker
  by_cases hrun : o.runCodegen
  · obtain ⟨data, bodies, codes, hcompute, _, hcodes, rfl⟩ := output_eq_ok hrun h
    have hrefers : Code.RefersTo codes.flatten fun _ => True := by
      refine Code.refersTo_flatten fun code hcode => ?_
      obtain ⟨b, _, hbody⟩ := exists_of_mem_forall₂ hcodes hcode
      exact Body.refersTo_code hbody (.of_forall (fun _ => trivial) _ _) fun _ _ => trivial
    intro inst hinst
    rw [Code.insts_append, List.mem_append] at hinst
    rcases hinst with hinst | hinst
    · exact hdata hcompute inst hinst
    · exact hrefers.keepsMarker inst hinst
  · simp only [output, hrun, bind_eq_ok_iff] at h
    obtain ⟨⟨L', data⟩, hcompute, h⟩ := h
    obtain ⟨rfl, rfl⟩ := Prod.mk.inj (pure_eq_ok_iff.1 h)
    exact hdata hcompute

/-! ## Expressions on their own -/

/-- What holds of the stack in the runs of an executable from machine `m`: the points are all its
calls, the values of the pending operands are on the stack there, and in the end the value of type
`ty` is. -/
structure Executable.RepresentsValues (exe : Executable) (p : Program)
    (methods : Nat → Machine → Machine → Prop) (points : List CallPoint) (ty : Ty)
    (m : Machine) : Prop where
  listed {j : Nat} {inst : Inst} : exe.code.insts[j]? = some inst → inst.leaves →
    ∃ c ∈ points, c.line = j ∧ inst.Calls p c.callee
  pending {c : CallPoint} {m' : Machine} : c ∈ points →
    exe.Reaches methods (.line 0 m) (.line c.line m') → m'.HoldsValues (m.reg .sp) c.pending
  result {m' : Machine} : exe.Reaches methods (.line 0 m) (.line exe.code.length m') →
    m'.HoldsValues (m.reg .sp) [ty]
  marker {j : Nat} {m' : Machine} : exe.Reaches methods (.line 0 m) (.line j m') →
    m'.reg .s5 = m.reg .s5

theorem Executable.getElem?_length (exe : Executable) :
    exe.code.insts[exe.code.length]? = none := by
  simp [Code.insts]

/-- Code defines labels of its nodes only. -/
theorem Code.LabelledBy.lineOf_eq_none {exe : Executable} {nodes : List Node} {label : Label}
    (h : exe.code.LabelledBy nodes) (hlabel : label.node? = none) : exe.lineOf label = none := by
  refine List.findIdx?_eq_none_iff.2 fun inst hinst => ?_
  rw [beq_eq_false_iff_ne]
  rintro rfl
  have hmem : label ∈ exe.code.labels := List.mem_filterMap.2 ⟨_, hinst, rfl⟩
  have hcount := Nat.lt_of_lt_of_le (List.count_pos_iff.2 hmem) (h label)
  simp [hlabel] at hcount

/-- The watch over a run from machine `m`: wherever control gets, `$s5` is what it was, and at the
points and in the end the values are on the stack. -/
def Executable.watch (exe : Executable) (methods : Nat → Machine → Machine → Prop)
    (points : List CallPoint) (ty : Ty) (m : Machine) (top : Nat) : Watch where
  exe := exe
  methods := methods
  good j m' := m'.reg .s5 = m.reg .s5 ∧
    (∀ c ∈ points, c.line = j → m'.HoldsValues (m.reg .sp) c.pending) ∧
    (j = exe.code.length → m'.HoldsValues (m.reg .sp) [ty])
  base := m.reg .sp
  marker := m.reg .s5
  top := top

/-- Since the start nothing was pushed but the values. -/
theorem Machine.HasSlots.holdsValues_of_base {m : Machine} {base marker : Word} {tys : List Ty}
    (h : m.HasSlots base marker (slotsAll tys)) : m.HoldsValues base tys := by
  have hbase : m.reg .sp + .ofInt (tys.map Ty.stackBytes).sum = base := by
    rw [h.sp, ← length_slotsAll]
    abel
  rw [← List.append_nil (slotsAll tys)] at h
  rw [← hbase]
  exact h.holdsValues

section Watched

variable {exe : Executable} {methods : Nat → Machine → Machine → Prop} {points : List CallPoint}
  {ty : Ty} {m m' : Machine} {top : Nat}

theorem Watch.sound_watch {nodes : List Node} (hcalls : exe.code.HasCalls p 0 points)
    (hlabels : exe.code.LabelledBy nodes) (hnodes : nodes.Nodup)
    (hruntime : exe.runtime.LeavesValues top) (htop : (m.reg .sp).toNat ≤ top) :
    (exe.watch methods points ty m top).Sound where
  nodup := hlabels.nodup hnodes
  outside := hlabels.lineOf_eq_none
  plain {j inst m'} hinst hplain hmarker := by
    refine ⟨hmarker, fun c hc hline => ?_, fun hend => ?_⟩
    · obtain ⟨k, inst', hk, hinst', hleaves⟩ := hcalls.exists_calls hc
      obtain rfl : j = k := by omega
      obtain rfl := Option.some.inj (hinst.symm.trans hinst')
      rw [hleaves.leaves] at hplain
      cases hplain
    · rw [hend] at hinst
      cases hinst.symm.trans exe.getElem?_length
  base_le := htop
  runtime := hruntime

theorem Watch.meets_watch (hcalls : exe.code.HasCalls p 0 points)
    (hmethods : ∀ c ∈ points, ∀ id decl, c.callee = .method id → p.methodAt id = .ok decl →
      ∀ m m', methods c.line m m' → decl.LeavesResult p top m m') :
    ∀ c ∈ points, (exe.watch methods points ty m top).Meets p 0 [] c := by
  intro c hc
  refine ⟨fun {m'} hm' => ⟨hm'.s5, fun c' hc' hline => ?_, fun hend => ?_⟩,
    fun hcallee hdecl hmethod => ?_⟩
  · obtain rfl := hcalls.eq_of_line_eq hc' hc (by omega)
    rw [List.append_nil] at hm'
    exact hm'.holdsValues_of_base
  · obtain ⟨j, inst, hj, hinst, _⟩ := hcalls.exists_calls hc
    obtain rfl : j = exe.code.length := by omega
    cases hinst.symm.trans exe.getElem?_length
  · rw [Nat.zero_add] at hmethod
    exact hmethods c hc _ _ hcallee hdecl _ _ hmethod

/-- The end of the code is no point, and nothing comes behind it. -/
theorem Watch.safe_end (hcalls : exe.code.HasCalls p 0 points)
    (hm' : m'.HasSlots (m.reg .sp) (m.reg .s5) ty.slots) :
    (exe.watch methods points ty m top).Safe (.line exe.code.length m') := by
  refine safe_of_advances ⟨hm'.s5, fun c hc hline => ?_, fun _ => ?_⟩ fun c hadvances => ?_
  · obtain ⟨j, inst, hj, hinst, _⟩ := hcalls.exists_calls hc
    obtain rfl : j = exe.code.length := by omega
    cases hinst.symm.trans exe.getElem?_length
  · exact Machine.HasSlots.holdsValues_of_base hm'
  · cases hadvances with
    | step hstep => cases hstep.symm.trans Executable.step_end
    | method hinst => cases hinst.symm.trans exe.getElem?_length

/-- Wherever the code of a word-typed expression leads to, all is good. -/
theorem Watch.safe_code {e : ExprTree} (h : (e.code p l).run f = .ok (exe.code, f'))
    (htyped : e.isWordTyped p) (hnodes : e.nodes.Nodup) (hruntime : exe.runtime.LeavesValues top)
    (hmethods : ∀ c ∈ e.calls p l f, ∀ id decl, c.callee = .method id →
      p.methodAt id = .ok decl → ∀ m m', methods c.line m m' → decl.LeavesResult p top m m')
    (hroom : e.peak ≤ (m.reg .sp).toNat) (htop : (m.reg .sp).toNat ≤ top) :
    (exe.watch methods (e.calls p l f) e.ty m top).Safe (.line 0 m) := by
  have hcalls := hasCalls_code h
  have hw : (exe.watch methods (e.calls p l f) e.ty m top).Sound :=
    sound_watch hcalls (labelledBy_code h) hnodes hruntime htop
  have hspace : e.peak + ([] : List Slot).length * wordSize ≤ (m.reg .sp).toNat := by
    simpa using hroom
  refine pushes_of_isWordTyped hw htyped h hspace (meets_watch hcalls hmethods) exe.hasAt_self
    (fun m' hm' => ?_) m ⟨by simp, by simp [Executable.watch], rfl, by simp⟩
  rw [List.append_nil] at hm'
  rw [Nat.zero_add]
  exact safe_end hcalls hm'

end Watched

namespace ExprTree

variable {e : ExprTree}

/-- The code of a word-typed expression keeps the operand stack such that a collector can read it.
The library and the methods must keep to their contracts, and there must be room for what the code
pushes. -/
theorem representsValues_of_code {image : Image} {runtime : Runtime}
    {methods : Nat → Machine → Machine → Prop} {m : Machine} {top : Nat}
    (h : (e.code p l).run f = .ok (code, f')) (htyped : e.isWordTyped p)
    (hnodes : e.nodes.Nodup) (hruntime : runtime.LeavesValues top)
    (hmethods : ∀ c ∈ e.calls p l f, ∀ id decl, c.callee = .method id →
      p.methodAt id = .ok decl → ∀ m m', methods c.line m m' → decl.LeavesResult p top m m')
    (hroom : e.peak ≤ (m.reg .sp).toNat) (htop : (m.reg .sp).toNat ≤ top) :
    Executable.RepresentsValues ⟨code, image, runtime⟩ p methods (e.calls p l f) e.ty m ∧
      code.KeepsMarker ∧ ∀ o L out, p.output o = .ok (L, out) → out.KeepsMarker := by
  have hcalls := hasCalls_code h
  have hsafe : (Executable.watch ⟨code, image, runtime⟩ methods (e.calls p l f) e.ty m top).Safe
      (.line 0 m) := Watch.safe_code h htyped hnodes hruntime hmethods hroom htop
  refine ⟨⟨fun hinst hleaves => ?_, fun {c m'} hc hreaches => ?_, fun {m'} hreaches => ?_,
    fun {j m'} hreaches => ?_⟩, ?_, fun o L out => Program.keepsMarker_of_output⟩
  · simpa using hcalls.exists_of_leaves hinst hleaves
  · exact (hsafe _ m' hreaches).2.1 c hc rfl
  · exact (hsafe _ m' hreaches).2.2 rfl
  · exact (hsafe j m' hreaches).1
  · exact (refersTo_code h (.of_forall (fun _ => trivial) _ _) fun _ _ => trivial).keepsMarker

/-- What `new Square().scale(5, null)` is in seven. -/
def scaledQuotient : ExprTree :=
  .binary ⟨⟨22⟩, .dummy, .int⟩ .div (fun _ => shapes.exprTree ⟨16⟩) (fun _ => shapes.exprTree ⟨18⟩)

/-- A method that takes a receiver, a scalar and a reference and returns two. -/
def returnsTwo (m : Machine) : Machine :=
  ((m.set .sp (m.reg .sp + 8)).store (m.reg .sp + 8) 2).store (m.reg .sp + 12) (m.reg .s5)

theorem leavesResult_returnsTwo {decl : MethodDecl} (hdecl : shapes.methodAt ⟨2⟩ = .ok decl)
    (m : Machine) (top : Nat) : decl.LeavesResult shapes top m (returnsTwo m) := by
  obtain rfl := Except.ok.inj hdecl
  have htag : m.reg .sp + 8 + .ofInt wordSize = m.reg .sp + 12 := by
    rw [Word.ofInt_wordSize]
    bv_omega
  have hsp : (returnsTwo m).reg .sp = m.reg .sp + 8 := by simp [returnsTwo]
  refine fun _ => ⟨?_, by simp [returnsTwo], fun _ => ?_, fun {a} ha _ hmarked => ?_⟩
  · rw [hsp]
    rfl
  · rw [hsp, htag, returnsTwo, Machine.mem_store_self]
  · have hbytes : (m.reg .sp).toNat + 16 ≤ a.toNat := Int.ofNat_le.1 ha
    have hdata : a ≠ m.reg .sp + 8 := by bv_omega
    have htag' : a ≠ m.reg .sp + 12 := by bv_omega
    rw [returnsTwo, Machine.mem_store_of_ne _ _ _ _ htag', Machine.mem_store_of_ne _ _ _ _ hdata,
      Machine.mem_set, hmarked]

theorem representsValues_scaledQuotient : ∃ L data code f',
    Layout.compute shapes = .ok (L, data) ∧
    (scaledQuotient.code shapes L).run .empty = .ok (code, f') ∧
    Executable.RepresentsValues ⟨code, ⟨fun _ => 0, fun _ => 0⟩, Runtime.allocating 0x7fff0010⟩
      shapes (fun _ m m' => m' = returnsTwo m)
      [⟨6, .routine .newObject, [.int]⟩,
        ⟨16, .routine .nullPtrException, [.int, .object ⟨2⟩, .int, .null]⟩,
        ⟨19, .method ⟨2⟩, [.int, .object ⟨2⟩, .int, .null]⟩,
        ⟨20, .routine .divide, [.int, .int]⟩]
      .int ⟨fun _ => 0x7fff0000, 0, fun _ => 0⟩ := by
  have hpoints : (do
      let laid ← Layout.compute shapes
      let _ ← (scaledQuotient.code shapes laid.1).run .empty
      return scaledQuotient.calls shapes laid.1 .empty).toOption =
        some [⟨6, .routine .newObject, [.int]⟩,
          ⟨16, .routine .nullPtrException, [.int, .object ⟨2⟩, .int, .null]⟩,
          ⟨19, .method ⟨2⟩, [.int, .object ⟨2⟩, .int, .null]⟩,
          ⟨20, .routine .divide, [.int, .int]⟩] := by decide +kernel
  obtain ⟨points, hrun⟩ := exists_eq_ok_of_isSome (Option.isSome_of_eq_some hpoints)
  obtain rfl := Option.some.inj ((congrArg Except.toOption hrun).symm.trans hpoints)
  obtain ⟨⟨L, data⟩, hcompute, hrun⟩ := bind_eq_ok_iff.1 hrun
  obtain ⟨⟨code, f'⟩, hcode, hrun⟩ := bind_eq_ok_iff.1 hrun
  have hcalls := pure_eq_ok_iff.1 hrun
  refine ⟨L, data, code, f', hcompute, hcode, ?_⟩
  rw [hcalls]
  refine (representsValues_of_code hcode (by decide) (by decide) Runtime.leavesValues_allocating ?_
    (by decide) (by decide)).1
  intro c hc id decl hcallee hdecl m m' hm'
  rw [← hcalls] at hc
  have hid : id = ⟨2⟩ := by
    simp only [List.mem_cons, List.not_mem_nil, or_false] at hc
    rcases hc with rfl | rfl | rfl | rfl
    · cases hcallee
    · cases hcallee
    · exact (Callee.method.inj hcallee).symm
    · cases hcallee
  rw [hid] at hdecl
  rw [hm']
  exact leavesResult_returnsTwo hdecl m _

end ExprTree

end MipsBackend
