import MipsBackend.Proofs.Variables.Points

/-!
# Variables next to each other

Two things hold at every point of a word-typed method, and `Gen.Visits` keeps them together, since
both are passed on from part to part.  The local variables in scope lie next to each other without
gaps, from the base of the frame down to where the temporaries begin (`Point.Tiled`).  And a
variable never moves: what one point knows of its place, later points know as well.
-/

namespace MipsBackend

open Gen

variable {α β : Type} {p : Program} {l : Layout} {f f₁ f' g : Frame} {span : Span} {code : Code}
  {x : VarId} {scope : List VarId} {lo hi : Int}

namespace Gen

/-- The generator checks that a declared variable has an offset. -/
theorem declared_fits {u : Unit} (h : (declared x).run f = .ok (u, f')) :
    Offset.Fits (-f.height) := by
  simp only [declared, run_bind_eq_ok_iff, run_get_eq_ok_iff, run_liftM_eq_ok_iff,
    run_set_eq_ok_iff] at h
  obtain ⟨_, _, ⟨rfl, rfl⟩, _, _, ⟨hdeclare, rfl⟩, rfl⟩ := h
  simp only [Frame.declareLocal, bind_eq_ok_iff, Offset.neg, Offset.checked_eq_ok_iff] at hdeclare
  obtain ⟨_, ⟨hfits, _⟩, _⟩ := hdeclare
  exact hfits

end Gen

/-! ## Variables next to each other -/

namespace Frame

/-- The variables lie next to each other without gaps, the first at `lo` and the last up to `hi`. -/
def Tiles (f : Frame) (p : Program) (l : Layout) : List VarId → Int → Int → Prop
  | [], lo, hi => lo = hi
  | x :: xs, lo, hi =>
    f.stackOffset? p l x = some lo ∧ f.Tiles p l xs (lo + (p.varTy x).stackBytes) hi

/-- What a frame knows of the places of variables, another one knows, too. -/
def Keeps (f g : Frame) (p : Program) (l : Layout) : Prop :=
  ∀ x offset, f.stackOffset? p l x = some offset → g.stackOffset? p l x = some offset

theorem Keeps.refl (f : Frame) : f.Keeps f p l :=
  fun _ _ h => h

theorem Keeps.trans (h : f.Keeps f₁ p l) (h' : f₁.Keeps f' p l) : f.Keeps f' p l :=
  fun x offset hx => h' x offset (h x offset hx)

theorem Extends.keeps {declared : List VarId} {nodes : List Node}
    (h : f.Extends f' declared nodes) : f.Keeps f' p l :=
  fun _ _ => h.stackOffset?_eq

theorem Raises.keeps (h : f.Raises g) : f.Keeps g p l := by
  obtain ⟨height, _, rfl⟩ := h
  exact Keeps.refl f

theorem Raises.keeps_back (h : f.Raises g) : g.Keeps f p l := by
  obtain ⟨height, _, rfl⟩ := h
  exact Keeps.refl f

theorem Tiles.of_keeps {xs : List VarId} (h : f.Tiles p l xs lo hi) (hkeeps : f.Keeps g p l) :
    g.Tiles p l xs lo hi := by
  induction xs generalizing lo with
  | nil => exact h
  | cons x xs ih => exact ⟨hkeeps x lo h.1, ih h.2⟩

theorem Tiles.le {xs : List VarId} (h : f.Tiles p l xs lo hi) : lo ≤ hi := by
  induction xs generalizing lo with
  | nil => exact Int.le_of_eq h
  | cons x xs ih =>
    have hrest := ih h.2
    have hbytes := (p.varTy x).stackBytes_nonneg
    omega

/-- Each variable lies between the ends. -/
theorem Tiles.exists_place {xs : List VarId} (h : f.Tiles p l xs lo hi) (hx : x ∈ xs) :
    ∃ offset, f.stackOffset? p l x = some offset ∧ lo ≤ offset ∧
      offset + (p.varTy x).stackBytes ≤ hi := by
  induction xs generalizing lo with
  | nil => exact absurd hx List.not_mem_nil
  | cons y xs ih =>
    obtain ⟨hplace, hrest⟩ := h
    rcases List.mem_cons.1 hx with rfl | hx
    · exact ⟨lo, hplace, Int.le_refl lo, hrest.le⟩
    · obtain ⟨offset, hoffset, hle, hend⟩ := ih hrest hx
      have hbytes := (p.varTy y).stackBytes_nonneg
      exact ⟨offset, hoffset, by omega, hend⟩

/-- There is a variable wherever one looks. -/
theorem Tiles.exists_covering {xs : List VarId} {a : Int} (h : f.Tiles p l xs lo hi) (hlo : lo ≤ a)
    (hhi : a < hi) : ∃ x ∈ xs, ∃ offset, f.stackOffset? p l x = some offset ∧ offset ≤ a ∧
      a < offset + (p.varTy x).stackBytes := by
  induction xs generalizing lo with
  | nil =>
    have hend : lo = hi := h
    omega
  | cons x xs ih =>
    obtain ⟨hplace, hrest⟩ := h
    by_cases hfirst : a < lo + (p.varTy x).stackBytes
    · exact ⟨x, List.mem_cons_self, lo, hplace, hlo, hfirst⟩
    · obtain ⟨y, hy, hcovers⟩ := ih hrest (by omega)
      exact ⟨y, List.mem_cons_of_mem x hy, hcovers⟩

/-- Of two variables the first ends before the second begins. -/
theorem Tiles.pairwise {xs : List VarId} (h : f.Tiles p l xs lo hi) :
    xs.Pairwise fun x y => ∃ a b, f.stackOffset? p l x = some a ∧ f.stackOffset? p l y = some b ∧
      a + (p.varTy x).stackBytes ≤ b := by
  induction xs generalizing lo with
  | nil => exact .nil
  | cons x xs ih =>
    obtain ⟨hplace, hrest⟩ := h
    refine .cons (fun y hy => ?_) (ih hrest)
    obtain ⟨offset, hoffset, hle, _⟩ := hrest.exists_place hy
    exact ⟨lo, offset, hplace, hoffset, hle⟩

/-- All that is on the stack are the local variables in scope. -/
structure IsTiled (f : Frame) (p : Program) (l : Layout) (scope : List VarId) : Prop where
  tiles : f.Tiles p l scope (-f.height) 0
  fits : Offset.Fits (-f.height)

theorem isTiled_empty : Frame.empty.IsTiled p l [] :=
  ⟨rfl, by decide⟩

theorem IsTiled.of_keeps (h : f.IsTiled p l scope) (hkeeps : f.Keeps g p l)
    (hheight : g.height = f.height) : g.IsTiled p l scope := by
  refine ⟨?_, ?_⟩
  · rw [hheight]
    exact h.tiles.of_keeps hkeeps
  · rw [hheight]
    exact h.fits

end Frame

namespace Point

/-- The local variables in scope fill the stack down to some height, from which on there are
temporaries only. -/
def Tiled (P : Point) (p : Program) (l : Layout) : Prop :=
  ∃ bottom, P.frame.Tiles p l P.locals (-bottom) 0 ∧ Offset.Fits (-bottom) ∧
    bottom ≤ P.frame.height

theorem tiled_of_raises (hf : f.IsTiled p l scope) (h : f.Raises g) :
    (⟨g, scope⟩ : Point).Tiled p l := by
  have htiles := hf.tiles.of_keeps h.keeps
  obtain ⟨height, hle, rfl⟩ := h
  exact ⟨f.height, htiles, hf.fits, hle⟩

end Point

/-! ## What holds at all points -/

/-- At the points the variables in scope lie next to each other, and the generator never forgets the
place of a variable, nor do two points know different places. -/
structure Gen.Visits (p : Program) (l : Layout) (gen : Gen α) (f : Frame)
    (points : List Point) : Prop where
  tiled : ∀ P ∈ points, P.Tiled p l
  above : ∀ P ∈ points, f.Keeps P.frame p l
  below {a : α} {f' : Frame} : gen.run f = .ok (a, f') →
    f.Keeps f' p l ∧ ∀ P ∈ points, P.frame.Keeps f' p l
  agree : ∀ P ∈ points, ∀ Q ∈ points, ∀ {x : VarId} {a b : Int},
    P.frame.stackOffset? p l x = some a → Q.frame.stackOffset? p l x = some b → a = b

namespace Gen.Visits

variable {gen : Gen α} {points : List Point}

theorem of_frames {frames : List Frame} (hf : f.IsTiled p l scope)
    (hframes : ∀ g ∈ frames, f.Raises g)
    (hend : ∀ {a f'}, gen.run f = .ok (a, f') → f.Keeps f' p l) :
    gen.Visits p l f (frames.map (⟨·, scope⟩)) := by
  have hraises : ∀ P ∈ frames.map (⟨·, scope⟩ : Frame → Point), f.Raises P.frame := by
    intro P hP
    obtain ⟨g, hg, rfl⟩ := List.mem_map.1 hP
    exact hframes g hg
  constructor
  case tiled =>
    intro P hP
    obtain ⟨g, hg, rfl⟩ := List.mem_map.1 hP
    exact Point.tiled_of_raises hf (hframes g hg)
  case above => exact fun P hP => (hraises P hP).keeps
  case below =>
    exact fun hrun => ⟨hend hrun, fun P hP => (hraises P hP).keeps_back.trans (hend hrun)⟩
  case agree =>
    intro P hP Q hQ x a b ha hb
    have hfa := (hraises P hP).keeps_back x a ha
    have hfb := (hraises Q hQ).keeps_back x b hb
    exact Option.some.inj (hfa.symm.trans hfb)

theorem nil (hend : ∀ {a f'}, gen.run f = .ok (a, f') → f.Keeps f' p l) :
    gen.Visits p l f [] :=
  ⟨nofun, nofun, fun hrun => ⟨hend hrun, nofun⟩, nofun⟩

theorem of_point (hf : f.IsTiled p l scope)
    (hend : ∀ {a f'}, gen.run f = .ok (a, f') → f.Keeps f' p l) :
    gen.Visits p l f [⟨f, scope⟩] := by
  have hself : ∀ g ∈ [f], f.Raises g := List.forall_mem_singleton.2 (.refl f)
  have hpoint := of_frames hf hself hend
  exact hpoint

theorem bind {next : α → Gen β} {more : Frame → List Point} (h : gen.Visits p l f points)
    (hnext : ∀ {a f'}, gen.run f = .ok (a, f') → (next a).Visits p l f' (more f')) :
    (gen >>= next).Visits p l f (points ++ gen.following f more) := by
  -- A point of the first part and one of the second meet in the frame between the two.
  have hcross : ∀ P ∈ points, ∀ Q ∈ gen.following f more, P.frame.Keeps Q.frame p l := by
    intro P hP Q hQ
    obtain ⟨a, f', hrun, hQ⟩ := mem_following_iff.1 hQ
    exact ((h.below hrun).2 P hP).trans ((hnext hrun).above Q hQ)
  constructor
  case tiled =>
    refine List.forall_mem_append.2 ⟨h.tiled, fun P hP => ?_⟩
    obtain ⟨a, f', hrun, hP⟩ := mem_following_iff.1 hP
    exact (hnext hrun).tiled P hP
  case above =>
    refine List.forall_mem_append.2 ⟨h.above, fun P hP => ?_⟩
    obtain ⟨a, f', hrun, hP⟩ := mem_following_iff.1 hP
    exact (h.below hrun).1.trans ((hnext hrun).above P hP)
  case below =>
    intro b f' hrun
    obtain ⟨a, f₁, hfirst, hrest⟩ := run_bind_eq_ok_iff.1 hrun
    obtain ⟨hkeeps, hpoints⟩ := h.below hfirst
    obtain ⟨hkeepsRest, hpointsRest⟩ := (hnext hfirst).below hrest
    refine ⟨hkeeps.trans hkeepsRest, List.forall_mem_append.2 ⟨fun P hP =>
      (hpoints P hP).trans hkeepsRest, fun P hP => ?_⟩⟩
    obtain ⟨a', f₁', hfirst', hP⟩ := mem_following_iff.1 hP
    obtain ⟨rfl, rfl⟩ := Prod.mk.inj (Except.ok.inj (hfirst.symm.trans hfirst'))
    exact hpointsRest P hP
  case agree =>
    intro P hP Q hQ x a b ha hb
    rcases List.mem_append.1 hP with hP | hP
    · rcases List.mem_append.1 hQ with hQ | hQ
      · exact h.agree P hP Q hQ ha hb
      · exact Option.some.inj ((hcross P hP Q hQ x a ha).symm.trans hb)
    · rcases List.mem_append.1 hQ with hQ | hQ
      · exact Option.some.inj (ha.symm.trans (hcross Q hQ P hP x b hb))
      · obtain ⟨r, f', hrun, hP⟩ := mem_following_iff.1 hP
        obtain ⟨r', f'', hrun', hQ⟩ := mem_following_iff.1 hQ
        obtain ⟨rfl, rfl⟩ := Prod.mk.inj (Except.ok.inj (hrun.symm.trans hrun'))
        exact (hnext hrun).agree P hP Q hQ ha hb

/-- Another generator with the same points, if it ends where this one does. -/
theorem of_run {gen' : Gen β} (h : gen.Visits p l f points)
    (hrun : ∀ {b f'}, gen'.run f = .ok (b, f') →
      ∃ a f₁, gen.run f = .ok (a, f₁) ∧ f₁.Keeps f' p l) :
    gen'.Visits p l f points := by
  refine ⟨h.tiled, h.above, fun hrun' => ?_, h.agree⟩
  obtain ⟨a, f₁, hfirst, hkeeps⟩ := hrun hrun'
  obtain ⟨hf₁, hpoints⟩ := h.below hfirst
  exact ⟨hf₁.trans hkeeps, fun P hP => (hpoints P hP).trans hkeeps⟩

theorem map (h : gen.Visits p l f points) (k : α → β) :
    (gen >>= fun a => pure (k a)).Visits p l f points := by
  refine h.of_run fun hrun => ?_
  obtain ⟨a, f₁, hfirst, hpure⟩ := run_bind_eq_ok_iff.1 hrun
  obtain ⟨_, rfl⟩ := run_pure_eq_ok_iff.1 hpure
  exact ⟨a, f₁, hfirst, .refl f₁⟩

theorem closing (h : gen.Visits p l f points)
    (hend : ∀ {a f'}, gen.run f = .ok (a, f') → f'.IsTiled p l scope) :
    gen.Visits p l f (gen.closing f scope points) := by
  have hall : (gen >>= pure).Visits p l f (gen.closing f scope points) := by
    refine h.bind fun hrun => of_point (hend hrun) fun hpure => ?_
    obtain ⟨_, rfl⟩ := run_pure_eq_ok_iff.1 hpure
    exact .refl _
  rwa [bind_pure] at hall

/-- The end of a scope drops values and forgets nothing. -/
theorem inScope {body : Gen Code} (h : body.Visits p l f points) :
    (inScope span body).Visits p l f points := by
  refine h.of_run fun hrun => ?_
  obtain ⟨inner, f₁, hinner, _, rfl⟩ := inScope_run hrun
  exact ⟨inner, f₁, hinner, .refl f₁⟩

end Gen.Visits

/-! ## Expressions -/

namespace ExprTree

variable {e : ExprTree} {es : List (Unit → ExprTree)} {gen : Gen α}

/-- Generators that only evaluate expressions on the way. -/
theorem visits_pointsAll (hf : f.IsTiled p l scope) (htyped : ∀ e ∈ es, (e ()).isWordTyped p)
    (hend : ∀ {a f'}, gen.run f = .ok (a, f') → f.Keeps f' p l) :
    gen.Visits p l f (pointsAll p l es scope f) :=
  .of_frames hf (fun _ hg => raises_of_mem_framesAll htyped
    (fun e he _ _ => raises_of_mem_frames (htyped e he)) hg) hend

/-- What is evaluated in order to assign to a word-typed expression is word-typed. -/
theorem isWordTyped_of_mem_addressed {operand : Unit → ExprTree} (htyped : e.isWordTyped p)
    (h : operand ∈ e.addressed) : (operand ()).isWordTyped p := by
  cases e with
  | field info object var =>
    obtain rfl := List.mem_singleton.1 h
    simp only [isWordTyped, Bool.and_eq_true] at htyped
    exact htyped.2
  | index info array i =>
    simp only [isWordTyped, Bool.and_eq_true] at htyped
    rcases List.mem_pair.1 h with rfl | rfl
    · exact htyped.1.2
    · exact htyped.2
  | _ => cases h

end ExprTree

/-! ## Statements -/

namespace StmtTree

variable {s : StmtTree} {ss : List (Unit → StmtTree)}

theorem keeps_of_code (htyped : s.isWordTyped p) (h : (s.code p l).run f = .ok (code, f')) :
    f.Keeps f' p l :=
  (frame_of_code htyped h).1.keeps

/-- Behind a statement the variables in scope are all that is on the stack. -/
theorem isTiled_of_code (hf : f.IsTiled p l scope) (htyped : s.isWordTyped p)
    (hlocal : ∀ x ∈ s.declares, p.isLocal x) (h : (s.code p l).run f = .ok (code, f')) :
    f'.IsTiled p l (s.scopeAfter scope) := by
  obtain ⟨hextends, hheight⟩ := frame_of_code htyped h
  cases s with
  | localVar info x init =>
    simp only [isWordTyped, Bool.and_eq_true, beq_iff_eq] at htyped
    simp only [StmtTree.code, run_bind_eq_ok_iff, run_pure_eq_ok_iff] at h
    obtain ⟨_, f₁, hinit, _, _, hdeclared, _, rfl⟩ := h
    have hfits := declared_fits hdeclared
    obtain ⟨_, rfl⟩ := declared_frame hdeclared
    rw [leftBytes] at hheight
    refine ⟨⟨?_, ?_⟩, hfits⟩
    · rw [Frame.stackOffset?_of_isLocal _ (hlocal x List.mem_cons_self)]
      exact List.lookup_cons_self
    · have hbelow : -f₁.height + (p.varTy x).stackBytes = -f.height := by
        dsimp only at hheight
        omega
      dsimp only
      rw [hbelow]
      exact hf.tiles.of_keeps hextends.keeps
  | _ => exact hf.of_keeps hextends.keeps (hheight.trans (Int.add_zero _))

theorem visits_codeAll (hf : f.IsTiled p l scope) (htyped : ∀ s ∈ ss, (s ()).isWordTyped p)
    (hlocal : ∀ x ∈ declaresAll ss, p.isLocal x)
    (heach : ∀ s ∈ ss, ∀ {f scope}, f.IsTiled p l scope → (∀ x ∈ (s ()).declares, p.isLocal x) →
      ((s ()).code p l).Visits p l f ((s ()).points p l scope f)) :
    (codeAll p l ss).Visits p l f (pointsAll p l ss scope f) := by
  induction ss generalizing f scope with
  | nil =>
    refine .of_point hf fun hrun => ?_
    obtain ⟨_, rfl⟩ := run_pure_eq_ok_iff.1 hrun
    exact .refl f
  | cons s ss ih =>
    rw [List.forall_mem_cons] at htyped heach
    rw [declaresAll, List.forall_mem_append] at hlocal
    refine (heach.1 hf hlocal.1).bind fun hfirst => ?_
    exact (ih (isTiled_of_code hf htyped.1 hlocal.1 hfirst) htyped.2 hlocal.2 heach.2).map _

theorem visits_condition {cond : ExprTree} (hf : f.IsTiled p l scope)
    (htyped : cond.isWordTyped p) (hscalar : cond.ty.isScalar) :
    (condition p l span cond).Visits p l f
      (ExprTree.pointsAll p l [fun _ => cond] scope f) := by
  refine ExprTree.visits_pointsAll hf (List.forall_mem_singleton.2 htyped) fun hrun => ?_
  obtain rfl := condition_frame htyped hscalar hrun
  exact .refl f

theorem visits_scope (hf : f.IsTiled p l scope) (htyped : s.isWordTyped p)
    (hlocal : ∀ x ∈ s.declares, p.isLocal x)
    (h : (s.code p l).Visits p l f (s.points p l scope f)) :
    (inScope s.span (s.code p l)).Visits p l f
      (closing (s.code p l) f (s.scopeAfter scope) (s.points p l scope f)) :=
  (h.closing (isTiled_of_code hf htyped hlocal)).inScope

/-- What is left of a scope behind its end. -/
theorem isTiled_of_scope (hf : f.IsTiled p l scope) (htyped : s.isWordTyped p)
    (h : (inScope s.span (s.code p l)).run f = .ok (code, f')) : f'.IsTiled p l scope := by
  obtain ⟨hextends, hheight⟩ := scope_frame h fun hrun => (frame_of_code htyped hrun).1
  exact hf.of_keeps hextends.keeps hheight

/-- The invariant at all points of a statement. -/
theorem visits_code (hf : f.IsTiled p l scope) (htyped : s.isWordTyped p)
    (hlocal : ∀ x ∈ s.declares, p.isLocal x) :
    (s.code p l).Visits p l f (s.points p l scope f) := by
  induction s generalizing f scope with
  | broken | breakFrom => exact .of_point hf (keeps_of_code htyped)
  | localVar info x init =>
    have hparts := htyped
    simp only [isWordTyped, Bool.and_eq_true] at hparts
    exact ExprTree.visits_pointsAll hf (List.forall_mem_singleton.2 hparts.1)
      (keeps_of_code htyped)
  | call info expr =>
    exact ExprTree.visits_pointsAll hf (List.forall_mem_singleton.2 htyped) (keeps_of_code htyped)
  | assign info target value =>
    have hparts := htyped
    simp only [isWordTyped, Bool.and_eq_true] at hparts
    refine ExprTree.visits_pointsAll hf (List.forall_mem_append.2 ⟨fun operand hoperand => ?_,
      List.forall_mem_singleton.2 hparts.1.2⟩) (keeps_of_code htyped)
    exact ExprTree.isWordTyped_of_mem_addressed hparts.1.1 hoperand
  | block info stmts ih =>
    have htypedAll := isWordTypedAll_iff.1 htyped
    refine .inScope (visits_codeAll hf htypedAll hlocal fun s hs {f scope} hf hlocal => ?_)
    exact ih s hs hf (htypedAll s hs) hlocal
  | ifThen info cond thenStmt ih =>
    simp only [isWordTyped, Bool.and_eq_true] at htyped
    refine (visits_condition hf htyped.1.1 htyped.1.2).bind fun htest => ?_
    obtain rfl := condition_frame htyped.1.1 htyped.1.2 htest
    exact (visits_scope hf htyped.2 hlocal (ih hf htyped.2 hlocal)).map _
  | ifElse info cond thenStmt elseStmt ihThen ihElse =>
    simp only [isWordTyped, Bool.and_eq_true] at htyped
    obtain ⟨⟨⟨hcond, hscalar⟩, hthen⟩, helse⟩ := htyped
    rw [declares, List.forall_mem_append] at hlocal
    refine (visits_condition hf hcond hscalar).bind fun htest => ?_
    obtain rfl := condition_frame hcond hscalar htest
    refine (visits_scope hf hthen hlocal.1 (ihThen hf hthen hlocal.1)).bind fun hbody => ?_
    have hf' := isTiled_of_scope hf hthen hbody
    exact (visits_scope hf' helse hlocal.2 (ihElse hf' helse hlocal.2)).map _
  | whileLoop info cond body ih =>
    simp only [isWordTyped, Bool.and_eq_true] at htyped
    obtain ⟨⟨hcond, hscalar⟩, hbody⟩ := htyped
    have henter {u f'} (h : (modify (·.enterLoop info.id) : Gen PUnit).run f = .ok (u, f')) :
        f.Keeps f' p l := by
      obtain rfl := run_modify_eq_ok_iff.1 h
      exact .refl f
    refine (Visits.of_point hf henter).bind fun hrun => ?_
    have hf₁ := hf.of_keeps (henter hrun) (by obtain rfl := run_modify_eq_ok_iff.1 hrun; rfl)
    refine (visits_scope hf₁ hbody hlocal (ih hf₁ hbody hlocal)).bind fun hturn => ?_
    exact (visits_condition (isTiled_of_scope hf₁ hbody hturn) hcond hscalar).map _

end StmtTree

/-! ## Methods -/

theorem StmtTree.mem_declaresAll {ss : List (Unit → StmtTree)} :
    x ∈ declaresAll ss ↔ ∃ s ∈ ss, x ∈ (s ()).declares := by
  induction ss with
  | nil => simp [declaresAll]
  | cons s ss ih => simp [declaresAll, ih]

theorem Program.isLocal_of_localInit {init : ExprId} (h : p.localInit x = .ok init) :
    p.isLocal x := by
  rw [localInit, bind_eq_ok_iff] at h
  obtain ⟨decl, hdecl, h⟩ := h
  split at h
  · rename_i init' hkind
    exact isLocal_iff.2 ⟨decl, init', hdecl, hkind⟩
  · exact absurd h defect_ne_ok

/-- The statements of a program declare local variables only. -/
theorem Program.isLocal_of_mem_declares {bound : Nat} {id : StmtId}
    (h : x ∈ (p.unfoldStmt bound id).declares) : p.isLocal x := by
  induction bound generalizing id with
  | zero =>
    unfold unfoldStmt at h
    split at h
    · exact absurd h List.not_mem_nil
    · exact absurd h List.not_mem_nil
  | succ bound ih =>
    unfold unfoldStmt at h
    split at h
    · exact absurd h List.not_mem_nil
    · dsimp only at h
      split at h
      case h_1 =>
        rw [StmtTree.declares, StmtTree.mem_declaresAll] at h
        obtain ⟨tree, htree, h⟩ := h
        obtain ⟨stmt, _, rfl⟩ := List.mem_map.1 htree
        exact ih h
      case h_2 =>
        split at h
        · rename_i init hinit
          obtain rfl := List.mem_singleton.1 h
          exact isLocal_of_localInit hinit
        · exact absurd h List.not_mem_nil
      case h_5 | h_7 => exact ih h
      case h_6 =>
        rw [StmtTree.declares, List.mem_append] at h
        exact h.elim ih ih
      all_goals exact absurd h List.not_mem_nil

/-- Behind the statements of a block the variables in scope are all that is on the stack. -/
theorem StmtTree.isTiled_of_codeAll {ss : List (Unit → StmtTree)} (hf : f.IsTiled p l scope)
    (htyped : ∀ s ∈ ss, (s ()).isWordTyped p) (hlocal : ∀ x ∈ declaresAll ss, p.isLocal x)
    (h : (codeAll p l ss).run f = .ok (code, f')) :
    f'.IsTiled p l (scopeAfterAll scope ss) := by
  induction ss generalizing f scope code with
  | nil =>
    obtain ⟨_, rfl⟩ := run_pure_eq_ok_iff.1 h
    exact hf
  | cons s ss ih =>
    rw [List.forall_mem_cons] at htyped
    rw [declaresAll, List.forall_mem_append] at hlocal
    simp only [codeAll, run_bind_eq_ok_iff, run_pure_eq_ok_iff] at h
    obtain ⟨_, f₁, hfirst, _, _, hrest, _, rfl⟩ := h
    exact ih (isTiled_of_code hf htyped.1 hlocal.1 hfirst) htyped.2 hlocal.2 hrest

/-- The invariant at all points of a method. -/
theorem MethodDecl.visits_points {id : MethodId} {decl : MethodDecl}
    (hdecl : p.methodAt id = .ok decl) (htyped : (Body.method id).isWordTyped p) :
    (do
      let _ ← StmtTree.codeAll p l (decl.body.map fun s _ => p.stmtTree s)
      decl.resultCode p l).Visits p l .empty (decl.points p l) := by
  rw [Body.isWordTyped, Bool.and_eq_true, StmtTree.isWordTypedAll_iff] at htyped
  simp only [Body.stmts, Body.result?, hdecl] at htyped
  obtain ⟨hbody, hresult⟩ := htyped
  have hlocal : ∀ x ∈ StmtTree.declaresAll (decl.body.map fun s _ => p.stmtTree s),
      p.isLocal x := by
    intro x hx
    obtain ⟨tree, htree, hx⟩ := StmtTree.mem_declaresAll.1 hx
    obtain ⟨s, _, rfl⟩ := List.mem_map.1 htree
    exact Program.isLocal_of_mem_declares hx
  have hstmts : (StmtTree.codeAll p l (decl.body.map fun s _ => p.stmtTree s)).Visits p l .empty
      (StmtTree.pointsAll p l (decl.body.map fun s _ => p.stmtTree s) [] .empty) :=
    StmtTree.visits_codeAll Frame.isTiled_empty hbody hlocal fun s hs {_ _} hf hlocal =>
      StmtTree.visits_code hf (hbody s hs) hlocal
  refine hstmts.bind fun {_ f} hrun => ?_
  have hf := StmtTree.isTiled_of_codeAll Frame.isTiled_empty hbody hlocal hrun
  unfold resultCode
  cases hreturn : decl.result with
  | none =>
    cases hvoid : decl.isVoid with
    | true =>
      refine .nil fun hrun => ?_
      obtain ⟨_, rfl⟩ := run_pure_eq_ok_iff.1 hrun
      exact .refl _
    | false => exact .nil fun hrun => absurd (run_liftM_eq_ok_iff.1 hrun).1 defect_ne_ok
  | some r =>
    cases hvoid : decl.isVoid with
    | true => exact .nil fun hrun => absurd (run_liftM_eq_ok_iff.1 hrun).1 defect_ne_ok
    | false =>
      simp only [hreturn, Option.map_some, Option.all_some, Bool.and_eq_true] at hresult
      refine ExprTree.visits_pointsAll hf (List.forall_mem_singleton.2 hresult.1) fun hrun => ?_
      simp only [run_bind_eq_ok_iff, run_pure_eq_ok_iff] at hrun
      obtain ⟨_, _, hcode, _, rfl⟩ := hrun
      exact (ExprTree.raises_of_code hresult.1 hcode).keeps

end MipsBackend
