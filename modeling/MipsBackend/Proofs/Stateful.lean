import Mathlib.Data.List.Forall2
import MipsBackend.Fault

/-!
# When stateful operations succeed

The layout pass and the code generator are operations on a state that may fail.  Each lemma says
what a success of one building block means, so that a `do` block is opened by rewriting: a sequence
succeeds when its parts do, one after the other, and a lifted operation leaves the state alone.

`Succeeds` is total correctness: that an operation does succeed, with a result and a state of which
something holds.

`Folds` is the trace of a loop over a list, and `foldlM_run_induction` is how facts about the turns
of a successful loop become a fact about all of it.
-/

namespace MipsBackend

variable {σ α β : Type} {s s' s'' : σ}

/-- Whether an operation without parameters succeeds can be evaluated. -/
theorem exists_eq_ok_of_isSome {op : Except Fault α} (h : op.toOption.isSome) :
    ∃ a, op = .ok a := by
  cases op with
  | ok a => exact ⟨a, rfl⟩
  | error fault => simp [Except.toOption] at h

theorem run_bind_eq_ok_iff {op : StateT σ (Except Fault) α}
    {next : α → StateT σ (Except Fault) β} {b : β} :
    (op >>= next).run s = .ok (b, s'') ↔
      ∃ a s', op.run s = .ok (a, s') ∧ (next a).run s' = .ok (b, s'') := by
  rw [StateT.run_bind, bind_eq_ok_iff]
  constructor
  · rintro ⟨⟨a, s'⟩, h, h'⟩
    exact ⟨a, s', h, h'⟩
  · rintro ⟨a, s', h, h'⟩
    exact ⟨(a, s'), h, h'⟩

theorem run_pure_eq_ok_iff {a b : α} :
    (pure a : StateT σ (Except Fault) α).run s = .ok (b, s') ↔ a = b ∧ s = s' := by
  rw [StateT.run_pure, pure_eq_ok_iff, Prod.mk.injEq, @eq_comm _ b, @eq_comm _ s']

theorem run_liftM_eq_ok_iff {op : Except Fault α} {a : α} :
    (liftM op : StateT σ (Except Fault) α).run s = .ok (a, s') ↔ op = .ok a ∧ s = s' := by
  rw [show (liftM op : StateT σ (Except Fault) α).run s = op >>= fun a => pure (a, s) from rfl,
    bind_eq_ok_iff]
  simp only [pure_eq_ok_iff, Prod.mk.injEq]
  constructor
  · rintro ⟨_, h, rfl, rfl⟩
    exact ⟨h, rfl⟩
  · rintro ⟨h, rfl⟩
    exact ⟨a, h, rfl, rfl⟩

theorem run_get_eq_ok_iff {t : σ} :
    (get : StateT σ (Except Fault) σ).run s = .ok (t, s') ↔ s = t ∧ s = s' := by
  rw [StateT.run_get, pure_eq_ok_iff, Prod.mk.injEq, @eq_comm _ t, @eq_comm _ s']

theorem run_set_eq_ok_iff {t : σ} {u : PUnit} :
    (set t : StateT σ (Except Fault) PUnit).run s = .ok (u, s') ↔ s' = t := by
  rw [StateT.run_set, pure_eq_ok_iff, Prod.mk.injEq]
  simp

theorem run_modify_eq_ok_iff {g : σ → σ} {u : PUnit} :
    (modify g : StateT σ (Except Fault) PUnit).run s = .ok (u, s') ↔ s' = g s := by
  rw [StateT.run_modify, pure_eq_ok_iff, Prod.mk.injEq]
  simp

theorem run_throw_ne_ok {fault : Fault} {a : α} :
    (throw fault : StateT σ (Except Fault) α).run s ≠ .ok (a, s') :=
  nofun

theorem mapM_eq_ok_iff {f : α → Except Fault β} {as : List α} {bs : List β} :
    as.mapM f = .ok bs ↔ List.Forall₂ (fun a b => f a = .ok b) as bs := by
  induction as generalizing bs with
  | nil => rw [List.mapM_nil, pure_eq_ok_iff, List.forall₂_nil_left_iff]
  | cons a as ih =>
    simp only [List.mapM_cons, bind_eq_ok_iff, pure_eq_ok_iff, ih, List.forall₂_cons_left_iff]
    constructor
    · rintro ⟨b, hb, bs, hbs, rfl⟩
      exact ⟨b, bs, hb, hbs, rfl⟩
    · rintro ⟨b, bs, hb, hbs, rfl⟩
      exact ⟨b, hb, bs, hbs, rfl⟩

/-- What stands in the second of two related lists is related to something in the first. -/
theorem exists_of_mem_forall₂ {R : α → β → Prop} {as : List α} {bs : List β} {b : β}
    (h : List.Forall₂ R as bs) (hb : b ∈ bs) : ∃ a ∈ as, R a b := by
  induction h with
  | nil => exact absurd hb List.not_mem_nil
  | @cons a _ as _ hfirst _ ih =>
    rcases List.mem_cons.1 hb with rfl | hb
    · exact ⟨a, List.mem_cons_self, hfirst⟩
    · obtain ⟨a', ha', hrelated⟩ := ih hb
      exact ⟨a', List.mem_cons_of_mem a ha', hrelated⟩

/-- What a loop collects comes from its turns. -/
theorem exists_of_mem_mapM {f : α → Except Fault β} {as : List α} {bs : List β} {b : β}
    (h : as.mapM f = .ok bs) (hb : b ∈ bs) : ∃ a ∈ as, f a = .ok b := by
  obtain ⟨a, ha, hf⟩ := exists_of_mem_forall₂ (mapM_eq_ok_iff.1 h) hb
  exact ⟨a, ha, hf⟩

/-! ## Total correctness -/

/-- The operation succeeds from a state, and `post` holds of what it returns and leaves. -/
def Succeeds (op : StateT σ (Except Fault) α) (s : σ) (post : α → σ → Prop) : Prop :=
  ∃ a s', op.run s = .ok (a, s') ∧ post a s'

/-- A sequence succeeds when its parts do, one after the other. -/
theorem exists_bind_eq_ok_iff {op : Except Fault α} {next : α → Except Fault β} :
    (∃ b, op >>= next = .ok b) ↔ ∃ a, op = .ok a ∧ ∃ b, next a = .ok b := by
  simp only [bind_eq_ok_iff]
  exact ⟨fun ⟨b, a, hop, hnext⟩ => ⟨a, hop, b, hnext⟩, fun ⟨a, hop, b, hnext⟩ => ⟨b, a, hop, hnext⟩⟩

theorem exists_pure_eq_ok (a : α) : ∃ b, (pure a : Except Fault α) = .ok b :=
  ⟨a, rfl⟩

section Succeeds

variable {op : StateT σ (Except Fault) α} {next : α → StateT σ (Except Fault) β}
  {post post' : α → σ → Prop}

theorem Succeeds.mono (h : Succeeds op s post) (hpost : ∀ a s', post a s' → post' a s') :
    Succeeds op s post' := by
  obtain ⟨a, s', hrun, ha⟩ := h
  exact ⟨a, s', hrun, hpost a s' ha⟩

/-- What is known of every run that succeeds may be used of the one that does. -/
theorem Succeeds.of_run (h : Succeeds op s post)
    (hrun : ∀ a s', op.run s = .ok (a, s') → post a s' → post' a s') : Succeeds op s post' := by
  obtain ⟨a, s', hop, ha⟩ := h
  exact ⟨a, s', hop, hrun a s' hop ha⟩

theorem succeeds_bind_iff {post : β → σ → Prop} :
    Succeeds (op >>= next) s post ↔ Succeeds op s fun a s' => Succeeds (next a) s' post := by
  simp only [Succeeds, run_bind_eq_ok_iff]
  constructor
  · rintro ⟨b, s'', ⟨a, s', hop, hnext⟩, hb⟩
    exact ⟨a, s', hop, b, s'', hnext, hb⟩
  · rintro ⟨a, s', hop, b, s'', hnext, hb⟩
    exact ⟨b, s'', ⟨a, s', hop, hnext⟩, hb⟩

theorem succeeds_pure_iff {a : α} :
    Succeeds (pure a : StateT σ (Except Fault) α) s post ↔ post a s := by
  simp only [Succeeds, run_pure_eq_ok_iff]
  constructor
  · rintro ⟨_, _, ⟨rfl, rfl⟩, ha⟩
    exact ha
  · exact fun ha => ⟨a, s, ⟨rfl, rfl⟩, ha⟩

theorem succeeds_liftM_iff {op : Except Fault α} :
    Succeeds (liftM op : StateT σ (Except Fault) α) s post ↔ ∃ a, op = .ok a ∧ post a s := by
  simp only [Succeeds, run_liftM_eq_ok_iff]
  constructor
  · rintro ⟨a, _, ⟨hop, rfl⟩, ha⟩
    exact ⟨a, hop, ha⟩
  · rintro ⟨a, hop, ha⟩
    exact ⟨a, s, ⟨hop, rfl⟩, ha⟩

/-- A lifted operation at the beginning of a sequence. -/
theorem succeeds_liftM_bind {op : Except Fault α} {a : α} {post : β → σ → Prop} (hop : op = .ok a)
    (hnext : Succeeds (next a) s post) :
    Succeeds ((liftM op : StateT σ (Except Fault) α) >>= next) s post :=
  succeeds_bind_iff.2 (succeeds_liftM_iff.2 ⟨a, hop, hnext⟩)

theorem succeeds_get_iff {post : σ → σ → Prop} :
    Succeeds (get : StateT σ (Except Fault) σ) s post ↔ post s s := by
  simp only [Succeeds, run_get_eq_ok_iff]
  constructor
  · rintro ⟨_, _, ⟨rfl, rfl⟩, h⟩
    exact h
  · exact fun h => ⟨s, s, ⟨rfl, rfl⟩, h⟩

theorem succeeds_set_iff {t : σ} {post : PUnit → σ → Prop} :
    Succeeds (set t : StateT σ (Except Fault) PUnit) s post ↔ post ⟨⟩ t := by
  simp only [Succeeds, run_set_eq_ok_iff]
  constructor
  · rintro ⟨_, _, rfl, h⟩
    exact h
  · exact fun h => ⟨⟨⟩, t, rfl, h⟩

theorem succeeds_modify_iff {g : σ → σ} {post : PUnit → σ → Prop} :
    Succeeds (modify g : StateT σ (Except Fault) PUnit) s post ↔ post ⟨⟩ (g s) := by
  simp only [Succeeds, run_modify_eq_ok_iff]
  constructor
  · rintro ⟨_, _, rfl, h⟩
    exact h
  · exact fun h => ⟨⟨⟩, g s, rfl, h⟩

end Succeeds

/-! ## Loops -/

/-- `step` leads from `b` over the items of the list, in order, to the last state. -/
inductive Folds (step : β → α → β → Prop) : β → List α → β → Prop where
  | nil {b : β} : Folds step b [] b
  | cons {b b' b'' : β} {a : α} {as : List α} : step b a b' → Folds step b' as b'' →
      Folds step b (a :: as) b''

theorem Folds.imp {step step' : β → α → β → Prop} {as : List α} {b b' : β}
    (himp : ∀ {b a b'}, step b a b' → step' b a b') (h : Folds step b as b') :
    Folds step' b as b' := by
  induction h with
  | nil => exact .nil
  | cons hfirst _ ih => exact .cons (himp hfirst) ih

/-- Every item had its turn. -/
theorem Folds.exists_of_mem {step : β → α → β → Prop} {a : α} {as : List α} {b b' : β}
    (h : Folds step b as b') (ha : a ∈ as) : ∃ b₁ b₂, step b₁ a b₂ := by
  induction h with
  | nil => exact absurd ha List.not_mem_nil
  | cons hfirst _ ih =>
    rcases List.mem_cons.1 ha with rfl | ha
    · exact ⟨_, _, hfirst⟩
    · exact ih ha

/-- Induction over the turns of a loop that succeeded. -/
theorem foldlM_run_induction {op : β → α → StateT σ (Except Fault) β}
    {motive : List α → β → σ → β → σ → Prop} (nil : ∀ b s, motive [] b s b s)
    (cons : ∀ {a as b b₁ b' s s₁ s'}, (op b a).run s = .ok (b₁, s₁) →
      motive as b₁ s₁ b' s' → motive (a :: as) b s b' s') :
    ∀ {as : List α} {b b' : β} {s s' : σ}, (as.foldlM op b).run s = .ok (b', s') →
      motive as b s b' s' := by
  intro as
  induction as with
  | nil =>
    intro b b' s s' h
    obtain ⟨rfl, rfl⟩ := run_pure_eq_ok_iff.1 h
    exact nil b s
  | cons a as ih =>
    intro b b' s s' h
    rw [List.foldlM_cons, run_bind_eq_ok_iff] at h
    obtain ⟨b₁, s₁, hfirst, hrest⟩ := h
    exact cons hfirst (ih hrest)

/-- A loop succeeds when an invariant of the items still to come lets every turn succeed. -/
theorem succeeds_foldlM {op : β → α → StateT σ (Except Fault) β} (inv : List α → β → σ → Prop)
    (turn : ∀ {a as b s}, inv (a :: as) b s → Succeeds (op b a) s (inv as)) :
    ∀ {as : List α} {b : β} {s : σ}, inv as b s → Succeeds (as.foldlM op b) s (inv []) := by
  intro as
  induction as with
  | nil =>
    intro b s h
    exact succeeds_pure_iff.2 h
  | cons a as ih =>
    intro b s h
    rw [List.foldlM_cons, succeeds_bind_iff]
    exact (turn h).mono fun _ _ h' => ih h'

theorem exists_mapM_eq_ok {f : α → Except Fault β} {as : List α} (h : ∀ a ∈ as, ∃ b, f a = .ok b) :
    ∃ bs, as.mapM f = .ok bs := by
  induction as with
  | nil => exact ⟨[], rfl⟩
  | cons a as ih =>
    rw [List.forall_mem_cons] at h
    obtain ⟨b, hb⟩ := h.1
    obtain ⟨bs, hbs⟩ := ih h.2
    rw [mapM_eq_ok_iff] at hbs
    exact ⟨b :: bs, mapM_eq_ok_iff.2 (.cons hb hbs)⟩

/-- A filter succeeds when every test does, and keeps items that pass only. -/
theorem exists_filterM_eq_ok {f : α → Except Fault Bool} {as : List α}
    (h : ∀ a ∈ as, ∃ b, f a = .ok b) :
    ∃ kept, as.filterM f = .ok kept ∧ ∀ a ∈ kept, a ∈ as ∧ f a = .ok true := by
  have haux : ∀ {as acc : List α}, (∀ a ∈ as, ∃ b, f a = .ok b) →
      ∃ kept, List.filterAuxM f as acc = .ok kept ∧
        ∀ a ∈ kept, a ∈ acc ∨ a ∈ as ∧ f a = .ok true := by
    intro as
    induction as with
    | nil => exact fun {acc} _ => ⟨acc, rfl, fun a ha => Or.inl ha⟩
    | cons a as ih =>
      intro acc h
      rw [List.forall_mem_cons] at h
      obtain ⟨b, hb⟩ := h.1
      obtain ⟨kept, hkept, hmem⟩ := @ih (cond b (a :: acc) acc) h.2
      refine ⟨kept, bind_eq_ok_iff.2 ⟨b, hb, hkept⟩, fun a' ha' => ?_⟩
      rcases hmem a' ha' with hold | ⟨hin, htrue⟩
      · cases b with
        | false => exact Or.inl hold
        | true =>
          rcases List.mem_cons.1 hold with rfl | hold
          · exact Or.inr ⟨List.mem_cons_self, hb⟩
          · exact Or.inl hold
      · exact Or.inr ⟨List.mem_cons_of_mem a hin, htrue⟩
  obtain ⟨kept, hkept, hmem⟩ := @haux as [] h
  refine ⟨kept.reverse, bind_eq_ok_iff.2 ⟨kept, hkept, rfl⟩, fun a ha => ?_⟩
  exact (hmem a (List.mem_reverse.1 ha)).resolve_left List.not_mem_nil

/-- A filter that succeeds keeps the items that pass, in order. -/
theorem filterM_eq_ok {f : α → Except Fault Bool} {as kept : List α}
    (h : as.filterM f = .ok kept) : kept = as.filter fun a => (f a).toOption == some true := by
  have haux : ∀ {as acc kept : List α}, List.filterAuxM f as acc = .ok kept →
      kept = (as.filter fun a => (f a).toOption == some true).reverse ++ acc := by
    intro as
    induction as with
    | nil =>
      intro acc kept h
      exact pure_eq_ok_iff.1 h
    | cons a as ih =>
      intro acc kept h
      obtain ⟨b, hb, h⟩ := bind_eq_ok_iff.1 h
      rw [ih h, List.filter_cons]
      cases b with
      | false => simp [hb, Except.toOption]
      | true => simp [hb, Except.toOption]
  obtain ⟨found, hfound, h⟩ := bind_eq_ok_iff.1 h
  rw [pure_eq_ok_iff.1 h, haux hfound, List.append_nil, List.reverse_reverse]

end MipsBackend
