import FlatScript.Proofs.Inlining.Growth

/-!
# Two runs side by side

Expansion is described by what a successful step leaves behind, and two expansions of the
same statements are compared by running them side by side. `FlatScript.Inlining.Runs` does
both at once: from a program `p`, two steps have the same outcome, and if it is a result, the
program has grown and the result has a property. With the same step on both sides it is a
statement about one run.
-/

namespace FlatScript.Inlining

variable {α β : Type} {p p' : Program}

/-- **Two steps do the same from a program**, which grows, and their result has a property. -/
def Runs (x y : Compile α) (p : Program) (Q : Program → α → Prop) : Prop :=
  x.run p = y.run p ∧ ∀ a p', x.run p = .ok (a, p') → p.Grows p' ∧ Q p' a

/-- **Two outcomes are alike**: the same error, or results that are related. -/
inductive Alike {γ : Type} (R : α → γ → Prop) :
    Except CompileError α → Except CompileError γ → Prop
  | error (e : CompileError) : Alike R (.error e) (.error e)
  | ok {a : α} {b : γ} (h : R a b) : Alike R (.ok a) (.ok b)

theorem Alike.imp {γ : Type} {R R' : α → γ → Prop} {z : Except CompileError α}
    {z' : Except CompileError γ} (h : Alike R z z') (himp : ∀ a b, R a b → R' a b) :
    Alike R' z z' := by
  cases h with
  | error e => exact .error e
  | ok h => exact .ok (himp _ _ h)

theorem Alike.map {γ δ δ' : Type} {R : α → γ → Prop} {R' : δ → δ' → Prop} {f : α → δ}
    {g : γ → δ'} {z : Except CompileError α} {z' : Except CompileError γ} (h : Alike R z z')
    (himp : ∀ a b, R a b → R' (f a) (g b)) :
    Alike R' (z >>= fun a => pure (f a)) (z' >>= fun b => pure (g b)) := by
  cases h with
  | error e => exact .error e
  | ok h => exact .ok (himp _ _ h)

namespace Runs

variable {x y : Compile α} {f g : α → Compile β} {Q Q' : Program → α → Prop}
  {R : Program → β → Prop}

theorem ret {a : α} (h : Q p a) : Runs (pure a) (pure a) p Q := by
  refine ⟨rfl, ?_⟩
  intro b p' hrun
  simp only [StateT.run_pure] at hrun
  cases hrun
  exact ⟨.refl p, h⟩

theorem fail {e : CompileError} : Runs (throw e : Compile α) (throw e) p Q := by
  refine ⟨rfl, ?_⟩
  intro b p' hrun
  cases hrun

theorem bind (hx : Runs x y p Q)
    (hf : ∀ a p', p.Grows p' → Q p' a → Runs (f a) (g a) p' R) :
    Runs (x >>= f) (y >>= g) p R := by
  obtain ⟨heq, hpost⟩ := hx
  constructor
  · rw [StateT.run_bind, StateT.run_bind, ← heq]
    cases hrun : x.run p with
    | error e => rfl
    | ok r =>
      obtain ⟨a, p'⟩ := r
      obtain ⟨hgrow, hQ⟩ := hpost a p' hrun
      exact (hf a p' hgrow hQ).1
  · intro b p'' hrun
    obtain ⟨a, p', hrunx, hrunf⟩ := StateT.bind_eq_ok.mp hrun
    obtain ⟨hgrow, hQ⟩ := hpost a p' hrunx
    obtain ⟨hgrow', hR⟩ := (hf a p' hgrow hQ).2 b p'' hrunf
    exact ⟨hgrow.trans hgrow', hR⟩

theorem imp (h : Runs x y p Q) (himp : ∀ a p', p.Grows p' → Q p' a → Q' p' a) :
    Runs x y p Q' :=
  ⟨h.1, fun a p' hrun => ⟨(h.2 a p' hrun).1, himp a p' (h.2 a p' hrun).1 (h.2 a p' hrun).2⟩⟩

theorem get_bind {f g : Program → Compile β} (h : Runs (f p) (g p) p R) :
    Runs (get >>= f) (get >>= g) p R := by
  refine ⟨by simpa using h.1, ?_⟩
  intro b p' hrun
  exact h.2 b p' (by simpa using hrun)

theorem modify_bind {m : Program → Program} {f g : Unit → Compile β} (hm : p.Grows (m p))
    (h : Runs (f ()) (g ()) (m p) R) :
    Runs (modify m >>= f) (modify m >>= g) p R := by
  refine ⟨by simpa using h.1, ?_⟩
  intro b p' hrun
  have hpost := h.2 b p' (by simpa using hrun)
  exact ⟨hm.trans hpost.1, hpost.2⟩

/-- A step that does not look at the program. -/
theorem lift_bind {z : Except CompileError α}
    (h : ∀ a, z = .ok a → Runs (f a) (g a) p R) :
    Runs ((liftM z : Compile α) >>= f) ((liftM z : Compile α) >>= g) p R := by
  cases z with
  | error e =>
    refine ⟨rfl, ?_⟩
    intro b p' hrun
    cases hrun
  | ok a => exact h a rfl

/-- Two steps that do not look at the program, with outcomes that are alike. -/
theorem alike_bind {γ : Type} {z : Except CompileError α} {z' : Except CompileError γ}
    {g : γ → Compile β} (h : Alike (fun a b => Runs (f a) (g b) p R) z z') :
    Runs ((liftM z : Compile α) >>= f) ((liftM z' : Compile γ) >>= g) p R := by
  cases h with
  | error e =>
    refine ⟨rfl, ?_⟩
    intro b p' hrun
    cases hrun
  | ok h => exact h

/-- A step on a value that may be missing. -/
theorem option_mapM {o : Option α} {R : Program → α → β → Prop}
    (h : ∀ a ∈ o, Runs (f a) (g a) p fun p' b => R p' a b) :
    Runs (o.mapM f) (o.mapM g) p fun p' o' => Option.Rel (R p') o o' := by
  cases o with
  | none => exact .ret .none
  | some a =>
    simp only [Option.mapM_some, map_eq_pure_bind]
    exact (h a rfl).bind fun b _ _ hb => .ret (.some hb)

end Runs

end FlatScript.Inlining
