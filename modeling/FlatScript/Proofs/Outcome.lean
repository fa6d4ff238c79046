import FlatScript.Program
import Mathlib.Data.List.Forall2

/-!
# Steps that succeed

Every step of a compilation ends with a result or with an error, and most of them also change
a state. The proofs about them start from a run that succeeded, and ask what its parts did:
this file has the inversion lemmas for that, one for each way in which a step is put together.
-/

namespace FlatScript

variable {ε σ α β : Type}

/-! ### Steps without a state -/

/-- A sequence succeeds when its parts do. -/
theorem Except.bind_eq_ok {x : Except ε α} {f : α → Except ε β} {b : β} :
    (x >>= f) = .ok b ↔ ∃ a, x = .ok a ∧ f a = .ok b := by
  cases x with
  | error e => simp [bind, Except.bind]
  | ok a => simp [bind, Except.bind]

/-- A result without the reasons for which there might be none. -/
theorem Except.toOption_eq_some {x : Except ε α} {a : α} : x.toOption = some a ↔ x = .ok a := by
  cases x with
  | error e => simp [Except.toOption]
  | ok b => simp [Except.toOption]

/-- What a list of steps produces, step by step. -/
theorem Except.mapM_eq_ok {f : α → Except ε β} {xs : List α} {ys : List β} :
    xs.mapM f = .ok ys ↔ List.Forall₂ (fun x y => f x = .ok y) xs ys := by
  induction xs generalizing ys with
  | nil => cases ys <;> simp [pure, Except.pure]
  | cons x xs ih =>
    rw [List.mapM_cons]
    constructor
    · intro h
      obtain ⟨y, hy, h⟩ := Except.bind_eq_ok.mp h
      obtain ⟨ys', hys, h⟩ := Except.bind_eq_ok.mp h
      cases h
      exact .cons hy (ih.mp hys)
    · rintro (_ | ⟨hy, hys⟩)
      exact Except.bind_eq_ok.mpr ⟨_, hy, Except.bind_eq_ok.mpr ⟨_, ih.mpr hys, rfl⟩⟩

/-- A step on a value that may be missing. -/
theorem Except.mapM_option_eq_ok {f : α → Except ε β} {x : Option α} {y : Option β} :
    x.mapM f = .ok y ↔ Option.Rel (fun a b => f a = .ok b) x y := by
  cases x with
  | none =>
    cases y with
    | none => simp [pure, Except.pure]
    | some b => simp [pure, Except.pure]
  | some a =>
    rw [Option.mapM_some]
    constructor
    · intro h
      cases hf : f a with
      | error e => rw [hf] at h; cases h
      | ok b => rw [hf] at h; cases h; exact .some hf
    · rintro (hf | _)
      rw [hf]
      rfl

/-- What is in the second one of two related lists is related to something in the first. -/
theorem exists_mem_of_forall₂ {R : α → β → Prop} {l : List α} {l' : List β}
    (h : List.Forall₂ R l l') {b : β} (hb : b ∈ l') : ∃ a ∈ l, R a b := by
  induction h with
  | nil => cases hb
  | cons hab _ ih =>
    rcases List.mem_cons.mp hb with rfl | hb
    · exact ⟨_, by simp, hab⟩
    · obtain ⟨a, ha, hR⟩ := ih hb
      exact ⟨a, by simp [ha], hR⟩

/-- Where the second one of two related lists is split, the first can be split too. -/
theorem exists_split_of_forall₂ {R : α → β → Prop} {l : List α} {before after : List β} {b : β}
    (h : List.Forall₂ R l (before ++ b :: after)) :
    ∃ before₀ a after₀, l = before₀ ++ a :: after₀ ∧ List.Forall₂ R before₀ before ∧ R a b := by
  induction before generalizing l with
  | nil =>
    cases h with
    | cons hab _ => exact ⟨[], _, _, rfl, .nil, hab⟩
  | cons b' before ih =>
    cases h with
    | cons hab hrest =>
      obtain ⟨before₀, a, after₀, rfl, hbefore, ha⟩ := ih hrest
      exact ⟨_ :: before₀, a, after₀, rfl, .cons hab hbefore, ha⟩

/-- Related lists have the same images, when related elements have. -/
theorem map_eq_of_forall₂ {γ : Type} {R : α → β → Prop} {f : α → γ} {g : β → γ} {l : List α}
    {l' : List β} (h : List.Forall₂ R l l') (heq : ∀ a b, R a b → g b = f a) :
    l'.map g = l.map f := by
  induction h with
  | nil => rfl
  | cons hab _ ih => rw [List.map_cons, List.map_cons, heq _ _ hab, ih]

/-- What is found under a key is listed with it. -/
theorem mem_of_lookup [BEq α] [LawfulBEq α] {l : List (α × β)} {a : α} {b : β}
    (h : l.lookup a = some b) : (a, b) ∈ l := by
  obtain ⟨l₁, l₂, rfl, -⟩ := List.lookup_eq_some_iff.mp h
  exact List.mem_append_right _ List.mem_cons_self

/-! ### Values that may be missing -/

theorem optionRel_isSome {R : α → β → Prop} {x : Option α} {y : Option β}
    (h : Option.Rel R x y) : y.isSome = x.isSome := by
  cases h <;> rfl

theorem optionRel_imp {R R' : α → β → Prop} {x : Option α} {y : Option β}
    (h : Option.Rel R x y) (himp : ∀ a b, R a b → R' a b) : Option.Rel R' x y := by
  cases h with
  | some h => exact .some (himp _ _ h)
  | none => exact .none

theorem optionRel_map {γ δ : Type} {R : α → β → Prop} {S : γ → δ → Prop} {f : α → γ} {g : β → δ}
    {x : Option α} {y : Option β} (h : Option.Rel R x y) (hmap : ∀ a b, R a b → S (f a) (g b)) :
    Option.Rel S (x.map f) (y.map g) := by
  cases h with
  | some h => exact .some (hmap _ _ h)
  | none => exact .none

/-- Values that are related have the same image. -/
theorem map_eq_of_optionRel {γ : Type} {R : α → β → Prop} {f : α → γ} {g : β → γ} {x : Option α}
    {y : Option β} (h : Option.Rel R x y) (heq : ∀ a b, R a b → g b = f a) :
    y.map g = x.map f := by
  cases h with
  | some h => exact congrArg some (heq _ _ h)
  | none => rfl

/-- What is searched for by the same in related lists is related. -/
theorem optionRel_find? {R : α → β → Prop} {f : α → Bool} {g : β → Bool} {l : List α} {l' : List β}
    (h : List.Forall₂ R l l') (heq : ∀ a b, R a b → g b = f a) :
    Option.Rel R (l.find? f) (l'.find? g) := by
  induction h with
  | nil => exact .none
  | @cons a b _ _ hab _ ih =>
    rw [List.find?_cons, List.find?_cons, heq a b hab]
    cases f a with
    | true => exact .some hab
    | false => exact ih

/-- Where related lists are looked up at one place, the same is found in both. -/
theorem optionRel_getElem? {R : α → β → Prop} {l : List α} {l' : List β} (h : List.Forall₂ R l l')
    (i : Nat) : Option.Rel R l[i]? l'[i]? := by
  induction h generalizing i with
  | nil => exact .none
  | cons hab _ ih =>
    cases i with
    | zero => exact .some hab
    | succ i => exact ih i

/-- What is related to something has what that gives it. -/
theorem forall_mem_of_optionRel {R : α → β → Prop} {Q : β → Prop} {x : Option α} {y : Option β}
    (h : Option.Rel R x y) (himp : ∀ a b, R a b → Q b) : ∀ b ∈ y, Q b := by
  cases h with
  | some h => simpa using himp _ _ h
  | none => simp

/-- What is related to something comes from it. -/
theorem exists_mem_of_optionRel {R : α → β → Prop} {x : Option α} {y : Option β}
    (h : Option.Rel R x y) {b : β} (hb : b ∈ y) : ∃ a ∈ x, R a b := by
  cases h with
  | some h =>
    cases hb
    exact ⟨_, rfl, h⟩
  | none => cases hb

/-! ### Steps with a state -/

/-- A sequence with a state succeeds when its parts do. -/
theorem StateT.bind_eq_ok {x : StateT σ (Except ε) α} {f : α → StateT σ (Except ε) β} {s : σ}
    {r : β × σ} :
    (x >>= f).run s = .ok r ↔ ∃ a s', x.run s = .ok (a, s') ∧ (f a).run s' = .ok r := by
  rw [StateT.run_bind, Except.bind_eq_ok]
  simp

/-- A step without a state, in a sequence with one. -/
theorem StateT.lift_eq_ok {x : Except ε α} {s s' : σ} {a : α} :
    (liftM x : StateT σ (Except ε) α).run s = .ok (a, s') ↔ x = .ok a ∧ s = s' := by
  cases x with
  | error e =>
    constructor
    · intro h; cases h
    · rintro ⟨h, -⟩; cases h
  | ok b =>
    constructor
    · intro h; cases h; exact ⟨rfl, rfl⟩
    · rintro ⟨h, rfl⟩; cases h; rfl

end FlatScript
