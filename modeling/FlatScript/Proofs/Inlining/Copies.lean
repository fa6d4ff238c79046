import FlatScript.Inlining.Substitution
import FlatScript.Proofs.Rule

/-!
# Copied statements

A statement that is copied to a call remembers the call. Nothing else in it changes, so it
meets the rules that do not look at where a statement comes from.
-/

namespace FlatScript

/-- **A rule that does not look into the parts of statements** which are looked at anyway, nor at
lists as a whole. -/
structure Rule.Shallow (r : Rule) : Prop where
  stmt : ∀ {k k'}, StmtKind.Reshaped k k' → r.stmt k → r.stmt k'
  list : ∀ ss, r.list ss

variable {r : Rule} {site : Span}

@[simp] theorem length_branchesCopiedTo (bs : List Branch) :
    (branchesCopiedTo site bs).length = bs.length := by
  induction bs with
  | nil => rfl
  | cons b bs ih =>
    obtain ⟨cond, body⟩ := b
    simp [branchesCopiedTo, ih]

theorem forall₂_casesCopiedTo (cs : List Case) :
    List.Forall₂ (fun c c' => c'.stop.isSome = c.stop.isSome) cs (casesCopiedTo site cs) := by
  induction cs with
  | nil => exact .nil
  | cons c cs ih =>
    obtain ⟨start, stop, body⟩ := c
    exact .cons rfl ih

theorem forall₂_functionsCopiedTo (fs : List FunctionDef) :
    List.Forall₂ (fun f f' => f' = { f with body := f'.body }) fs (functionsCopiedTo site fs) := by
  induction fs with
  | nil => exact .nil
  | cons f fs ih =>
    obtain ⟨name, params, result, body, isTaskfunc, isOverride, span⟩ := f
    exact .cons rfl ih

mutual

theorem Stmt.Meets.copiedTo (hr : r.Shallow) :
    ∀ s : Stmt, s.Meets r → (s.copiedTo site).Meets r
  | ⟨.property _ functions, _, _⟩, ⟨h, hf⟩ =>
    ⟨hr.stmt (.property (forall₂_functionsCopiedTo functions)) h,
      functionsMeet_copiedTo hr functions hf⟩
  | ⟨.synonym _ _ _, _, _⟩, h | ⟨.declare _, _, _⟩, h | ⟨.assign _ _, _, _⟩, h
  | ⟨.call _, _, _⟩, h => h
  | ⟨.whileLoop _ body, _, _⟩, ⟨h, hc, _, hb⟩ =>
    ⟨hr.stmt .whileLoop h, hc, hr.list _, stmtsMeet_copiedTo hr body hb⟩
  | ⟨.forLoop _ _ _ _ _ body, _, _⟩, ⟨h, hv, h₁, h₂, h₃, _, hb⟩ =>
    ⟨hr.stmt (.forLoop rfl) h, hv, h₁, h₂, h₃, hr.list _, stmtsMeet_copiedTo hr body hb⟩
  | ⟨.family _ body, _, _⟩, ⟨h, _, hb⟩ =>
    ⟨hr.stmt .family h, hr.list _, stmtsMeet_copiedTo hr body hb⟩
  | ⟨.ifChain branches otherwise, _, _⟩, ⟨h, hbs, _, hb⟩ =>
    ⟨hr.stmt (.ifChain (length_branchesCopiedTo branches)) h,
      branchesMeet_copiedTo hr branches hbs, hr.list _, stmtsMeet_copiedTo hr otherwise hb⟩
  | ⟨.select _ cases, _, _⟩, ⟨h, hs, hc⟩ =>
    ⟨hr.stmt (.select (forall₂_casesCopiedTo cases)) h, hs, casesMeet_copiedTo hr cases hc⟩

/-- **Copied statements meet the rules that the statements meet.** -/
theorem stmtsMeet_copiedTo (hr : r.Shallow) :
    ∀ ss : List Stmt, stmtsMeet r ss → stmtsMeet r (stmtsCopiedTo site ss)
  | [], _ => trivial
  | s :: ss, ⟨h, hs⟩ => ⟨Stmt.Meets.copiedTo hr s h, stmtsMeet_copiedTo hr ss hs⟩

theorem branchesMeet_copiedTo (hr : r.Shallow) :
    ∀ bs : List Branch, branchesMeet r bs → branchesMeet r (branchesCopiedTo site bs)
  | [], _ => trivial
  | ⟨_, body⟩ :: rest, ⟨hc, _, hb, h⟩ =>
    ⟨hc, hr.list _, stmtsMeet_copiedTo hr body hb, branchesMeet_copiedTo hr rest h⟩

theorem casesMeet_copiedTo (hr : r.Shallow) :
    ∀ cs : List Case, casesMeet r cs → casesMeet r (casesCopiedTo site cs)
  | [], _ => trivial
  | ⟨_, _, body⟩ :: rest, ⟨h₁, h₂, _, hb, h⟩ =>
    ⟨h₁, h₂, hr.list _, stmtsMeet_copiedTo hr body hb, casesMeet_copiedTo hr rest h⟩

theorem functionsMeet_copiedTo (hr : r.Shallow) :
    ∀ fs : List FunctionDef, functionsMeet r fs → functionsMeet r (functionsCopiedTo site fs)
  | [], _ => trivial
  | ⟨_, _, _, body, _, _, _⟩ :: rest, ⟨_, hb, h⟩ =>
    ⟨hr.list _, stmtsMeet_copiedTo hr body hb, functionsMeet_copiedTo hr rest h⟩

end

end FlatScript
