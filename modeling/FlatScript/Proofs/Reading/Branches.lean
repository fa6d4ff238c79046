import FlatScript.Proofs.Compilation
import FlatScript.Proofs.Rule

/-!
# What parsed statements look like

The parser reads at least one condition for every `if`, so a chain of conditions that comes out
of it is never empty; and it reads every statement where it is written, so no statement remembers
a call that it was copied through. Nothing else is known of parsed statements: they meet every
rule that asks for no more, `FlatScript.Rule.Readable`, also when callbacks have been joined.

What a step of the parser can give is followed from step to step by
`FlatScript.Parser.Gives`, which does not ask from where the step starts and where it stops.

* `FlatScript.forked` says that every chain of conditions has one.
* `FlatScript.uncopied` says that no statement was copied.
-/

namespace FlatScript

/-! ### Rules that parsed statements meet -/

/-- **A rule that parsed statements meet.** -/
structure Rule.Readable (r : Rule) : Prop where
  mute : r.Mute
  stmt : ∀ k, (∀ otherwise, k ≠ .ifChain [] otherwise) → r.stmt k
  list : ∀ ss, (∀ s ∈ ss, s.trace = []) → r.list ss

/-- Statements that were written where they stand, in a body that meets a rule. -/
def asWritten (r : Rule) (ss : List Stmt) : Prop := (∀ s ∈ ss, s.trace = []) ∧ stmtsMeet r ss

theorem asWritten.bodyMeets {r : Rule} {ss : List Stmt} (h : asWritten r ss) (hr : r.Readable) :
    bodyMeets r ss :=
  ⟨hr.list ss h.1, h.2⟩

theorem asWritten.append {r : Rule} {ss ss' : List Stmt} (h : asWritten r ss)
    (h' : asWritten r ss') : asWritten r (ss ++ ss') :=
  ⟨List.forall_mem_append.mpr ⟨h.1, h'.1⟩, stmtsMeet_append.mpr ⟨h.2, h'.2⟩⟩

/-- **Every chain of conditions has one.** -/
def forked : Rule where
  expr _ := True
  stmt
    | .ifChain bs _ => bs ≠ []
    | _ => True
  list _ := True
  skips _ := false
  atom _ _ _ := False

theorem forked_mute : forked.Mute := fun _ => trivial

theorem forked_readable : forked.Readable where
  mute := forked_mute
  stmt k hk := by
    cases k with
    | ifChain bs otherwise =>
      rintro rfl
      exact hk otherwise rfl
    | _ => trivial
  list _ _ := trivial

/-- **Every statement remembers the same calls** that it was copied through. -/
def remembers (trace : List Span) : Rule where
  expr _ := True
  stmt _ := True
  list ss := ∀ s ∈ ss, s.trace = trace
  skips _ := false
  atom _ _ _ := False

theorem remembers_mute (trace : List Span) : (remembers trace).Mute := fun _ => trivial

/-- **No statement was copied.** -/
abbrev uncopied : Rule := remembers []

theorem uncopied_readable : uncopied.Readable where
  mute := remembers_mute []
  stmt _ _ := trivial
  list _ h := h

/-- Every chain of conditions of a script has one. -/
def Script.Forked (s : Script) : Prop := ∀ b ∈ s.blocks, stmtsMeet forked b.body

namespace Parser

/-! ### What a step gives -/

/-- **All that a step of the parser can give has a property.** -/
def Gives {α : Type} (x : Parse α) (Q : α → Prop) : Prop :=
  ∀ s a s', x.run s = .ok a s' → Q a

namespace Gives

variable {α β : Type} {x : Parse α} {f : α → Parse β} {P : α → Prop} {Q : β → Prop}

theorem ret {b : β} (h : Q b) : Gives (pure b : Parse β) Q := by
  intro s a s' hrun
  cases hrun
  exact h

theorem fail {e : ParseFault} : Gives (throw e : Parse β) Q := by
  intro s a s' hrun
  cases hrun

theorem bind (hx : Gives x P) (hf : ∀ a, P a → Gives (f a) Q) : Gives (x >>= f) Q := by
  intro s b s'' hrun
  rw [EStateM.run_bind] at hrun
  split at hrun
  · next a s' hx' => exact hf a (hx s a s' hx') s' b s'' hrun
  · cases hrun

/-- A step whose result does not matter, in front of another one. -/
theorem behind (hf : ∀ a, Gives (f a) Q) : Gives (x >>= f) Q :=
  bind (P := fun _ => True) (fun _ _ _ _ => trivial) fun a _ => hf a

theorem ite {c : Prop} [Decidable c] {y z : Parse β} (hy : Gives y Q) (hz : Gives z Q) :
    Gives (if c then y else z) Q := by
  split
  · exact hy
  · exact hz

theorem exhausted : Gives (Parser.exhausted : Parse β) Q := behind fun _ => fail

end Gives

/-! ### Statements -/

variable {r : Rule}

/-- A statement that is neither a chain of conditions nor has statements in it. -/
theorem meets_written (hr : r.Readable) {k : StmtKind} {span : Span} (h : match k with
      | .declare _ | .assign _ _ | .call _ | .synonym _ _ _ => True
      | _ => False) : (Stmt.written k span).Meets r := by
  have hmute := hr.mute
  cases k with
  | declare d => exact ⟨hr.stmt _ (by simp), hmute.declaration d⟩
  | assign target value =>
    exact .inr ⟨hr.stmt _ (by simp), hmute.varRef target, hmute.expr value⟩
  | call c => exact ⟨hr.stmt _ (by simp), hmute.args c.args⟩
  | synonym name indices target => exact ⟨hr.stmt _ (by simp), hmute.varRef target⟩
  | _ => exact h.elim

/-- What is known of the kind of a statement that is parsed. -/
def ReadKind (r : Rule) (k : StmtKind) : Prop := ∀ span, (Stmt.written k span).Meets r

theorem declaration_gives (hr : r.Readable) : Gives declaration (ReadKind r) :=
  .behind fun _ => .behind fun _ => .behind fun _ => .behind fun _ => .behind fun _ =>
    .behind fun _ => .behind fun _ => .ret fun _ => meets_written hr trivial

theorem assignOrCall_gives (hr : r.Readable) : Gives assignOrCall (ReadKind r) := by
  refine .behind fun token => .behind fun next => .ite ?_ (.ite ?_ ?_)
  · exact .behind fun args => .behind fun _ => .ret fun _ => meets_written hr trivial
  · exact .behind fun target => .behind fun _ => .behind fun value => .behind fun _ =>
      .ret fun _ => meets_written hr trivial
  · exact .behind fun _ => .ret fun _ => meets_written hr trivial

theorem callStatement_gives (hr : r.Readable) : Gives callStatement (ReadKind r) :=
  .behind fun _ => .behind fun _ => .ret fun _ => meets_written hr trivial

theorem synonymRest_gives (hr : r.Readable) (name : Ident) :
    Gives (synonymRest name) (ReadKind r) := by
  refine .behind fun _ => .ite ?_ ?_
  · exact .behind fun _ => .behind fun _ => .behind fun _ => .behind fun _ => .behind fun _ =>
      .behind fun _ => .behind fun _ => .ret fun _ => meets_written hr trivial
  · exact .behind fun _ => .behind fun _ => .behind fun _ => .behind fun _ =>
      .ret fun _ => meets_written hr trivial

/-- What the steps that call each other give, with a bound on them. -/
structure Reads (r : Rule) (fuel : Nat) : Prop where
  statements : Gives (statements fuel) (asWritten r)
  statement : Gives (statementFrom fuel) fun s => s.trace = [] ∧ s.Meets r
  branches : Gives (branchesFrom fuel) fun p =>
    p.1 ≠ [] ∧ branchesMeet r p.1 ∧ asWritten r p.2
  cases : Gives (casesFrom fuel) (casesMeet r)
  property : Gives (propertyFrom fuel) (ReadKind r)
  accessors : Gives (accessorsFrom fuel) (functionsMeet r)
  function : ∀ isOverride, Gives (functionFrom fuel isOverride) fun f => asWritten r f.body

theorem reads (hr : r.Readable) (fuel : Nat) : Reads r fuel := by
  have hmute := hr.mute
  induction fuel with
  | zero =>
    exact ⟨.exhausted, .exhausted, .exhausted, .exhausted, .exhausted, .exhausted,
      fun _ => .exhausted⟩
  | succ fuel ih =>
    -- Each step reads its own words and then gives what the steps below the bound give.
    constructor
    case statements =>
      refine .behind fun _ => .behind fun token => .ite (.ret ⟨by simp, trivial⟩) ?_
      exact ih.statement.bind fun s hs => ih.statements.bind fun ss hss =>
        .ret ⟨List.forall_mem_cons.mpr ⟨hs.1, hss.1⟩, hs.2, hss.2⟩
    case statement =>
      refine .behind fun token => ?_
      have hwritten : ∀ k, ReadKind r k →
          Gives (pure (Stmt.written k token.span)) fun s => s.trace = [] ∧ s.Meets r :=
        fun k hk => .ret ⟨rfl, hk _⟩
      have hread : ∀ {k}, ReadKind r k → Gives (pure k) (ReadKind r) := .ret
      dsimp only
      split
      · exact (declaration_gives hr).bind hwritten
      · exact ih.property.bind hwritten
      · exact .behind fun cond => ih.statements.bind fun body hbody => .behind fun _ =>
          .bind (hread fun _ => ⟨hr.stmt _ (by simp), hmute.expr cond, hbody.bodyMeets hr⟩)
            hwritten
      · exact .behind fun head => ih.statements.bind fun body hbody => .behind fun _ =>
          .bind (hread fun _ => ⟨hr.stmt _ (by simp), hmute.varRef _, hmute.expr _,
            hmute.expr _, fun e _ => hmute.expr e, hbody.bodyMeets hr⟩) hwritten
      · exact ih.branches.bind fun p hp => .behind fun _ =>
          .bind (hread fun _ => ⟨hr.stmt _ (by simp [hp.1]), hp.2.1, hp.2.2.bodyMeets hr⟩)
            hwritten
      · exact .behind fun subject => ih.cases.bind fun cs hcs => .behind fun _ =>
          .bind (hread fun _ => ⟨hr.stmt _ (by simp), hmute.expr subject, hcs⟩) hwritten
      · exact .behind fun _ => .behind fun name => .behind fun _ =>
          ih.statements.bind fun body hbody => .behind fun _ =>
            .bind (hread fun _ => ⟨hr.stmt _ (by simp), hbody.bodyMeets hr⟩) hwritten
      · exact (callStatement_gives hr).bind hwritten
      · exact (assignOrCall_gives hr).bind hwritten
      · exact .bind (P := fun _ => False) .fail fun _ h => h.elim
    case branches =>
      refine .behind fun cond => ih.statements.bind fun body hbody => .behind fun _ => ?_
      have hbranch : ∀ rest, branchesMeet r rest → branchesMeet r (⟨cond, body⟩ :: rest) :=
        fun _ hrest => ⟨hmute.expr cond, hr.list _ hbody.1, hbody.2, hrest⟩
      refine .ite (.behind fun _ => .ite ?_ ?_) (.ret ⟨by simp, hbranch [] trivial, by simp, trivial⟩)
      · exact ih.branches.bind fun p hp => .ret ⟨by simp, hbranch _ hp.2.1, hp.2.2⟩
      · exact .behind fun _ => ih.statements.bind fun otherwise ho =>
          .ret ⟨by simp, hbranch [] trivial, ho⟩
    case cases =>
      refine .behind fun _ => .behind fun _ => .ite (.behind fun head => ?_) (.ret trivial)
      exact ih.statements.bind fun body hbody => ih.cases.bind fun cs hcs =>
        .ret ⟨hmute.expr _, fun e _ => hmute.expr e, hr.list _ hbody.1, hbody.2, hcs⟩
    case property =>
      refine .behind fun _ => .behind fun token => .behind fun next =>
        .ite (synonymRest_gives hr _) (.behind fun _ => ?_)
      exact ih.accessors.bind fun fs hfs => .behind fun _ =>
        .ret fun _ => ⟨hr.stmt _ (by simp), hfs⟩
    case accessors =>
      refine .behind fun _ => .behind fun _ => .ite ?_ (.ret trivial)
      refine (ih.function false).bind fun f hf => ih.accessors.bind fun fs hfs => .ret ?_
      obtain ⟨name, params, result, body, isTaskfunc, isOverride, span⟩ := f
      exact ⟨hr.list _ hf.1, hf.2, hfs⟩
    case function =>
      exact fun isOverride => .behind fun head => ih.statements.bind fun body hbody =>
        .behind fun _ => .ret hbody

/-! ### Scripts -/

theorem callback_gives (hr : r.Readable) : Gives callback fun c => asWritten r c.body :=
  .behind fun _ => .behind fun _ => .behind fun _ => .behind fun _ =>
    .bind (.behind fun s => (reads hr (bound s)).statements) fun _ hbody =>
      .behind fun _ => .ret hbody

theorem block_gives (hr : r.Readable) : Gives block fun b => asWritten r b.body := by
  have hfunction : ∀ isOverride, Gives (function isOverride) fun f => asWritten r f.body :=
    fun isOverride => .behind fun s => (reads hr (bound s)).function isOverride
  refine .behind fun token => ?_
  split
  · exact (callback_gives hr).bind fun c hc => .ret hc
  · exact .behind fun _ => (hfunction true).bind fun f hf => .ret hf
  · exact (hfunction false).bind fun f hf => .ret hf
  · exact (hfunction false).bind fun f hf => .ret hf
  · exact .fail

theorem blocks_asWritten (hr : r.Readable) : ∀ (fuel : Nat) (s : State),
    ∀ b ∈ (blocks fuel s).1, asWritten r b.body
  | 0, _ => by simp [blocks]
  | fuel + 1, s => by
    unfold blocks
    dsimp only
    split
    · simp
    · split
      · next b s' hrun =>
        intro b' hb'
        rcases List.mem_cons.mp hb' with rfl | hb'
        · exact block_gives hr _ _ _ hrun
        · exact blocks_asWritten hr fuel s' b' hb'
      · next fault s' _ => exact blocks_asWritten hr fuel s'.synchronize

end Parser

/-- **The bodies of a parsed script are as they are written.** -/
theorem Script.asWritten_of_parse {r : Rule} (hr : r.Readable) {source : String} {lines : Lines}
    {s : Script} (h : Script.parse source lines = .ok s) : ∀ b ∈ s.blocks, asWritten r b.body := by
  unfold Script.parse at h
  dsimp only at h
  split at h
  · cases h
    exact Parser.blocks_asWritten hr _ _
  · cases h

theorem Script.asWritten_joinInto {r : Rule} {c : Callback} (hc : asWritten r c.body) :
    ∀ {bs bs' : List Block}, (∀ b ∈ bs, asWritten r b.body) → joinInto c bs = some bs' →
      ∀ b ∈ bs', asWritten r b.body
  | [], _, _, h => by cases h
  | .callback d :: rest, bs', hbs, h => by
    have hrest : ∀ b ∈ rest, asWritten r b.body := fun b hb => hbs b (by simp [hb])
    have hd : asWritten r d.body := hbs (.callback d) (by simp)
    unfold joinInto at h
    split at h
    · cases h
      exact List.forall_mem_cons.mpr ⟨hd.append hc, hrest⟩
    · obtain ⟨rest', hjoin, rfl⟩ := Option.map_eq_some_iff.mp h
      exact List.forall_mem_cons.mpr ⟨hd, asWritten_joinInto hc hrest hjoin⟩
  | .function f :: rest, bs', hbs, h => by
    obtain ⟨rest', hjoin, rfl⟩ := Option.map_eq_some_iff.mp h
    exact List.forall_mem_cons.mpr ⟨hbs (.function f) (by simp),
      asWritten_joinInto hc (fun b hb => hbs b (by simp [hb])) hjoin⟩

theorem Script.asWritten_joinBlock {r : Rule} {bs : List Block}
    (hbs : ∀ b ∈ bs, asWritten r b.body) {b : Block} (hb : asWritten r b.body) :
    ∀ b' ∈ joinBlock bs b, asWritten r b'.body := by
  have hbehind : ∀ b' ∈ bs ++ [b], asWritten r b'.body :=
    List.forall_mem_append.mpr ⟨hbs, by simpa using hb⟩
  cases b with
  | callback c =>
    simp only [joinBlock]
    cases hjoin : joinInto c bs with
    | none => exact hbehind
    | some bs' => exact asWritten_joinInto hb hbs hjoin
  | function f => exact hbehind

/-- Joined callbacks are as they are written. -/
theorem Script.asWritten_combineCallbacks {r : Rule} {s : Script}
    (hs : ∀ b ∈ s.blocks, asWritten r b.body) :
    ∀ b ∈ s.combineCallbacks.blocks, asWritten r b.body := by
  have hfold : ∀ (bs acc : List Block), (∀ b ∈ bs, asWritten r b.body) →
      (∀ b ∈ acc, asWritten r b.body) →
      ∀ b ∈ bs.foldl joinBlock acc, asWritten r b.body := by
    intro bs
    induction bs with
    | nil => exact fun acc _ hacc => hacc
    | cons b bs ih =>
      intro acc hbs hacc
      have ⟨hb, hrest⟩ := List.forall_mem_cons.mp hbs
      exact ih _ hrest (asWritten_joinBlock hacc hb)
  exact hfold s.blocks [] hs (by simp)

/-- The bodies of a parsed script are as they are written, also when its callbacks have been
joined. -/
theorem Script.bodyMeets_of_parse {r : Rule} (hr : r.Readable) {source : String} {lines : Lines}
    {s : Script} (h : Script.parse source lines = .ok s) (combine : Bool) :
    ∀ b ∈ (if combine then s.combineCallbacks else s).blocks, bodyMeets r b.body := by
  have hparsed := Script.asWritten_of_parse hr h
  split
  · exact fun b hb => (Script.asWritten_combineCallbacks hparsed b hb).bodyMeets hr
  · exact fun b hb => (hparsed b hb).bodyMeets hr

theorem Compilation.joined_forked {env : Env} {o : Options} {source : String}
    (r : Compilation env o source) : r.joined.Forked :=
  fun b hb => (Script.bodyMeets_of_parse forked_readable r.parse_eq o.combineCallbacks b hb).2

end FlatScript
