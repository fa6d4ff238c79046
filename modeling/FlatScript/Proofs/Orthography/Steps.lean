import FlatScript.Proofs.Dialect
import FlatScript.Proofs.Inlining.Arguments
import FlatScript.Proofs.Orthography.Lowered
import FlatScript.Proofs.Sigils

/-!
# Orthography and the other steps

No step but lowering brings a namespace into a script. What the others make of a name is a name
with a sigil, with the end of another one behind it, with `.get` or `.set`, without dots, or a short
one. So each of them leaves behind what it finds: the theorems on `FlatScript.Obeyed` go from step
to step.
-/

namespace FlatScript

variable {o : Orthography} {env : Env} {s s' : Script} {p p' : Program}

/-! ### Joining -/

theorem obeys_joinInto {c : Callback} (hc : stmtsMeet o.rule c.body) :
    ∀ {bs bs' : List Block}, (∀ b ∈ bs, b.Obeys o) → Script.joinInto c bs = some bs' →
      ∀ b ∈ bs', b.Obeys o
  | [], _, _, h => by cases h
  | .callback d :: rest, bs', hbs, h => by
    rw [List.forall_mem_cons] at hbs
    obtain ⟨⟨hname, hcontrol, hbody⟩, hrest⟩ := hbs
    unfold Script.joinInto at h
    split at h
    · cases h
      exact List.forall_mem_cons.mpr ⟨⟨hname, hcontrol, stmtsMeet_append.mpr ⟨hbody, hc⟩⟩, hrest⟩
    · obtain ⟨rest', hjoin, rfl⟩ := Option.map_eq_some_iff.mp h
      exact List.forall_mem_cons.mpr
        ⟨⟨hname, hcontrol, hbody⟩, obeys_joinInto hc hrest hjoin⟩
  | .function f :: rest, bs', hbs, h => by
    rw [List.forall_mem_cons] at hbs
    obtain ⟨rest', hjoin, rfl⟩ := Option.map_eq_some_iff.mp h
    exact List.forall_mem_cons.mpr ⟨hbs.1, obeys_joinInto hc hbs.2 hjoin⟩

theorem obeys_joinBlock {bs : List Block} (hbs : ∀ b ∈ bs, b.Obeys o) {b : Block}
    (hb : b.Obeys o) : ∀ b' ∈ Script.joinBlock bs b, b'.Obeys o := by
  have hbehind : ∀ b' ∈ bs ++ [b], b'.Obeys o :=
    List.forall_mem_append.mpr ⟨hbs, by simpa using hb⟩
  cases b with
  | callback c =>
    simp only [Script.joinBlock]
    cases hjoin : Script.joinInto c bs with
    | none => exact hbehind
    | some bs' => exact obeys_joinInto hb.2.2 hbs hjoin
  | function f => exact hbehind

theorem Obeyed.combine (hs : Obeyed o s p) : Obeyed o s.combineCallbacks p := by
  have hfold : ∀ (bs joined : List Block), (∀ b ∈ bs, b.Obeys o) → (∀ b ∈ joined, b.Obeys o) →
      ∀ b ∈ bs.foldl Script.joinBlock joined, b.Obeys o := by
    intro bs
    induction bs with
    | nil => exact fun joined _ hjoined => hjoined
    | cons b bs ih =>
      intro joined hbs hjoined
      rw [List.forall_mem_cons] at hbs
      exact ih _ hbs.2 (obeys_joinBlock hjoined hbs.1)
  exact ⟨hfold s.blocks [] hs.blocks (by simp), hs.functions, hs.nodup⟩

/-! ### Sigils -/

/-- A block with its leaves changed, when its control stays as it should be. -/
theorem Block.Obeys.mapLeaves {ε : Type} {f : LeafMap ε} (hf : f.Carries o.rule o.rule)
    {control : Ident → Except ε Ident}
    (hcontrol : ∀ i j, control i = .ok j → o.reference i.sigil i.name → o.reference j.sigil j.name)
    {b b' : Block} (hb : b.Obeys o) (h : b.MapLeaves f control b') : b'.Obeys o := by
  have hbody := hf.block hb.body h
  cases h with
  | callback hbound _ =>
    refine ⟨hb.1, fun j hj => ?_, hbody⟩
    obtain ⟨i, hi, hij⟩ := exists_mem_of_optionRel (Except.mapM_option_eq_ok.mp hbound) hj
    exact hcontrol i j hij (hb.2.1 i hi)
  | function hf' =>
    obtain ⟨body, -, hf'⟩ := Except.bind_eq_ok.mp hf'
    cases hf'
    exact ⟨⟨hb.1.name, hb.1.params⟩, hbody⟩

namespace Sigils

variable {scope : Scope}

/-- A name that has got its sigil. -/
theorem reference_ident (ho : o.Stays) {i j : Ident} {subscripted : Bool}
    (h : ident env p scope i subscripted = .ok j) (hi : o.reference i.sigil i.name) :
    o.reference j.sigil j.name := by
  unfold ident resolve at h
  split at h
  · split at h
    · cases h
      exact hi
    · split at h <;> cases h
      exact ho.sigil hi
  · split at h
    · cases h
      exact hi
    · split at h <;> cases h

/-- Expressions keep to an orthography when they get their sigils. -/
theorem obeys_carries (ho : o.Stays) (env : Env) (p : Program) (scope : Scope) :
    Carries env p scope o.rule o.rule where
  atom h := h.elim
  binary _ := trivial
  unary _ := trivial
  literal _ h := h
  var h _ hj := reference_ident ho hj h
  call h := h
  skips h := h
  kept _ := .inr fun _ h => h

theorem carries_rule (ho : o.Stays) (env : Env) (p : Program) :
    (leafMap env p).Carries o.rule o.rule where
  expr _ he h := (obeys_carries ho env p _).ofExpr _ he h
  target _ hv h := (obeys_carries ho env p _).ofVarRef hv h
  call _ hk ha h := by
    obtain ⟨args, hargs, rfl⟩ := call_eq_ok h
    exact ⟨hk, (obeys_carries ho env p _).ofArguments _ ha hargs⟩
  assign _ _ _ := trivial
  whole _ h _ _ := h.elim
  accessors _ _ _ := trivial
  reshape := Orthography.reshaped
  list _ _ := trivial

end Sigils

theorem FunctionEntry.Obeys.sigils (ho : o.Stays) {e e' : FunctionEntry} (he : e.Obeys o)
    (h : Sigils.entry env p e = .ok e') : e'.Obeys o := by
  obtain ⟨body, globals, locals, hbody, hglobals, hlocals, rfl⟩ := Sigils.entry_eq_ok h
  have hcarries := Sigils.carries_rule ho env p
  have hdecls := stmtsMeet_append.mp he.decls
  exact ⟨⟨he.head.name, he.head.params⟩, hcarries.stmts trivial _ he.body hbody,
    stmtsMeet_append.mpr ⟨hcarries.stmts trivial _ hdecls.1 hglobals,
      hcarries.stmts trivial _ hdecls.2 hlocals⟩⟩

theorem Obeyed.sigils (ho : o.Stays) (hs : Obeyed o s p)
    (h : (Sigils.script env s).run p = .ok (s', p')) : Obeyed o s' p' := by
  obtain ⟨hblocks, functions, rfl, hfunctions⟩ := Sigils.script_run h
  refine ⟨fun b hb => ?_, fun e he => ?_, ?_⟩
  · obtain ⟨b₀, hb₀, hmap⟩ := exists_mem_of_forall₂ hblocks hb
    exact (hs.blocks b₀ hb₀).mapLeaves (Sigils.carries_rule ho env p)
      (fun _ _ => Sigils.reference_ident ho) hmap
  · obtain ⟨e₀, he₀, hentry⟩ := exists_mem_of_forall₂ hfunctions he
    exact (hs.functions e₀ he₀).sigils ho hentry
  · change (functions.map FunctionEntry.name).Nodup
    rw [Sigils.names_eq hfunctions]
    exact hs.nodup

/-! ### Controls -/

theorem Controls.carries_rule (ho : o.Stays) : Controls.Carries o.rule o.rule where
  binary _ := trivial
  unary _ := trivial
  var h _ _ := h
  call h := h
  literal _ h := h
  id := ⟨ho.ownFunction "get_ui_id" (by simp [Orthography.ownFunctions]), fun _ => rfl⟩
  callStmt h := h
  assign _ := trivial
  skips _ h := h
  noAtom h := h
  noWhole h := h
  reshape := Orthography.reshaped
  list _ := trivial

theorem Obeyed.controls (ho : o.Stays) (hs : Obeyed o s p)
    (h : (Controls.script env s).run p = .ok (s', p')) : Obeyed o s' p' := by
  obtain ⟨rfl, hmap⟩ := Controls.script_run h
  refine ⟨fun b hb => ?_, hs.functions, hs.nodup⟩
  obtain ⟨b₀, hb₀, hmap⟩ := exists_mem_of_forall₂ (Script.mapLeaves_eq_ok hmap) hb
  refine (hs.blocks b₀ hb₀).mapLeaves ((Controls.carries_rule ho).leafMap env _) ?_ hmap
  rintro i j ⟨⟩ hi
  exact hi

/-! ### Arguments in the place of parameters -/

namespace Substitution

variable {σ : Substitution} {trace : List Span}

theorem callee_functionName (ho : o.Stays) (hσ : ∀ pair ∈ σ, pair.2.Meets o.rule)
    {name name' : Ident} {span : Span} (hname : o.callee name.sigil name.name)
    (h : functionName env σ trace name span = .ok name') : o.callee name'.sigil name'.name := by
  unfold functionName at h
  split at h
  · cases h
    exact hname
  · next hfound =>
    cases h
    exact ho.mergedCallee hname (hσ _ (mem_of_find? hfound)).1
  · cases h

/-- Arguments that obey an orthography keep expressions to it. -/
theorem obeys_carries (ho : o.Stays) (env : Env) (hσ : ∀ pair ∈ σ, pair.2.Meets o.rule) :
    Carries env σ o.rule o.rule where
  value _ hfind := hσ _ (mem_of_find? hfind)
  atom h := h.elim
  binary _ := trivial
  unary _ := trivial
  literal _ h := h
  var h _ _ := h
  merged h hfind := ho.merged h (hσ _ (mem_of_find? hfind)).1
  call h hname _ := ⟨⟨callee_functionName ho hσ h.1 hname, h.2⟩, id⟩

theorem carries_rule (ho : o.Stays) (env : Env) (hσ : ∀ pair ∈ σ, pair.2.Meets o.rule) :
    (leafMap env σ).Carries o.rule o.rule where
  expr _ he h := (obeys_carries ho env hσ).ofExpr _ he h
  target _ hv h := (obeys_carries ho env hσ).ofTarget hv h
  call _ hk ha h := by
    obtain ⟨name, args, hname, hargs, rfl⟩ := call_eq_ok h
    exact ⟨⟨callee_functionName ho hσ hk.1 hname, hk.2⟩,
      (obeys_carries ho env hσ).ofArgs id _ ha hargs⟩
  assign _ _ _ := trivial
  whole _ h _ _ := h.elim
  accessors _ _ _ := trivial
  reshape := Orthography.reshaped
  list _ _ := trivial

end Substitution

/-! ### Expansion -/

theorem FunctionEntry.Obeys.grows {e e' : FunctionEntry} (he : e.Obeys o) (h : e.Grows e') :
    e'.Obeys o := by
  refine ⟨h.fn ▸ he.head, h.fn ▸ he.body, ?_⟩
  rcases h.decls with ⟨hg, hl⟩ | ⟨hg, hl⟩
  · rw [hg, hl]
    exact he.decls
  · rw [hg, hl]
    trivial

namespace Orthography

/-- The cells of the stack that arguments are passed in. -/
theorem Stays.argumentSlot (ho : o.Stays) (count i : Nat) (span : Span) :
    (Inlining.argumentSlot count i span).Meets o.rule :=
  ho.slot (by simp [ownVariables]) _ _ _

/-- **Expansion keeps an orthography**, when the functions it copies obey it. -/
def expansion (ho : o.Stays) (env : Env) (p₀ : Program) (hp₀ : ∀ e ∈ p₀.functions, e.Obeys o) :
    Inlining.Scheme env p₀ where
  src _ := o.rule
  dst _ _ := o.rule
  site _ name standing isProcedure :=
    o.callee name.sigil name.name ∧ (o.placed → isProcedure = standing)
  here _ _ := True
  ready _ body _ := stmtsMeet o.rule body
  mono _ := .refl _
  skips := rfl
  back h := h
  raw _ h := .inr h
  atom h := h.elim
  binary _ := trivial
  unary _ := trivial
  var _ h _ := h
  literal {_ _ e} _ h := h
  builtin _ h _ _ _ := h
  builtinStmt _ h _ _ _ := ⟨h, fun _ _ => trivial⟩
  siteOfCall h := h
  siteOfStmt h := h
  siteOfName h _ := ⟨ho.called h, fun _ => rfl⟩
  siteOfGetter h _ _ := ⟨ho.getter h (.inl rfl), fun _ => rfl⟩
  siteOfSetter h _ _ := ⟨ho.getter h (.inr rfl), fun _ => rfl⟩
  nil := trivial
  append _ _ := trivial
  assign _ _ := ⟨trivial, fun _ _ => trivial⟩
  reshape hk h := ⟨reshaped hk h, fun _ _ => trivial⟩
  kept _ h _ _ _ _ _ := ⟨h, fun _ _ => trivial⟩
  noWhole h := h
  stored _ _ hv trace := meets_assign (ho.argumentSlot _ _ _) hv _ trace
  loaded _ _ ht trace := meets_assign ht (ho.argumentSlot _ _ _) _ trace
  single h := by
    obtain ⟨-, h, -⟩ := h
    rcases h with h | ⟨-, -, hv⟩
    · exact h.elim
    · exact hv
  taskfunc _ h _ _ _ _ _ _ _ _ := ⟨⟨h.1, fun _ => rfl⟩, trivial⟩
  readyNil _ _ _ _ := trivial
  readyDecls hp _ he _ _ _ := by
    obtain ⟨e₀, he₀, hgrows⟩ := hp.exists_before he
    exact ((hp₀ e₀ (Program.mem_functions_of_function? he₀).1).grows hgrows).decls
  readyBody hp _ he _ _ hσ _ h := by
    obtain ⟨e₀, he₀, hgrows⟩ := hp.exists_before he
    have hobeys := (hp₀ e₀ (Program.mem_functions_of_function? he₀).1).grows hgrows
    exact (Substitution.carries_rule ho env fun b hb => (hσ b hb).2).stmts trivial _
      (stmtsMeet_copiedTo ⟨reshaped, fun _ => trivial⟩ _ hobeys.body) h

end Orthography

theorem Obeyed.expand (ho : o.Stays) (hs : Obeyed o s p)
    (h : (Inlining.script env s).run p = .ok (s', p')) : Obeyed o s' p' := by
  have hclosed : (Orthography.expansion ho env p hs.functions).Closed :=
    fun _ _ _ hready => ⟨trivial, hready⟩
  have hstarts : (Orthography.expansion ho env p hs.functions).Starts (Inlining.expand env)
      (Inlining.expand env) s.blocks :=
    ⟨fun c hc q hq => hclosed.expand_runs trivial (hs.blocks (.callback c) hc).body hq,
      fun e he _ q hq => hclosed.expand_runs trivial (hs.functions e he).body hq⟩
  obtain ⟨p₁, bodies, hgrows, rfl, hblocks, hbodies⟩ := Inlining.Scheme.script_run hstarts h
  refine ⟨fun b hb => ?_, fun e he => ?_, ?_⟩
  · obtain ⟨b₀, hb₀, c, body, rfl, rfl, hbody⟩ := exists_mem_of_forall₂ hblocks hb
    have hold := hs.blocks (.callback c) hb₀
    exact ⟨hold.1, hold.2.1, hbody.2⟩
  · obtain ⟨e₁, he₁, rfl⟩ := List.mem_map.mp he
    obtain ⟨e₀, he₀, hgrow⟩ := hgrows.mem_before he₁
    have hobeys := (hs.functions e₀ he₀).grows hgrow
    rcases Inlining.withBody_cases bodies e₁ with heq | ⟨body, hmem, heq⟩
    · rwa [heq]
    · rw [heq]
      exact ⟨⟨hobeys.head.name, hobeys.head.params⟩, (hbodies.meets _ hmem).2, hobeys.decls⟩
  · simp only [List.map_map, Function.comp_def, Inlining.withBody_name]
    exact hgrows.names ▸ hs.nodup

/-! ### Frames -/

namespace Taskfunc

variable (ho : o.Stays)

include ho

theorem obeys_slotsFrom (span : Span) :
    ∀ (names : List String) (offset : Nat),
      ∀ pair ∈ slotsFrom span offset names, pair.2.Meets o.rule
  | [], _ => by simp [slotsFrom]
  | name :: names, offset => by
    rw [slotsFrom, List.forall_mem_cons]
    exact ⟨ho.slot (by simp [Orthography.ownVariables]) _ _ _,
      obeys_slotsFrom span names (offset + 1)⟩

theorem obeys_slots (e : FunctionEntry) : ∀ pair ∈ slots e, pair.2.Meets o.rule :=
  fun pair hpair => obeys_slotsFrom ho _ _ _ pair (List.mem_reverse.mp hpair)

/-- The pointers of a frame. -/
theorem obeys_framePointer (span : Span) : (Frame.fixedVar Frame.framePointer span).Meets o.rule :=
  ho.fixedVar (by simp [Orthography.ownVariables]) span

theorem obeys_stackPointer (span : Span) : (Frame.fixedVar Frame.stackPointer span).Meets o.rule :=
  ho.fixedVar (by simp [Orthography.ownVariables]) span

/-- The stack pointer, moved. -/
theorem obeys_moved (op : BinaryOp) (size : Int32) (span : Span) :
    ((Frame.fixedVar Frame.stackPointer span).toExpr.op op (.int size span)).Meets o.rule :=
  .inr ⟨trivial, obeys_stackPointer ho span, trivial⟩

theorem obeys_enter (size : Nat) (span : Span) : stmtsMeet o.rule (enter size span) := by
  have hfp := obeys_framePointer ho span
  have hsp := obeys_stackPointer ho span
  have hcell : (Frame.slot Frame.stackPointer .sub size span).Meets o.rule :=
    ho.slot (by simp [Orthography.ownVariables]) _ _ _
  exact ⟨Orthography.meets_assign hcell hfp _ _,
    Orthography.meets_assign hfp (obeys_moved ho _ _ _) _ _,
    Orthography.meets_assign hsp hfp _ _, trivial⟩

theorem obeys_leave (size : Nat) (span : Span) : stmtsMeet o.rule (leave size span) := by
  have hfp := obeys_framePointer ho span
  have hsp := obeys_stackPointer ho span
  have hcell : (Frame.slot Frame.framePointer .add 0 span).Meets o.rule :=
    ho.slot (by simp [Orthography.ownVariables]) _ _ _
  exact ⟨Orthography.meets_assign hsp hfp _ _, Orthography.meets_assign hfp hcell _ _,
    Orthography.meets_assign hsp (obeys_moved ho _ _ _) _ _, trivial⟩

end Taskfunc

theorem FunctionEntry.Obeys.withFrame (ho : o.Stays) {e e' : FunctionEntry} (he : e.Obeys o)
    (h : Taskfunc.withFrame env e = .ok e') : e'.Obeys o := by
  rcases Taskfunc.withFrame_eq_ok h with ⟨-, rfl⟩ | ⟨-, -, body, hsubst, rfl⟩
  · exact he
  · have hbody := (Substitution.carries_rule ho env (Taskfunc.obeys_slots ho e)).stmts trivial _
      he.body hsubst
    refine ⟨⟨he.head.name, by simp⟩, ?_, he.decls⟩
    simp only [stmtsMeet_append]
    exact ⟨⟨Taskfunc.obeys_enter ho _ _, hbody⟩, Taskfunc.obeys_leave ho _ _⟩

theorem Obeyed.frames (ho : o.Stays) (hs : Obeyed o s p)
    (h : (Taskfunc.program env).run p = .ok ((), p')) : Obeyed o s p' := by
  obtain ⟨functions, rfl, hfunctions⟩ := Taskfunc.program_run h
  refine ⟨hs.blocks, fun e he => ?_, ?_⟩
  · obtain ⟨e₀, he₀, hframe⟩ := exists_mem_of_forall₂ hfunctions he
    exact (hs.functions e₀ he₀).withFrame ho hframe
  · change (functions.map FunctionEntry.name).Nodup
    rw [map_eq_of_forall₂ hfunctions fun _ _ => Taskfunc.withFrame_name]
    exact hs.nodup

/-! ### Arrangement -/

theorem Obeyed.arrange (hs : Obeyed o s p) (h : (Arrangement.script s).run p = .ok (s', p')) :
    Obeyed o s' p' := by
  obtain ⟨init, rest, hblocks, hblocks', rfl⟩ := Arrangement.script_run h
  have hmarked : ∀ e ∈ Arrangement.markUsed p, e.Obeys o := by
    intro e he
    obtain ⟨e₀, he₀, used, rfl⟩ := Arrangement.mem_markUsed he
    exact ⟨(hs.functions e₀ he₀).head, (hs.functions e₀ he₀).body, (hs.functions e₀ he₀).decls⟩
  refine ⟨fun b hb => ?_, ?_, ?_⟩
  · rw [hblocks'] at hb
    have hinit := hs.blocks (.callback init) (by simp [hblocks])
    rcases List.mem_cons.mp hb with rfl | hb
    · exact ⟨hinit.1, hinit.2.1,
        Arrangement.meets_hoist (fun e he => (hmarked e he).decls) hinit.body⟩
    · rcases List.mem_append.mp hb with hb | hb
      · obtain ⟨f, hf, rfl⟩ := List.mem_map.mp hb
        obtain ⟨-, e, he, -, rfl⟩ := Arrangement.mem_written hf
        exact ⟨(hmarked e he).head, (hmarked e he).body⟩
      · exact hs.blocks b (by simp [hblocks, hb])
  · simp only [List.forall_mem_map]
    intro e he
    unfold Arrangement.withoutHoisted
    split
    · exact ⟨(hmarked e he).head, (hmarked e he).body, trivial⟩
    · exact hmarked e he
  · have hnames : ((Arrangement.markUsed p).map Arrangement.withoutHoisted).map FunctionEntry.name =
        p.functions.map FunctionEntry.name := by
      simp only [List.map_map, Arrangement.markUsed]
      refine List.map_congr_left fun e _ => ?_
      simp only [Function.comp_apply, Arrangement.withoutHoisted]
      split <;> rfl
    change (((Arrangement.markUsed p).map Arrangement.withoutHoisted).map FunctionEntry.name).Nodup
    rw [hnames]
    exact hs.nodup

/-! ### Renaming -/

/-- **A renaming that keeps an orthography.** -/
structure Renaming.Keeps (o : Orthography) (f : Renaming) : Prop where
  reference : ∀ i, o.reference i.sigil i.name → o.reference (f.name i).sigil (f.name i).name
  callee : ∀ i, o.callee i.sigil i.name → o.callee (f.name i).sigil (f.name i).name
  declared : ∀ i, o.declared i.name → o.declared (f.name i).name
  function : ∀ i, o.title i.name → o.title (f.function i).name

theorem Renaming.listed (f : Renaming) {d : Declaration} (h : d.Listed) :
    (f.declaration d).Listed := by
  intro i' hi'
  obtain ⟨i, hi, rfl⟩ := Option.map_eq_some_iff.mp hi'
  cases i with
  | single e => trivial
  | list es =>
    have hlisted : d.size.isSome = true ∨ 2 ≤ es.length := h _ hi
    rw [initializer, Initializer.Listed, length_exprs]
    simpa [declaration] using hlisted

namespace Renaming.Keeps

variable {f : Renaming}

theorem heads (hf : f.Keeps o) : ∀ {fs : List FunctionDef},
    (∀ g ∈ fs, o.Head g) → ∀ g ∈ f.functions fs, o.Head g
  | [], _ => by simp [Renaming.functions]
  | ⟨_, _, _, _, _, _, _⟩ :: _, h => by
    rw [List.forall_mem_cons] at h
    rw [Renaming.functions, List.forall_mem_cons]
    exact ⟨⟨hf.function _ h.1.name, h.1.params⟩, hf.heads h.2⟩

theorem carries (hf : f.Keeps o) : f.Carries o.rule o.rule where
  expr {e} h := by
    cases e with
    | var i _ _ =>
      simp only [Renaming.expr]
      exact hf.reference i h
    | call name _ _ _ _ =>
      simp only [Renaming.expr]
      exact ⟨hf.callee name h.1, h.2⟩
    | _ =>
      simp only [Renaming.expr]
      exact h
  stmt {k} _ _ h := by
    cases k with
    | property name fs =>
      simp only [Renaming.stmt]
      exact ⟨h.1, hf.heads h.2⟩
    | declare d =>
      simp only [Renaming.stmt]
      exact ⟨hf.declared d.name h.1, h.2.1, fun hplaced => f.listed (h.2.2 hplaced)⟩
    | call c =>
      simp only [Renaming.stmt]
      exact ⟨hf.callee c.name h.1, h.2⟩
    | _ =>
      simp only [Renaming.stmt]
      exact h
  list _ := trivial
  skipsExpr _ h := h
  skipsStmt _ h := h
  atom h := h
  whole h := h

theorem block (hf : f.Keeps o) {b : Block} (hb : b.Obeys o) : (f.block b).Obeys o := by
  cases b with
  | callback c =>
    refine ⟨hb.1, fun i hi => ?_, hf.carries.ofStmts c.body hb.2.2⟩
    obtain ⟨j, hj, rfl⟩ := Option.map_eq_some_iff.mp hi
    exact hf.reference j (hb.2.1 j hj)
  | function g => exact ⟨⟨hf.function _ hb.1.name, hb.1.params⟩, hf.carries.ofStmts g.body hb.2⟩

end Renaming.Keeps

theorem Obeyed.rename (hs : Obeyed o s p) {f : Renaming} (hf : f.Keeps o)
    (hp : p'.functions = p.functions) : Obeyed o (f.script s) p' := by
  refine ⟨?_, hp ▸ hs.functions, hp ▸ hs.nodup⟩
  simp only [Renaming.script, List.forall_mem_map]
  exact fun b hb => hf.block (hs.blocks b hb)

theorem Obeyed.undot (ho : o.Stays) (hs : Obeyed o s p)
    (h : (Undotting.script s).run p = .ok (s', p')) : Obeyed o s' p' := by
  cases h
  exact hs.rename ⟨fun _ h => ho.undotted h, fun _ h => ho.undottedCallee h,
    fun _ h => ho.undottedDeclared h, fun _ h => ho.undottedTitle h⟩ rfl

/-! ### Short names -/

/-- A name is kept, or it gets letters behind a sigil. -/
theorem Compaction.ident_letters {t : ShortNames}
    (ht : ∀ pair ∈ t.pairs, pair.2 = shortName pair.1) (i : Ident) :
    ident t i = i ∨ ∃ sigil n, (ident t i).sigil = some sigil ∧
      (ident t i).name = String.ofList (letters 5 n) := by
  cases hsigil : i.sigil with
  | none => exact .inl (by simp [ident, hsigil])
  | some sigil =>
    cases hshort : t.short? i.full with
    | none => exact .inl (by simp [ident, hsigil, hshort])
    | some short =>
      have hname : short = shortName (Text.lower i.full) :=
        ht _ (ShortNames.mem_of_short? hshort)
      have hsplit : (Sigil.split (Text.lower i.full)).1 = some sigil := by
        rw [Ident.full, hsigil]
        exact Text.sigil_lower sigil i.name
      have hletters : Sigil.split short = (some sigil,
          String.ofList (letters 5 (Text.digest (Text.lower (Text.lower i.full))).toNat)) := by
        rw [hname, shortName, sigilText, hsplit]
        exact Lowering.sigil_split_text sigil _
      refine .inr ⟨sigil, (Text.digest (Text.lower (Text.lower i.full))).toNat, ?_, ?_⟩
      · simp [ident, hsigil, hshort, hletters]
      · simp [ident, hsigil, hshort, hletters]

theorem Compaction.keeps (ho : o.Stays) {t : ShortNames}
    (ht : ∀ pair ∈ t.pairs, pair.2 = shortName pair.1) : (shorten t).Keeps o := by
  refine ⟨fun i h => ?_, fun i h => ?_, fun i h => ?_, fun i h => h⟩
  · change o.reference (ident t i).sigil (ident t i).name
    rcases ident_letters ht i with heq | ⟨sigil, n, hsigil, hname⟩
    · rwa [heq]
    · rw [hsigil, hname]
      exact ho.short sigil n
  · change o.callee (ident t i).sigil (ident t i).name
    rcases ident_letters ht i with heq | ⟨sigil, n, hsigil, hname⟩
    · rwa [heq]
    · rw [hsigil, hname]
      exact ho.called (ho.short sigil n)
  · change o.declared (ident t i).name
    rcases ident_letters ht i with heq | ⟨sigil, n, -, hname⟩
    · rwa [heq]
    · rw [hname]
      exact ho.shortDeclared n

theorem Obeyed.shorten (ho : o.Stays) (hs : Obeyed o s p) {keep : List String} {t : ShortNames}
    (h : (Compaction.script env keep s).run p = .ok ((s', t), p')) : Obeyed o s' p' := by
  obtain ⟨htable, rfl, -⟩ := Compaction.scriptWith_run h
  exact hs.rename (Compaction.keeps ho fun pair hpair => (htable.pairs pair hpair).2.2)
    (Compaction.scriptWith_functions h)

/-! ### Folding -/

theorem Orthography.folds : o.rule.Folds where
  literal {constants e v e'} _ he := by
    cases v <;> simp only [Value.toExpr?, Option.some.injEq, reduceCtorEq] at he <;> subst he <;>
      trivial
  binary _ := trivial
  unary _ := trivial
  var h _ := h
  call h _ := h
  callStmt h _ := h
  assign _ := trivial
  chain _ _ := trivial
  reshape := reshaped
  list _ := trivial
  noAtom h := h
  noWhole h := h

theorem Obeyed.fold (hs : Obeyed o s p) : Obeyed o (Folding.script s) p := by
  refine ⟨?_, hs.functions, hs.nodup⟩
  simp only [Folding.script, List.forall_mem_map]
  intro b hb
  have hold := hs.blocks b hb
  have hbody : stmtsMeet o.rule (Folding.stmts (Folding.constantsOf s) b.body) :=
    Folding.meets_stmts Orthography.folds b.body hold.body
  cases b with
  | callback c => exact ⟨hold.1, hold.2.1, hbody⟩
  | function f => exact ⟨⟨hold.1.name, hold.1.params⟩, hbody⟩

end FlatScript
