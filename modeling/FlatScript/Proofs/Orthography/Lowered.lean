import FlatScript.Proofs.Callbacks
import FlatScript.Proofs.Lowering.Declared
import FlatScript.Proofs.Lowering.Walk
import FlatScript.Proofs.Orthography.Rule

/-!
# Orthography and lowering

Lowering is the only step that puts namespaces and families in front of names. It also calls local
variables by names of their own, puts `.get` or `.set` behind properties and moves local variables
of task functions into the frame; all of this an orthography may allow.

* `FlatScript.Orthography.lowering` is the scheme that lowering is followed by.
* `FlatScript.Obeyed.lower`: a lowered script obeys the orthography.
-/

namespace FlatScript

/-! ### Qualified names -/

/-- What a reference is qualified to has the same sigil, and its name or that under namespaces. -/
theorem Ident.qualify_name (env : Env) (written params : List String) (i : Ident) :
    (i.qualify env written params).sigil = i.sigil ∧
      ((i.qualify env written params).name = i.name ∨ (i.qualify env written params).name =
        Name.qualified (env.lines.info i.span.line).namespaces i.name) := by
  unfold Ident.qualify
  split
  · exact ⟨rfl, .inl rfl⟩
  · dsimp only
    split
    · exact ⟨rfl, .inl rfl⟩
    · exact ⟨rfl, .inr rfl⟩

variable {o : Orthography} {env : Env} {i : Ident}

namespace Orthography.Under

variable (hl : o.Under env.lines)

include hl

/-- Names of declarations, whatever is asked of them. -/
theorem qualifyDeclared {P : String → Prop}
    (hP : ∀ {fs name}, hl.families fs → P name → P (Name.qualified fs name)) (h : P i.name) :
    P (i.qualifyDeclared env.lines).name := by
  unfold Ident.qualifyDeclared
  split
  · exact h
  · exact hP (hl.namespaces _) h

theorem declaredName {P : String → Prop}
    (hP : ∀ {fs name}, hl.families fs → P name → P (Name.qualified fs name)) {families : List String}
    (hf : hl.families families) (h : P i.name) : P (Lowering.declaredName env families i).name := by
  unfold Lowering.declaredName
  split
  · exact hl.qualifyDeclared hP h
  · exact hP hf h

variable {written params : List String}

theorem qualify (h : o.reference i.sigil i.name) :
    o.reference (i.qualify env written params).sigil (i.qualify env written params).name := by
  obtain ⟨hsigil, hname⟩ := i.qualify_name env written params
  rw [hsigil]
  rcases hname with hname | hname
  · rwa [hname]
  · rw [hname]
    exact hl.reference h

theorem qualifyCallee (h : o.callee i.sigil i.name) :
    o.callee (i.qualify env written params).sigil (i.qualify env written params).name := by
  obtain ⟨hsigil, hname⟩ := i.qualify_name env written params
  rw [hsigil]
  rcases hname with hname | hname
  · rwa [hname]
  · rw [hname]
    exact hl.callee h

end Orthography.Under

/-! ### References -/

/-- What stands in the place of local variables obeys the orthography. -/
structure Lowering.Refs.Obeys (o : Orthography) (r : Lowering.Refs) : Prop where
  stays : o.Stays
  lines : Nonempty (o.Under r.env.lines)
  substitutions : ∀ pair ∈ r.substitutions, pair.2.Meets o.rule

namespace Lowering.Refs.Obeys

variable {r : Lowering.Refs}

theorem substitute? (hr : r.Obeys o) {v : VarRef} (h : r.substitute? i = some v) :
    v.Meets o.rule :=
  hr.substitutions _ (mem_of_lookup h)

theorem ident (hr : r.Obeys o) (hi : o.callee i.sigil i.name) :
    o.callee (r.ident i).sigil (r.ident i).name := by
  obtain ⟨hl⟩ := hr.lines
  unfold Lowering.Refs.ident
  dsimp only
  split
  · next v hv => exact hr.stays.called (hr.substitute? hv).1
  · exact hl.qualifyCallee hi

theorem varRef (hr : r.Obeys o) {es : List Expr} {span : Span} (hi : o.reference i.sigil i.name)
    (hes : exprsMeet o.rule es) : (r.varRef i es span).Meets o.rule := by
  obtain ⟨hl⟩ := hr.lines
  unfold Lowering.Refs.varRef
  dsimp only
  split
  · next v hv =>
    have hmeets := hr.substitute? hv
    exact ⟨hmeets.1, exprsMeet_append.mpr ⟨hes, hmeets.2⟩⟩
  · exact ⟨hl.qualify hi, hes⟩

mutual

theorem expr (hr : r.Obeys o) : ∀ e : Expr, e.Meets o.rule → (Lowering.expr r e).Meets o.rule
  | .binary _ left right _, .inr ⟨_, hl, hright⟩ =>
    .inr ⟨trivial, hr.expr left hl, hr.expr right hright⟩
  | .unary _ operand _, ⟨_, ho⟩ => ⟨trivial, hr.expr operand ho⟩
  | .var _ subscripts _, ⟨hi, hs⟩ => hr.varRef hi (hr.exprs subscripts hs)
  | .call _ args _ _ _, ⟨hi, ha⟩ =>
    ⟨⟨hr.ident hi.1, hi.2⟩, argsMeet_false.mpr (hr.arguments args (argsMeet_false.mp ha))⟩
  | .int _ _, h | .real _ _, h | .str _ _, h | .bool _ _, h | .raw _ _, h => h

theorem exprs (hr : r.Obeys o) :
    ∀ es : List Expr, exprsMeet o.rule es → exprsMeet o.rule (Lowering.exprs r es)
  | [], _ => trivial
  | e :: es, ⟨he, hes⟩ => ⟨hr.expr e he, hr.exprs es hes⟩

theorem arguments (hr : r.Obeys o) {keepFirst : Bool} : ∀ es : List Expr, exprsMeet o.rule es →
    exprsMeet o.rule (Lowering.arguments r keepFirst es)
  | [], _ => trivial
  | e :: es, ⟨he, hes⟩ => by
    refine ⟨?_, hr.exprs es hes⟩
    split
    · exact he
    · exact hr.expr e he

end

end Lowering.Refs.Obeys

/-! ### Declarations -/

/-- A name that a local variable gets is the one asked for, perhaps with a number behind it. -/
theorem Lowering.freshName_cases (symbols : Symbols) (base : String) :
    freshName symbols base = base ∨ ∃ n : Nat, freshName symbols base = base ++ toString n := by
  have hnumbered : ∀ fuel n, ∃ m : Nat, numberedName symbols base fuel n = base ++ toString m := by
    intro fuel
    induction fuel with
    | zero => exact fun n => ⟨n, rfl⟩
    | succ fuel ih =>
      intro n
      unfold numberedName
      split
      · exact ih (n + 1)
      · exact ⟨n, rfl⟩
  unfold freshName
  split
  · exact .inr (hnumbered _ _)
  · exact .inl rfl

namespace Orthography

/-- What is known of a function while its body is lowered. -/
structure Around (o : Orthography) (f : FunctionEntry) : Prop where
  head : o.Head f.fn
  decls : stmtsMeet o.rule (f.globals ++ f.locals)
  substitutions : ∀ pair ∈ f.substitutions, pair.2.Meets o.rule

theorem obeys_refsOf (ho : o.Stays) (hl : o.Under env.lines) {c : Option FunctionEntry}
    (hc : ∀ f ∈ c, o.Around f) (w : List String) : (Lowering.refsOf env w c).Obeys o := by
  cases c with
  | none => exact ⟨ho, ⟨hl⟩, by simp [Lowering.refsOf]⟩
  | some f => exact ⟨ho, ⟨hl⟩, (hc f rfl).substitutions⟩

/-- The values of a declaration are still a list only where that shows. -/
theorem listed_lowered (r : Lowering.Refs) (families : List String) {d : Declaration}
    (h : d.Listed) : (Lowering.lowered r families d).Listed := by
  intro i' hi'
  obtain ⟨i, hi, rfl⟩ := Option.map_eq_some_iff.mp hi'
  cases i with
  | single e => trivial
  | list es =>
    have hlisted : d.size.isSome = true ∨ 2 ≤ es.length := h _ hi
    have hlength : ∀ es, (Lowering.exprs r es).length = es.length := by
      intro es
      induction es with
      | nil => rfl
      | cons e es ih => rw [Lowering.exprs, List.length_cons, List.length_cons, ih]
    rw [Lowering.initializer, Initializer.Listed, hlength]
    simpa [Lowering.lowered] using hlisted

/-- A declaration with its references resolved. -/
theorem meets_lowered (ho : o.Stays) (hl : o.Under env.lines) {c : Option FunctionEntry}
    (hc : ∀ f ∈ c, o.Around f) (w : List String) {families : List String} {d : Declaration}
    (hf : hl.families families) (hk : o.rule.stmt (.declare d)) (hd : d.Meets o.rule) :
    o.rule.stmt (.declare (Lowering.lowered (Lowering.refsOf env w c) families d)) ∧
      (Lowering.lowered (Lowering.refsOf env w c) families d).Meets o.rule :=
  ⟨⟨hl.declaredName hl.declared hf hk.1, hk.2.1, fun hplaced => listed_lowered _ _ (hk.2.2 hplaced)⟩,
    Lowering.meets_lowered_of (obeys_refsOf ho hl hc w).expr hd⟩

theorem meets_withoutModifier {d : Declaration} (word : String) (h : o.rule.stmt (.declare d)) :
    o.rule.stmt (.declare (d.withoutModifier word)) :=
  ⟨h.1, fun m hm => h.2.1 m (List.mem_of_mem_filter hm), h.2.2⟩

theorem meets_splitInit {target : VarRef} {d : Declaration} (h : o.rule.stmt (.declare d)) :
    o.rule.stmt (.declare (Lowering.splitInit target d).2) := by
  have hnone : o.rule.stmt (.declare { d with init := none }) :=
    ⟨h.1, h.2.1, fun _ => by simp [Declaration.Listed]⟩
  unfold Lowering.splitInit
  split
  · exact h
  · split
    · exact hnone
    · exact hnone

/-- A local variable with a name of its own. -/
theorem around_addRenamedLocal (ho : o.Stays) {f : FunctionEntry} (hf : o.Around f)
    {d : Declaration} (hk : o.rule.stmt (.declare d)) (hd : d.Meets o.rule) {unique : String}
    (hunique : Lowering.isUnique d unique) (localNames : List String) (span : Span)
    (trace : List Span) :
    let r := Lowering.addRenamedLocal { f with localNames } unique d span trace
    o.Around r.2 ∧ stmtsMeet o.rule r.1 := by
  intro r
  obtain ⟨hreference, hdeclared⟩ := ho.renamed hk.1 hunique
  have htarget : (VarRef.plain (.fixed unique d.name.span)).Meets o.rule := ⟨hreference, trivial⟩
  let d' : Declaration := { d.withoutModifier "local" with name := .fixed unique d.name.span }
  have hk' : o.rule.stmt (.declare d') := ⟨hdeclared, (meets_withoutModifier "local" hk).2⟩
  have hd' : d'.Meets o.rule := hd
  have hsplit := Lowering.meets_splitInit (fun _ _ => trivial) htarget hd' span trace
  have hdecls := stmtsMeet_append.mp hf.decls
  refine ⟨⟨hf.head, ?_, ?_⟩, hsplit.1⟩
  · change stmtsMeet o.rule (f.globals ++ (f.locals ++ [_]))
    simp only [stmtsMeet_append]
    exact ⟨hdecls.1, hdecls.2, ⟨meets_splitInit hk', hsplit.2⟩, trivial⟩
  · intro pair hpair
    rcases List.mem_cons.mp hpair with rfl | hpair
    · exact htarget
    · exact hf.substitutions pair hpair

/-- A local variable that lives in the frame. -/
theorem around_addFrameLocal (ho : o.Stays) {f : FunctionEntry} (hf : o.Around f)
    {d : Declaration} (hd : d.Meets o.rule) (localNames : List String) (span : Span)
    (trace : List Span) :
    let r := Lowering.addFrameLocal { f with localNames } d span trace
    o.Around r.2 ∧ stmtsMeet o.rule r.1 := by
  intro r
  have htarget :
      (Frame.slot Frame.framePointer .add (f.frame.length + 1) d.name.span).Meets o.rule :=
    ho.slot (by simp [ownVariables]) _ _ _
  refine ⟨⟨hf.head, hf.decls, ?_⟩, (Lowering.meets_splitInit (fun _ _ => trivial) htarget hd _ _).1⟩
  intro pair hpair
  rcases List.mem_cons.mp hpair with rfl | hpair
  · exact htarget
  · exact hf.substitutions pair hpair

theorem head_synonymGetter (ho : o.Stays) {property : String} {indices : List Ident} (span : Span)
    (hp : o.title property) (hi : ∀ i ∈ indices, o.title i.name) :
    o.Head (Lowering.synonymGetter property indices span) := by
  refine ⟨ho.synonym hp (.inl rfl), ?_⟩
  simp only [Lowering.synonymGetter, List.forall_mem_map]
  exact hi

theorem head_synonymSetter (ho : o.Stays) {property : String} {indices : List Ident} (span : Span)
    (hp : o.title property) (hi : ∀ i ∈ indices, o.title i.name) :
    o.Head (Lowering.synonymSetter property indices span) := by
  refine ⟨ho.synonym hp (.inr rfl), ?_⟩
  simp only [Lowering.synonymSetter, List.forall_mem_append, List.forall_mem_map,
    List.forall_mem_singleton]
  exact ⟨hi, ho.valueToSet⟩

theorem head_accessor (ho : o.Stays) {property : String} {f : FunctionDef} (hp : o.title property)
    (hf : o.Head f) : o.Head (Lowering.accessor property { f with body := [] }) :=
  ⟨ho.accessor hp hf.name, hf.params⟩

/-! ### The scheme -/

/-- **Lowering keeps an orthography.** -/
def lowering (ho : o.Stays) (env : Env) (hl : o.Under env.lines) : Lowering.Scheme env where
  src := o.rule
  dst _ := o.rule
  good c := ∀ f ∈ c, o.Around f
  entry := FunctionEntry.Obeys o
  header := o.Head
  families := hl.families
  fresh := False
  mono _ := .refl _
  list := trivial
  outside := by simp
  noFamilies := hl.nil
  expr hc he := (obeys_refsOf ho hl hc _).expr _ he
  call hc hk ha := ⟨⟨(obeys_refsOf ho hl hc _).ident hk.1, hk.2⟩,
    argsMeet_false.mpr ((obeys_refsOf ho hl hc _).arguments _ (argsMeet_false.mp ha))⟩
  binary := trivial
  atom h := h
  whole h := h
  step hword := by
    refine ⟨ho.ownFunction _ ?_, fun _ => rfl⟩
    rcases hword with rfl | rfl <;> simp [ownFunctions]
  assign := trivial
  whileLoop := trivial
  ifOne := trivial
  ifNone _ := trivial
  select _ _ := trivial
  family {fs _ _} hfs hk := by
    refine hl.snoc hfs ?_
    split
    · exact hl.qualifyDeclared hl.family hk
    · exact hk
  declared {w _ _} hfs hk hd := (meets_lowered ho hl (by simp) w hfs hk hd).1
  promoted {f w fs d span trace} hf hfs hk hd := by
    obtain ⟨hk', hd'⟩ := meets_lowered ho hl hf w hfs hk hd
    have hold := hf f rfl
    have hdecls := stmtsMeet_append.mp hold.decls
    rintro _ ⟨⟩
    refine ⟨hold.head, ?_, hold.substitutions⟩
    change stmtsMeet o.rule ((f.globals ++ [_]) ++ f.locals)
    simp only [stmtsMeet_append]
    exact ⟨⟨hdecls.1, ⟨meets_withoutModifier "global" hk', hd'⟩, trivial⟩, hdecls.2⟩
  framed {f w _ _ span trace localNames} hf hfs hk hd _ := by
    have hd' := (meets_lowered ho hl hf w hfs hk hd).2
    obtain ⟨haround, hmeets⟩ := around_addFrameLocal ho (hf f rfl) hd' localNames span trace
    exact ⟨by simpa using haround, hmeets⟩
  renamed {f w _ _ span trace localNames _} hf hfs hk hd hunique := by
    obtain ⟨hk', hd'⟩ := meets_lowered ho hl hf w hfs hk hd
    obtain ⟨haround, hmeets⟩ :=
      around_addRenamedLocal ho (hf f rfl) hk' hd' hunique localNames span trace
    exact ⟨by simpa using haround, hmeets⟩
  openFunction {f} hf := by
    rintro _ ⟨⟩
    exact ⟨⟨hl.qualifyDeclared hl.title hf.name, hf.params⟩, trivial, by simp [Lowering.opened]⟩
  closeFunction {e _} he hbody :=
    ⟨⟨(he e rfl).head.name, (he e rfl).head.params⟩, hbody, (he e rfl).decls⟩
  accessors hfs hk f hf := head_accessor ho (hl.declaredName hl.title hfs hk.1) (hk.2 f hf)
  synonym hfs hk := ⟨head_synonymGetter ho _ (hl.declaredName hl.title hfs hk.1) hk.2,
    head_synonymSetter ho _ (hl.declaredName hl.title hfs hk.1) hk.2⟩
  result := ⟨ho.ownVariable "result" (by simp [ownVariables]), trivial⟩
  valueToSet := ⟨ho.ownVariable "value_to_set" (by simp [ownVariables]), trivial⟩

end Orthography

/-! ### Scripts -/

/-- What is known of the callbacks of a script that obeys an orthography. -/
def Hook.Obeys (o : Orthography) (h : Hook) : Prop :=
  o.word h.name ∧ ∀ i ∈ h.control, o.reference i.sigil i.name

variable {s s' : Script} {p p' : Program}

theorem Obeyed.hooks (hs : Obeyed o s p) : ∀ h ∈ s.hooks, h.Obeys o := by
  intro h hh
  obtain ⟨b, hb, hhook⟩ := List.mem_filterMap.mp hh
  have hobeys := hs.blocks b hb
  cases b with
  | callback c =>
    cases hhook
    exact ⟨hobeys.1, hobeys.2.1⟩
  | function f => cases hhook

/-- The controls of callbacks get their namespaces. -/
theorem Obeyed.lowered_hooks (ho : o.Stays) (hl : o.Under env.lines) (hs : Obeyed o s p)
    (h : (Lowering.script env s).run p = .ok (s', p')) : ∀ k ∈ s'.hooks, k.Obeys o := by
  rw [Lowering.script_hooks h]
  simp only [List.forall_mem_map]
  intro k hk
  have hold : k.Obeys o := by
    rcases Lowering.hooksOf_initFirst s.blocks with hperm | ⟨hinit, -⟩
    · exact hs.hooks k (hperm.subset hk)
    · rw [hinit] at hk
      rcases List.mem_cons.mp hk with rfl | hk
      · exact ⟨ho.init, by simp [Lowering.emptyInit, Callback.hook]⟩
      · exact hs.hooks k hk
  refine ⟨hold.1, fun i hi => ?_⟩
  obtain ⟨j, hj, rfl⟩ := Option.map_eq_some_iff.mp hi
  exact hl.qualify (hold.2 j hj)

/-- **A lowered script obeys the orthography.** -/
theorem Obeyed.lower (ho : o.Stays) (hl : o.Under env.lines) (hs : Obeyed o s p)
    (h : (Lowering.script env s).run p = .ok (s', p')) : Obeyed o s' p' := by
  have hsource : ∀ b ∈ s.blocks, (Orthography.lowering ho env hl).Source b := by
    intro b hb
    have hobeys := hs.blocks b hb
    cases b with
    | callback c => exact hobeys.2.2
    | function f => exact hobeys
  obtain ⟨htable, hblocks⟩ := (Orthography.lowering ho env hl).script_run hsource
    ⟨hs.functions, hs.nodup, False.elim, False.elim⟩ h
  refine ⟨fun b hb => ?_, htable.entry, htable.nodup⟩
  obtain ⟨c, rfl, hbody⟩ := hblocks b hb
  obtain ⟨hname, hcontrol⟩ :=
    hs.lowered_hooks ho hl h c.hook (List.mem_filterMap.mpr ⟨_, hb, rfl⟩)
  exact ⟨hname, hcontrol, hbody.2⟩

end FlatScript
