import FlatScript.Proofs.Calls
import FlatScript.Proofs.Characters
import FlatScript.Proofs.Closure
import FlatScript.Proofs.Lowering.Storage

/-!
# Callbacks that are joined

Callbacks are joined before names are resolved, so what counts is how a control is written. A
control can be written in several ways, with its sigil or without, with its namespaces or where
they are understood, in either letter case; callbacks at the same control that are written in
different ways stay apart, and the compiled script has both.

* `FlatScript.Script.hooks` lists what the callbacks of a script hang on.
* `FlatScript.Script.nodup_hooks_combineCallbacks` says that joined callbacks are written in
  different ways.
* `FlatScript.Compilation.resolved_hooks` follows the controls to the compiled script.
* `FlatScript.compile_hooks_nodup_iff` says when the compiled script has one callback for each
  control: exactly when no control is written in two ways.
-/

namespace FlatScript

/-! ### Hooks -/

/-- **What a callback hangs on**: what happens, and the control it happens at. -/
structure Hook where
  /-- What happens. -/
  name : String
  /-- The control it happens at. -/
  control : Option Ident

/-- The hook as it is written. -/
def Hook.spelling (h : Hook) : String × Option String := (h.name, h.control.map Ident.full)

/-- The hook, when letter case does not matter. -/
def Hook.key (h : Hook) : String × Option String := (h.name, h.control.map Ident.key)

/-- The hook with its control changed. -/
def Hook.map (f : Ident → Ident) (h : Hook) : Hook := ⟨h.name, h.control.map f⟩

/-- A hook whose control has become another one, as `R` says. -/
structure Hook.Becomes (R : Ident → Ident → Prop) (h h' : Hook) : Prop where
  name : h'.name = h.name
  control : Option.Rel R h.control h'.control

/-- The hook of a callback. -/
def Callback.hook (c : Callback) : Hook := ⟨c.name, c.control⟩

/-- The hook of a block, if it is a callback. -/
def Block.hook? (b : Block) : Option Hook := b.callback?.map Callback.hook

/-- The hooks of blocks. -/
def hooksOf (bs : List Block) : List Hook := bs.filterMap Block.hook?

/-- **The hooks of a script.** -/
def Script.hooks (s : Script) : List Hook := hooksOf s.blocks

@[simp] theorem hooksOf_nil : hooksOf [] = [] := rfl

@[simp] theorem hooksOf_callback (c : Callback) (bs : List Block) :
    hooksOf (.callback c :: bs) = c.hook :: hooksOf bs := rfl

@[simp] theorem hooksOf_function (f : FunctionDef) (bs : List Block) :
    hooksOf (.function f :: bs) = hooksOf bs := rfl

@[simp] theorem hooksOf_append (bs bs' : List Block) :
    hooksOf (bs ++ bs') = hooksOf bs ++ hooksOf bs' := List.filterMap_append

theorem hooksOf_functions (fs : List FunctionDef) : hooksOf (fs.map .function) = [] :=
  List.filterMap_eq_nil_iff.mpr (by simp [Block.hook?, Block.callback?])

theorem Callback.key_eq (c : Callback) : c.key = c.hook.spelling := rfl

/-! ### Joining -/

namespace Script

/-- A callback joins one with its spelling, and the hooks stay. -/
theorem hooksOf_joinInto {c : Callback} {bs bs' : List Block} (h : joinInto c bs = some bs') :
    hooksOf bs' = hooksOf bs := by
  induction bs generalizing bs' with
  | nil => cases h
  | cons b bs ih =>
    cases b with
    | callback d =>
      simp only [joinInto] at h
      split at h
      · cases h
        rfl
      · obtain ⟨rest, hrest, rfl⟩ := Option.map_eq_some_iff.mp h
        rw [hooksOf_callback, hooksOf_callback, ih hrest]
    | function f =>
      simp only [joinInto] at h
      obtain ⟨rest, hrest, rfl⟩ := Option.map_eq_some_iff.mp h
      rw [hooksOf_function, hooksOf_function, ih hrest]

/-- A callback that joins none is written in a way of its own. -/
theorem spelling_of_joinInto {c : Callback} {bs : List Block} (h : joinInto c bs = none) :
    c.hook.spelling ∉ (hooksOf bs).map Hook.spelling := by
  induction bs with
  | nil => simp
  | cons b bs ih =>
    cases b with
    | callback d =>
      simp only [joinInto] at h
      split at h
      · cases h
      · next hne =>
        rw [Callback.key_eq, Callback.key_eq] at hne
        simp only [hooksOf_callback, List.map_cons, List.mem_cons, not_or]
        exact ⟨fun heq => hne heq.symm, ih (Option.map_eq_none_iff.mp h)⟩
    | function f => exact ih (Option.map_eq_none_iff.mp h)

/-- The blocks with one more block have the hooks of before and perhaps the one of the block,
if it is written in a way of its own. -/
theorem hooksOf_joinBlock (bs : List Block) (b : Block) :
    hooksOf (joinBlock bs b) = hooksOf bs ∨
      ∃ h, b.hook? = some h ∧ h.spelling ∉ (hooksOf bs).map Hook.spelling ∧
        hooksOf (joinBlock bs b) = hooksOf bs ++ [h] := by
  cases b with
  | callback c =>
    cases hjoin : joinInto c bs with
    | some bs' =>
      left
      simp only [joinBlock, hjoin, Option.getD_some]
      exact hooksOf_joinInto hjoin
    | none =>
      refine .inr ⟨c.hook, rfl, spelling_of_joinInto hjoin, ?_⟩
      simp only [joinBlock, hjoin, Option.getD_none, hooksOf_append, hooksOf_callback, hooksOf_nil]
  | function f => exact .inl (by simp [joinBlock])

/-- What joining keeps, block by block: no two callbacks are written alike, and every hook is one
of the source. -/
theorem foldl_joinBlock {all : List Hook} :
    ∀ (bs start : List Block), ((hooksOf start).map Hook.spelling).Nodup →
      (∀ h ∈ hooksOf start, h ∈ all) → (∀ h ∈ hooksOf bs, h ∈ all) →
      ((hooksOf (bs.foldl joinBlock start)).map Hook.spelling).Nodup ∧
        ∀ h ∈ hooksOf (bs.foldl joinBlock start), h ∈ all
  | [], _, hnodup, hstart, _ => ⟨hnodup, hstart⟩
  | b :: bs, start, hnodup, hstart, hall => by
    have hrest : ∀ h ∈ hooksOf bs, h ∈ all := fun h hh => hall h (by
      rw [← List.singleton_append, hooksOf_append]
      exact List.mem_append_right _ hh)
    rw [List.foldl_cons]
    rcases hooksOf_joinBlock start b with heq | ⟨h, hb, hnew, heq⟩
    · exact foldl_joinBlock bs _ (heq ▸ hnodup) (heq ▸ hstart) hrest
    · refine foldl_joinBlock bs _ ?_ ?_ hrest
      · rw [heq, List.map_append]
        exact List.nodup_append_comm.mp (List.nodup_cons.mpr ⟨hnew, hnodup⟩)
      · rw [heq]
        intro h' hh'
        rcases List.mem_append.mp hh' with hh' | hh'
        · exact hstart h' hh'
        · rw [List.mem_singleton.mp hh']
          exact hall h (List.mem_filterMap.mpr ⟨b, by simp, hb⟩)

/-- **No two joined callbacks are written alike.** -/
theorem nodup_hooks_combineCallbacks (s : Script) :
    (s.combineCallbacks.hooks.map Hook.spelling).Nodup :=
  (foldl_joinBlock s.blocks [] List.nodup_nil (by simp) fun _ h => h).1

/-- **Joined callbacks have the hooks of the script.** -/
theorem hooks_combineCallbacks_subset (s : Script) : s.combineCallbacks.hooks ⊆ s.hooks :=
  fun h hh => (foldl_joinBlock s.blocks [] List.nodup_nil (by simp) fun _ h => h).2 h hh

end Script

/-! ### Lowering -/

namespace Lowering

variable {env : Env}

/-- The controls of callbacks get their namespaces, and no other names. -/
theorem hooksOf_blocks : ∀ (bs : List Block) {s s' : State} {bs' : List Block},
    (blocks env bs).run s = .ok (bs', s') → s.current = none →
    hooksOf bs' = (hooksOf bs).map (Hook.map (Ident.qualify env s.program.writtenNames []))
  | [], _, _, _, h, _ => by
    simp only [blocks] at h
    cases h
    rfl
  | .callback c :: bs, s, s', bs', h, hc => by
    simp only [blocks] at h
    obtain ⟨_, _, hrefs, h⟩ := StateT.bind_eq_ok.mp h
    rw [refs_run] at hrefs
    cases hrefs
    obtain ⟨body, s₁, hbody, h⟩ := StateT.bind_eq_ok.mp h
    obtain ⟨rest, s₂, hrest, h⟩ := StateT.bind_eq_ok.mp h
    cases h
    have hstep := Ledger.stmts_obeys (L := namesKept env) [] c.body _ _ _ hbody
    have hc₁ : s₁.current = none := by simpa [hc] using hstep.fn
    have hwritten : s₁.program.writtenNames = s.program.writtenNames := hstep.rel
    rw [hooksOf_callback, hooksOf_callback, List.map_cons, hooksOf_blocks bs hrest hc₁, hwritten, hc]
    rfl
  | .function f :: bs, s, s', bs', h, hc => by
    simp only [blocks] at h
    obtain ⟨⟨⟩, s₁, hfun, h⟩ := StateT.bind_eq_ok.mp h
    have hstep := Ledger.functionWith_step (L := namesKept env) (Ledger.stmts_obeys [] f.body) hfun
    have hc₁ : s₁.current = none := by simpa [hc] using hstep.fn
    have hwritten : s₁.program.writtenNames = s.program.writtenNames := hstep.rel
    rw [hooksOf_function, hooksOf_blocks bs h hc₁, hwritten]

/-- **The hooks of a lowered script.** -/
theorem script_hooks {s s' : Script} {p p' : Program} (h : (script env s).run p = .ok (s', p')) :
    s'.hooks = (hooksOf (initFirst s.blocks)).map
      (Hook.map (Ident.qualify env p'.writtenNames [])) := by
  unfold script at h
  simp only [StateT.run_bind, StateT.run_get, pure_bind] at h
  obtain ⟨⟨⟨bs, state⟩, p₁⟩, hrun, h⟩ := Except.bind_eq_ok.mp h
  cases h
  obtain ⟨hrun, -⟩ := StateT.lift_eq_ok.mp hrun
  have hwritten := (Ledger.blocks_step (L := namesKept env) _ hrun rfl).rel
  rw [Script.hooks, hooksOf_blocks _ hrun rfl]
  exact congrArg (fun names => (hooksOf (initFirst s.blocks)).map
    (Hook.map (Ident.qualify env names []))) hwritten.symm

/-- The init callback in front is one of the script, unless the script has none. -/
theorem hooksOf_initFirst (bs : List Block) :
    (hooksOf (initFirst bs)).Perm (hooksOf bs) ∨
      hooksOf (initFirst bs) = emptyInit.hook :: hooksOf bs ∧ ∀ h ∈ hooksOf bs, h.name ≠ "init" := by
  unfold initFirst
  split
  · next b hfind =>
    obtain ⟨hinit, before, after, rfl, hbefore⟩ := List.find?_eq_some_iff_append.mp hfind
    have herase : (before ++ b :: after).eraseP isInitBlock = before ++ after := by
      rw [List.eraseP_append_right _ fun a ha => by simpa using hbefore a ha,
        List.eraseP_cons_of_pos hinit]
    rw [herase]
    exact .inl (List.perm_middle.symm.filterMap _)
  · next hfind =>
    refine .inr ⟨rfl, fun h hh hname => ?_⟩
    obtain ⟨b, hb, hhook⟩ := List.mem_filterMap.mp hh
    have hnot := List.find?_eq_none.mp hfind b hb
    cases b with
    | callback c =>
      cases hhook
      exact hnot (beq_iff_eq.mpr hname)
    | function f => cases hhook

end Lowering

/-! ### Sigils -/

theorem Block.MapLeaves.hook {ε : Type} {r : LeafMap ε} {control : Ident → Except ε Ident}
    {b b' : Block} (h : b.MapLeaves r control b') :
    Option.Rel (Hook.Becomes fun i j => control i = .ok j) b.hook? b'.hook? := by
  cases h with
  | callback hcontrol _ => exact .some ⟨rfl, Except.mapM_option_eq_ok.mp hcontrol⟩
  | function _ => exact .none

/-- The hooks of a script with its leaves changed. -/
theorem hooks_mapLeaves {ε : Type} {s s' : Script} {r : LeafMap ε}
    {control : Ident → Except ε Ident}
    (h : List.Forall₂ (Block.MapLeaves r control) s.blocks s'.blocks) :
    List.Forall₂ (Hook.Becomes fun i j => control i = .ok j) s.hooks s'.hooks :=
  List.rel_filterMap (fun _ _ hb => hb.hook) h

namespace Sigils

variable {env : Env} {p p' : Program} {i j k : Ident}

/-- A name that has its sigil keeps it. -/
theorem resolve_of_sigil {b : Builtins} {params : List String} {subscripted : Bool}
    (hsigil : i.sigil.isSome = true) (h : resolve b p params i subscripted = .ok j) : j = i := by
  unfold resolve at h
  split at h
  · next hnone => rw [hnone] at hsigil; cases hsigil
  · split at h
    · cases h
      rfl
    · split at h <;> cases h

/-- **The second search for sigils finds nothing new**, when the functions, families and
properties are still the same. -/
theorem ident_twice {scope : Scope} {subscripted : Bool}
    (hfree : ∀ name, isSigilFree env.builtins p scope.params name = true →
      isSigilFree env.builtins p' scope.params name = true)
    (h : ident env p scope i subscripted = .ok j) (h' : ident env p' scope j subscripted = .ok k) :
    k = j := by
  have hresolve := resolve_of_ident h'
  cases hsigil : j.sigil with
  | some sigil => exact resolve_of_sigil (by rw [hsigil]; rfl) hresolve
  | none =>
    have hname : isSigilFree env.builtins p scope.params j.name = true := by
      rcases found_of_ident h with ⟨-, hname⟩ | ⟨hsome, -⟩ | ⟨hsome, -⟩
      · exact hname
      · rw [hsigil] at hsome; cases hsome
      · rw [hsigil] at hsome; cases hsome
    unfold resolve at hresolve
    simp only [hsigil, hfree _ hname, if_true] at hresolve
    exact (Except.ok.inj hresolve).symm

end Sigils

/-! ### Compilations -/

theorem Renaming.script_hooks (f : Renaming) (s : Script) :
    (f.script s).hooks = s.hooks.map (Hook.map f.name) := by
  simp only [Script.hooks, hooksOf, Renaming.script, List.filterMap_map, List.map_filterMap]
  refine List.filterMap_congr fun b _ => ?_
  cases b <;> rfl

theorem Folding.script_hooks (s : Script) : (Folding.script s).hooks = s.hooks := by
  simp only [Script.hooks, hooksOf, Folding.script, List.filterMap_map]
  refine List.filterMap_congr fun b _ => ?_
  cases b <;> rfl

/-- A hook whose control has not changed. -/
theorem Hook.Becomes.eq {h h' : Hook} (hb : h.Becomes (· = ·) h') : h = h' := by
  obtain ⟨name, control⟩ := h
  obtain ⟨name', control'⟩ := h'
  obtain ⟨rfl, hcontrol⟩ := hb
  cases hcontrol with
  | some heq => rw [heq]
  | none => rfl

namespace Compilation

variable {env : Env} {o : Options} {source : String} (r : Compilation env o source)

/-- What a control of the source is resolved to, without regard to letter case. -/
def boundName (i : Ident) : Except Fault String :=
  (Sigils.resolve env.builtins r.lowered.2 [] (i.qualify env r.lowered.2.writtenNames []) false).map
    Ident.key

/-- **What a hook of the source is bound to.** -/
def binding (h : Hook) : String × Option (Except Fault String) :=
  (h.name, h.control.map r.boundName)

/-- How a resolved name is written in the end. -/
def written (i : Ident) : Ident := r.short (Undotting.ident i)

/-- The functions of the table keep their names. -/
theorem arranged_isUserFunction (name : String) :
    r.arranged.2.isUserFunction name = r.lowered.2.isUserFunction name := by
  obtain ⟨q, hq⟩ := r.exists_recording
  obtain ⟨init, rest, -, -, harranged⟩ := Arrangement.script_run r.arrange_eq
  have hnames : r.arranged.2.functions.map FunctionEntry.name =
      r.lowered.2.functions.map FunctionEntry.name := by
    rw [harranged, ← hq.framed]
    simp only [List.map_map, Arrangement.markUsed]
    refine List.map_congr_left fun e _ => ?_
    simp only [Function.comp_apply, Arrangement.withoutHoisted]
    split <;> rfl
  exact Program.isUserFunction_congr hnames _

/-- Between the two searches for sigils, callbacks keep their hooks. -/
theorem arranged_hooks : r.arranged.1.hooks = r.typed.1.hooks := by
  obtain ⟨p₁, bodies, -, -, hblocks, -⟩ :=
    Inlining.Scheme.script_run (Inlining.callScheme_starts env _ _) r.expand_eq
  have hexpanded : r.typed.1.hooks = r.expanded.1.hooks := by
    refine List.forall₂_eq_eq_eq ▸ List.rel_filterMap ?_ hblocks
    rintro _ _ ⟨c, body, rfl, rfl, -⟩
    exact .some rfl
  obtain ⟨init, rest, hexp, harranged, -⟩ := Arrangement.script_run r.arrange_eq
  rw [hexpanded, Script.hooks, Script.hooks, hexp, harranged, hooksOf_callback, hooksOf_append,
    hooksOf_functions, List.nil_append, hooksOf_callback]
  rfl

/-- The second search for sigils leaves controls as they are. -/
theorem resolved_hooks_eq : r.resolved.1.hooks = r.typed.1.hooks := by
  have hfirst := hooks_mapLeaves (Sigils.script_run r.type_eq).1
  have hsecond := hooks_mapLeaves (Sigils.script_run r.resolve_eq).1
  rw [r.arranged_hooks] at hsecond
  have hfree : ∀ name, Sigils.isSigilFree env.builtins r.lowered.2 [] name = true →
      Sigils.isSigilFree env.builtins r.arranged.2 [] name = true := by
    intro name hname
    unfold Sigils.isSigilFree at hname ⊢
    rwa [r.arranged_isUserFunction, r.arranged_symbols]
  have hfound : ∀ h ∈ r.typed.1.hooks, ∀ j ∈ h.control,
      ∃ i, Sigils.ident env r.lowered.2 ⟨[], []⟩ i false = .ok j := by
    intro h hh j hj
    obtain ⟨h₀, -, hbecomes⟩ := exists_mem_of_forall₂ hfirst hh
    obtain ⟨i, -, hi⟩ := exists_mem_of_optionRel hbecomes.control hj
    exact ⟨i, hi⟩
  have hsame : List.Forall₂ (· = ·) r.typed.1.hooks r.resolved.1.hooks := by
    refine ((List.forall₂_and_left _ _).mpr ⟨hfound, hsecond⟩).imp ?_
    rintro ⟨name, control⟩ ⟨name', control'⟩ ⟨hfound, hname, hcontrol⟩
    refine Hook.Becomes.eq ⟨hname, ?_⟩
    cases hcontrol with
    | none => exact .none
    | some hident =>
      obtain ⟨i, hi⟩ := hfound _ rfl
      exact .some (Sigils.ident_twice hfree hi hident).symm
  exact (List.forall₂_eq_eq_eq ▸ hsame : r.typed.1.hooks = r.resolved.1.hooks).symm

/-- **The hooks of the resolved script, one by one**: they are what those of the source are bound
to. -/
theorem resolved_keys : r.resolved.1.hooks.map (fun h => (h.name, h.control.map fun i =>
      (Except.ok i.key : Except Fault String))) =
    (hooksOf (Lowering.initFirst r.joined.blocks)).map r.binding := by
  have hfirst := hooks_mapLeaves (Sigils.script_run r.type_eq).1
  rw [Lowering.script_hooks r.lower_eq, List.forall₂_map_left_iff] at hfirst
  rw [r.resolved_hooks_eq]
  refine map_eq_of_forall₂ hfirst fun h h' hbecomes => ?_
  obtain ⟨name, control⟩ := h
  obtain ⟨name', control'⟩ := h'
  obtain ⟨rfl, hcontrol⟩ := hbecomes
  cases control with
  | none =>
    cases hcontrol
    rfl
  | some i =>
    cases hcontrol with
    | some hident =>
      have hbound : r.boundName i = .ok _ :=
        congrArg (Except.map Ident.key) (Sigils.resolve_of_ident hident)
      simp only [binding, Option.map_some, hbound]

/-- **The callbacks that are written are those of the resolved script**, in order. -/
theorem final_hooks : r.final.hooks = r.resolved.1.hooks.map (Hook.map r.written) := by
  have hchecked : r.checked.hooks = r.resolved.1.hooks := by
    have hmap := hooks_mapLeaves (Script.mapLeaves_eq_ok (Controls.script_run r.check_eq).2)
    have hsame := hmap.imp fun _ _ hb =>
      Hook.Becomes.eq ⟨hb.name, optionRel_imp hb.control fun _ _ => Except.ok.inj⟩
    exact (List.forall₂_eq_eq_eq ▸ hsame : r.resolved.1.hooks = r.checked.hooks).symm
  have hfolded : r.folded.hooks = r.resolved.1.hooks.map (Hook.map Undotting.ident) := by
    rw [r.fold_eq, ← hchecked]
    have hundot : r.undotted.1.hooks = r.checked.hooks.map (Hook.map Undotting.ident) := by
      rw [r.undotted_eq]
      exact Renaming.script_hooks _ _
    split
    · rw [Folding.script_hooks, hundot]
    · exact hundot
  have hfinal : r.final.hooks = r.folded.hooks.map (Hook.map r.short) := by
    have hshortens := r.shortens
    unfold short
    generalize r.shortNames = names at hshortens ⊢
    generalize r.final = final at hshortens ⊢
    cases hshortens with
    | keep _ => exact (List.map_id'' (fun h => by simp [Hook.map]) _).symm
    | shorten _ hrun =>
      obtain ⟨-, rfl, -⟩ := Compaction.scriptWith_run hrun
      exact Renaming.script_hooks _ _
  rw [hfinal, hfolded, List.map_map]
  refine List.map_congr_left fun h _ => ?_
  simp only [Function.comp_apply, Hook.map, Option.map_map]
  rfl

/-- Whether init comes first, or has to be added, does not matter. -/
theorem nodup_initFirst : ((hooksOf (Lowering.initFirst r.joined.blocks)).map r.binding).Nodup ↔
    (r.joined.hooks.map r.binding).Nodup := by
  rcases Lowering.hooksOf_initFirst r.joined.blocks with hperm | ⟨hinit, hnames⟩
  · exact (hperm.map _).nodup_iff
  · rw [hinit, List.map_cons, List.nodup_cons]
    refine ⟨fun h => h.2, fun h => ⟨fun hmem => ?_, h⟩⟩
    obtain ⟨h', hh', heq⟩ := List.mem_map.mp hmem
    exact hnames h' hh' (congrArg Prod.fst heq)

/-- **One callback for each control**: this is so exactly when, among the joined callbacks, no
control is written in two ways. -/
theorem nodup_resolved_iff (ho : o.combineCallbacks = true) :
    (r.resolved.1.hooks.map Hook.key).Nodup ↔ ∀ h ∈ r.joined.hooks, ∀ h' ∈ r.joined.hooks,
      r.binding h = r.binding h' → h.spelling = h'.spelling := by
  have hlift : Function.Injective fun k : String × Option String =>
      (k.1, k.2.map (Except.ok : String → Except Fault String)) := by
    rintro ⟨name, k⟩ ⟨name', k'⟩ heq
    obtain ⟨rfl, hk⟩ := Prod.mk.inj heq
    exact congrArg (Prod.mk name) (Option.map_injective (fun _ _ => Except.ok.inj) hk)
  have hspelled : (r.joined.hooks.map Hook.spelling).Nodup := by
    have hjoined : r.joined = r.parsed.combineCallbacks := if_pos ho
    rw [hjoined]
    exact Script.nodup_hooks_combineCallbacks _
  have hkeys : (r.resolved.1.hooks.map Hook.key).map (fun k =>
      (k.1, k.2.map (Except.ok : String → Except Fault String))) =
      (hooksOf (Lowering.initFirst r.joined.blocks)).map r.binding := by
    rw [← r.resolved_keys, List.map_map]
    refine List.map_congr_left fun h _ => ?_
    simp only [Function.comp_apply, Hook.key, Option.map_map]
    rfl
  rw [← List.nodup_map_iff hlift, hkeys, r.nodup_initFirst,
    List.nodup_map_iff_inj_on (List.Nodup.of_map _ hspelled)]
  have hinj := List.inj_on_of_nodup_map hspelled
  constructor
  · intro hbinding h hh h' hh' heq
    rw [hbinding h hh h' hh' heq]
  · intro hspelling h hh h' hh' heq
    exact hinj hh hh' (hspelling h hh h' hh' heq)

end Compilation

/-- **Compiled callbacks.** When callbacks are joined, the callbacks that are written are those of
the resolved script, and there is one for each name and each variable that a control is resolved
to exactly when no such variable is written in two ways in the source. -/
theorem compile_hooks_nodup_iff {env : Env} {o : Options} {source : String} {c : Compiled}
    (h : compile env o source = .ok c) (ho : c.options.combineCallbacks = true) :
    ∃ r : Compilation env c.options source,
      c.code = Printer.script env.builtins c.options r.final ∧
      r.final.hooks = r.resolved.1.hooks.map (Hook.map r.written) ∧
      r.joined.hooks ⊆ r.parsed.hooks ∧
      ((r.resolved.1.hooks.map Hook.key).Nodup ↔ ∀ h ∈ r.joined.hooks, ∀ h' ∈ r.joined.hooks,
        r.binding h = r.binding h' → h.spelling = h'.spelling) := by
  obtain ⟨r, rfl⟩ := exists_compilation h
  have hjoined : r.joined = r.parsed.combineCallbacks := if_pos ho
  exact ⟨r, rfl, r.final_hooks, hjoined ▸ Script.hooks_combineCallbacks_subset r.parsed,
    r.nodup_resolved_iff ho⟩

/-! ### An example -/

/-- A script with three callbacks at one control, two of them written alike. -/
def knobText : String :=
  "on init\ndeclare ui_knob $a(0,100,1)\nend on\non ui_control($a)\nmessage(1)\nend on\n" ++
    "on ui_control(a)\nmessage(2)\nend on\non ui_control($a)\nmessage(3)\nend on\n"

/-- What is written for it: the one that is written without sigil stays apart. -/
def knobCode : String :=
  "on init\ndeclare ui_knob $a(0, 100, 1)\nend on\n" ++
    "on ui_control($a)\nmessage(1)\nmessage(3)\nend on\n" ++
    "on ui_control($a)\nmessage(2)\nend on\n"

/-- The function of the engine that is needed for it. -/
def knobBuiltins : Builtins where
  functions := [("message", ⟨["text"], none⟩)]

/-- Callbacks are joined. -/
def knobOptions : Options where
  combineCallbacks := true

theorem knobText_hooks : ∃ c,
    compile ⟨knobBuiltins, .empty⟩ knobOptions knobText = .ok c ∧
    c.code = knobCode ∧ c.options.combineCallbacks = true ∧
    ∃ r : Compilation ⟨knobBuiltins, .empty⟩ c.options knobText,
      c.code = Printer.script knobBuiltins c.options r.final ∧
      r.final.hooks = r.resolved.1.hooks.map (Hook.map r.written) ∧
      r.joined.hooks ⊆ r.parsed.hooks ∧
      ((r.resolved.1.hooks.map Hook.key).Nodup ↔ ∀ h ∈ r.joined.hooks, ∀ h' ∈ r.joined.hooks,
        r.binding h = r.binding h' → h.spelling = h'.spelling) := by
  set_option maxRecDepth 4000 in
  have htext : knobText.toList = _ := Text.toList_pieces String.toList_ofList String.toList_ofList
  have hrun : (compile ⟨knobBuiltins, .empty⟩ knobOptions knobText).toOption.map
      (fun c => (c.code, c.options.combineCallbacks)) = some (knobCode, true) := by
    rw [compile_eq_ofChars _ _ htext (by decide +kernel)]
    decide +kernel
  obtain ⟨c, hrun, hc⟩ := Option.map_eq_some_iff.mp hrun
  obtain ⟨hcode, hcombine⟩ := Prod.mk.inj hc
  have hrun := Except.toOption_eq_some.mp hrun
  exact ⟨c, hrun, hcode, hcombine, compile_hooks_nodup_iff hrun hcombine⟩

end FlatScript
