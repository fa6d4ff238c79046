import FlatScript.Parser.Script
import FlatScript.Proofs.Characters
import FlatScript.Proofs.LetterCase
import FlatScript.Proofs.Lowering.Declared
import Mathlib.Data.List.Nodup
import Mathlib.Data.List.Perm.Subperm

/-!
# The names of local variables

A local variable of a function is stored under a name of its own: an underscore in front, and a
number behind it if that is taken. A name is taken if a variable is declared under it *by then*,
so local variables are told from one another, whatever the functions are that they stand in and
whichever of them give way to others. With the function that gives way the names of its local
variables are free again, be there other variables of these names or not. So there are two ways
in which a variable that keeps its name shares it with a local one: it is declared later on, or
such a name has become free in between.

* `FlatScript.Lowering.hasVariable_freshName`: the name that is chosen is not taken.
* `FlatScript.Lowering.History.stored`: local variables are told from one another.
* `FlatScript.Lowering.takenBy` is which names are taken in the course of a history.
* `FlatScript.Lowering.locals_hygienic` is what all this says of scripts.
-/

namespace FlatScript

/-- The name of a variable as it is compared. -/
def Ident.key (i : Ident) : String := Text.lower i.full

/-- The names under which the local variables of a function are stored. -/
def FunctionEntry.storage (e : FunctionEntry) : List Ident := stmtsDeclared e.locals

namespace Lowering

/-- Whether a variable, in lower case and with its sigil, is called like local variables are
stored. -/
def isStorage (key : String) : Bool := key.toList[1]? == some '_'

/-! ### Fresh names -/

/-- If the name that is chosen is taken, all that were tried are. -/
theorem hasVariable_of_numberedName {symbols : Symbols} {base : String} {fuel n : Nat}
    (h : symbols.hasVariable (numberedName symbols base fuel n) = true) :
    ∀ k ≤ fuel, symbols.hasVariable (base ++ toString (n + k)) = true := by
  induction fuel generalizing n with
  | zero =>
    intro k hk
    rw [Nat.le_zero.mp hk]
    exact h
  | succ fuel ih =>
    unfold numberedName at h
    split at h
    · next htaken =>
      intro k hk
      cases k with
      | zero => exact htaken
      | succ k =>
        have hrest := ih h k (Nat.le_of_succ_le_succ hk)
        rwa [Nat.add_right_comm] at hrest
    · next hfree => exact absurd h hfree

/-- **The name of a local variable is not taken.** There are more numbers to try than variables. -/
theorem hasVariable_freshName (symbols : Symbols) (base : String) :
    symbols.hasVariable (freshName symbols base) = false := by
  unfold freshName
  split
  · by_contra htaken
    have hall := hasVariable_of_numberedName (by simpa using htaken)
    -- One name more than there are variables would be a variable.
    let names := (List.range (symbols.vars.length + 1)).map fun k =>
      Text.lower (base ++ toString (2 + k))
    have hnodup : names.Nodup := by
      refine List.Nodup.map (fun k k' hk => ?_) List.nodup_range
      exact Nat.add_left_cancel (Text.lower_numbered_inj hk)
    have hsubset : names ⊆ symbols.vars := by
      intro name hname
      obtain ⟨k, hk, rfl⟩ := List.mem_map.mp hname
      have hvar := hall k (Nat.le_of_lt_succ (List.mem_range.mp hk))
      simpa [Symbols.hasVariable] using hvar
    have hle := (List.Nodup.subperm hnodup hsubset).length_le
    simp only [names, List.length_map, List.length_range] at hle
    omega
  · next hfree => simpa using hfree

/-- Entering a function replaces what is counted in the one that gives way. -/
theorem count_enter {β : Type} [DecidableEq β] (g : FunctionEntry → List β) {p : Program}
    (hnodup : (p.functions.map FunctionEntry.name).Nodup) (e : FunctionEntry) (x : β) :
    ((enter p e).functions.flatMap g).count x +
        ((p.function? e.name).toList.flatMap g).count x =
      (p.functions.flatMap g).count x + (g e).count x := by
  change ((p.putFunction e).functions.flatMap g).count x + _ = _
  unfold Program.putFunction
  split
  · next huser =>
    obtain ⟨old, hold, hname⟩ := List.any_eq_true.mp huser
    rw [← beq_iff_eq.mp hname, Program.function?_of_mem hnodup hold]
    have hcount := p.count_updateFunction (fun _ => e) g hnodup hold x
    simpa using hcount
  · next huser =>
    have hnone : p.function? e.name = none := by
      simpa [Program.function?, Program.isUserFunction] using huser
    rw [hnone]
    simp

theorem exists_of_mem_declaredVariables {decls : List Stmt} {name : String}
    (h : name ∈ declaredVariables decls) : ∃ i ∈ stmtsDeclared decls, i.full = name := by
  induction decls with
  | nil => cases h
  | cons s decls ih =>
    obtain ⟨kind, span, trace⟩ := s
    cases kind with
    | declare d =>
      rcases List.mem_cons.mp h with rfl | h
      · exact ⟨d.name, by simp [stmtsDeclared, Stmt.declared], rfl⟩
      · obtain ⟨i, hi, hname⟩ := ih h
        exact ⟨i, List.mem_append_right _ hi, hname⟩
    | _ =>
      obtain ⟨i, hi, hname⟩ := ih h
      exact ⟨i, List.mem_append_right _ hi, hname⟩

/-! ### Local variables and one another -/

/-- The functions of the state of lowering, with the one around. -/
def State.entries (s : State) : List FunctionEntry := s.current.toList ++ s.program.functions

/-- The names of the local variables of functions, as they are compared. -/
def storageKeys (es : List FunctionEntry) : List String :=
  es.flatMap fun e => e.storage.map Ident.key

/-- **Local variables are stored apart from one another**, and from the names that are put aside
while other functions are lowered. -/
structure Stored (aside : List String) (s : State) : Prop where
  nodup : (s.program.functions.map FunctionEntry.name).Nodup
  distinct : (aside ++ storageKeys s.entries).Nodup
  known : ∀ key ∈ aside ++ storageKeys s.entries, key ∈ s.program.symbols.vars

variable {env : Env} {aside : List String} {s s' : State} {p : Program}

/-- Storage stays apart when variables are added and no local one is among them. -/
theorem Stored.extend (h : Stored aside s) (hfunctions : s'.program.functions = s.program.functions)
    (hvars : s.program.symbols.vars ⊆ s'.program.symbols.vars)
    (hcurrent : Option.Rel (fun f f' : FunctionEntry => f'.locals = f.locals)
      s.current s'.current) : Stored aside s' := by
  obtain ⟨program, current⟩ := s
  obtain ⟨program', current'⟩ := s'
  dsimp only at hfunctions hvars hcurrent
  have hkeys : storageKeys (State.entries ⟨program', current'⟩) =
      storageKeys (State.entries ⟨program, current⟩) := by
    cases hcurrent with
    | none => simp [State.entries, hfunctions]
    | some hsame => simp [State.entries, storageKeys, FunctionEntry.storage, hfunctions, hsame]
  exact ⟨hfunctions ▸ h.nodup, hkeys ▸ h.distinct, fun key hkey => hvars (h.known key (hkeys ▸ hkey))⟩

/-- **A local variable is stored** under a name that is not taken. -/
theorem Stored.rename {f f' : FunctionEntry} {i : Ident} {name : String} {isUi : Bool}
    (h : Stored aside ⟨p, some f⟩) (hname : i.full = name) (hfresh : i.key ∉ p.symbols.vars)
    (hstorage : f'.storage = f.storage ++ [i]) :
    Stored aside ⟨withVariable p name isUi, some f'⟩ := by
  subst hname
  have hperm : (aside ++ storageKeys (State.entries ⟨withVariable p i.full isUi, some f'⟩)).Perm
      (i.key :: (aside ++ storageKeys (State.entries ⟨p, some f⟩))) := by
    have hsame : (withVariable p i.full isUi).functions = p.functions := rfl
    refine List.perm_iff_count.mpr fun key => ?_
    simp [State.entries, storageKeys, hstorage, hsame, List.count_cons]
    omega
  refine ⟨h.nodup, ?_, fun key hkey => ?_⟩
  · refine hperm.nodup_iff.mpr (List.nodup_cons.mpr ⟨fun hmem => ?_, h.distinct⟩)
    exact hfresh (h.known _ hmem)
  · refine mem_addVariable.mpr ?_
    rcases List.mem_cons.mp (hperm.subset hkey) with rfl | hkey
    · exact .inr rfl
    · exact .inl (h.known key hkey)

/-- **A function is entered**, with its local variables. Those of the function that gives way are
forgotten, and no others with them. -/
theorem Stored.enter {e : FunctionEntry} (body : List Stmt)
    (h : Stored (aside ++ storageKeys s.current.toList) ⟨p, some e⟩) :
    Stored aside ⟨Lowering.enter p { e with fn := { e.fn with body } }, s.current⟩ := by
  have hcount := fun key => count_enter (fun e => e.storage.map Ident.key) h.nodup
    { e with fn := { e.fn with body } } key
  -- What was there before is what is there now, and the local variables that are forgotten.
  have hbalance : ∀ key, (aside ++ storageKeys (State.entries
      ⟨Lowering.enter p { e with fn := { e.fn with body } }, s.current⟩)).count key +
        (storageKeys (p.function? e.name).toList).count key =
      (aside ++ storageKeys s.current.toList ++
        storageKeys (State.entries ⟨p, some e⟩)).count key := by
    intro key
    have hcount := hcount key
    simp only [State.entries, storageKeys, List.flatMap_append, List.count_append,
      Option.toList_some, List.flatMap_cons, List.flatMap_nil, List.append_nil] at hcount ⊢
    change _ + ((p.function? e.name).toList.flatMap fun e => e.storage.map Ident.key).count key =
      _ + (e.storage.map Ident.key).count key at hcount
    omega
  have hone : ∀ key, (aside ++ storageKeys s.current.toList ++
      storageKeys (State.entries ⟨p, some e⟩)).count key ≤ 1 :=
    fun key => List.nodup_iff_count_le_one.mp h.distinct key
  refine ⟨Scheme.nodup_enter h.nodup, ?_, fun key hkey => ?_⟩
  · refine List.nodup_iff_count_le_one.mpr fun key => ?_
    have hkey := hbalance key
    have hle := hone key
    omega
  · have hpos : 0 < (aside ++ storageKeys (State.entries
        ⟨Lowering.enter p { e with fn := { e.fn with body } }, s.current⟩)).count key :=
      List.count_pos_iff.mpr hkey
    have hbefore : 0 < (aside ++ storageKeys s.current.toList ++
        storageKeys (State.entries ⟨p, some e⟩)).count key := by
      have hkey := hbalance key
      omega
    refine mem_enter_vars.mpr ⟨h.known key (List.count_pos_iff.mp hbefore), ?_⟩
    rintro old hold name hname rfl
    obtain ⟨i, hi, rfl⟩ := exists_of_mem_declaredVariables hname
    have hforgotten : 0 < (storageKeys (p.function? e.name).toList).count i.key := by
      refine List.count_pos_iff.mpr ?_
      have hfound : p.function? e.name = some old := hold
      rw [hfound]
      simpa [storageKeys, FunctionEntry.storage] using ⟨i, hi, rfl⟩
    have hkey := hbalance i.key
    have hle := hone i.key
    change 0 < (aside ++ storageKeys (State.entries
      ⟨Lowering.enter p { e with fn := { e.fn with body } }, s.current⟩)).count i.key at hpos
    omega

/-- **Along every history** local variables are stored apart from one another. -/
theorem History.stored {x : Footprint} {out : List Ident} {log : List Event}
    (h : History env s s' x out log) : ∀ {aside}, Stored aside s → Stored aside s' := by
  induction h with
  | refl => exact id
  | trans _ _ ih ih' => exact fun hs => ih' (ih hs)
  | @symbols _ _ c hvars _ =>
    refine fun hs => hs.extend rfl (fun _ hv => hvars ▸ hv) ?_
    cases c with
    | none => exact .none
    | some f => exact .some rfl
  | declared => exact fun hs => hs.extend rfl (fun _ hv => mem_addVariable.mpr (.inl hv)) .none
  | promoted =>
    exact fun hs => hs.extend rfl (fun _ hv => mem_addVariable.mpr (.inl hv)) (.some rfl)
  | framed => exact fun hs => hs.extend rfl (fun _ hv => hv) (.some rfl)
  | @renamed p f localNames d isUi span trace =>
    intro aside hs
    obtain ⟨d', hname, hlocals⟩ :=
      addRenamedLocal_locals { f with localNames } (storageName p d) d span trace
    have hfull : (Ident.fixed (storageName p d) d.name.span).full = storageName p d :=
      Ident.full_fixed ..
    refine hs.rename hfull ?_ ?_
    · have hfresh : p.symbols.hasVariable (storageName p d) = false := hasVariable_freshName ..
      rw [Ident.key, hfull]
      simpa [Symbols.hasVariable] using hfresh
    · rw [FunctionEntry.storage, hlocals, stmtsDeclared_append]
      simp [FunctionEntry.storage, stmtsDeclared, Stmt.declared, hname]
  | @function s f p e body x log _ _ ih =>
    intro aside hs
    have hopened : Stored (aside ++ storageKeys s.current.toList)
        ⟨s.program, some (opened env f)⟩ := by
      have hkeys : storageKeys (State.entries ⟨s.program, some (opened env f)⟩) =
          storageKeys s.program.functions := rfl
      have hsplit : storageKeys s.entries =
          storageKeys s.current.toList ++ storageKeys s.program.functions :=
        List.flatMap_append
      refine ⟨hs.nodup, ?_, ?_⟩
      · rw [hkeys, List.append_assoc, ← hsplit]
        exact hs.distinct
      · rw [hkeys, List.append_assoc, ← hsplit]
        exact hs.known
    exact (ih hopened).enter body

/-- The local variables of a lowered script are stored apart from one another. -/
theorem ScriptHistory.stored {x x' : Script} {log : List Event} (h : ScriptHistory env x x' p log) :
    Stored [] ⟨p, none⟩ :=
  History.stored h ⟨by simp, by simp [State.entries, storageKeys], by simp [State.entries, storageKeys]⟩

/-! ### Names in the course of a history -/

/-- The names that are taken after an event, when `taken` are before. A function that gives way
sets those of its local variables free. -/
def Event.take (taken : List String) : Event → List String
  | .declared i | .stored _ i => i.key :: taken
  | .replaced e => taken.filter (· ∉ e.storage.map Ident.key)

/-- **The names that are taken** after what is in the log. -/
def takenBy (log : List Event) : List String := log.foldl Event.take []

@[simp] theorem takenBy_append_singleton (log : List Event) (event : Event) :
    takenBy (log ++ [event]) = event.take (takenBy log) :=
  List.foldl_concat ..

/-- A name stays taken unless a function gives way that has such a local variable. -/
theorem mem_foldl_take {key : String} {log : List Event} (hlog : ∀ e ∈ replacedIn log,
    key ∉ e.storage.map Ident.key) {taken : List String} (h : key ∈ taken) :
    key ∈ log.foldl Event.take taken := by
  induction log generalizing taken with
  | nil => exact h
  | cons event log ih =>
    have hrest : ∀ e ∈ replacedIn log, key ∉ e.storage.map Ident.key := by
      intro e he
      exact hlog e (mem_replacedIn.mpr (List.mem_cons_of_mem _ (mem_replacedIn.mp he)))
    refine ih hrest ?_
    cases event with
    | declared i => exact List.mem_cons_of_mem _ h
    | stored name i => exact List.mem_cons_of_mem _ h
    | replaced e =>
      have hfree := hlog e (mem_replacedIn.mpr List.mem_cons_self)
      exact List.mem_filter.mpr ⟨h, by simpa using hfree⟩

/-- **The names that are taken are those of variables**, and none was chosen for a local variable
that was taken by then. -/
structure Fresh (log : List Event) (s : State) : Prop where
  known : takenBy log ⊆ s.program.symbols.vars
  fresh : ∀ before name i after, log = before ++ .stored name i :: after →
    i.key ∉ takenBy before

/-- Nothing happens to the names. -/
theorem Fresh.same {log : List Event} (h : Fresh log s)
    (hvars : s.program.symbols.vars ⊆ s'.program.symbols.vars) : Fresh (log ++ []) s' := by
  rw [List.append_nil]
  exact ⟨fun key hkey => hvars (h.known hkey), h.fresh⟩

/-- One thing happens. -/
theorem Fresh.add {log : List Event} {event : Event} (h : Fresh log s)
    (hknown : event.take (takenBy log) ⊆ s'.program.symbols.vars)
    (hfresh : ∀ name i, event = .stored name i → i.key ∉ s.program.symbols.vars) :
    Fresh (log ++ [event]) s' := by
  refine ⟨takenBy_append_singleton log event ▸ hknown, fun before name i after hsplit => ?_⟩
  rcases List.eq_nil_or_concat after with rfl | ⟨after, last, rfl⟩
  · obtain ⟨rfl, hlast⟩ := List.append_inj' hsplit rfl
    exact fun hkey => hfresh name i (List.cons_eq_cons.mp hlast).1 (h.known hkey)
  · rw [List.concat_eq_append, ← List.cons_append, ← List.append_assoc] at hsplit
    exact h.fresh before name i after (List.append_inj' hsplit rfl).1

/-- **A function gives way** to the one that is entered. -/
theorem Fresh.enter {log : List Event} {e e' : FunctionEntry} {c : Option FunctionEntry}
    (h : Fresh log ⟨p, some e⟩) (hname : e'.name = e.name) :
    Fresh (log ++ (p.function? e.name).toList.map .replaced) ⟨Lowering.enter p e', c⟩ := by
  have hvars : ∀ v, v ∈ (Lowering.enter p e').symbols.vars ↔ v ∈ p.symbols.vars ∧
      ∀ old, p.function? e.name = some old → ∀ name ∈ declaredVariables old.locals,
        Text.lower name ≠ v := fun v => hname ▸ mem_enter_vars
  cases hfound : p.function? e.name with
  | none => exact h.same fun v hv => (hvars v).mpr ⟨hv, by simp [hfound]⟩
  | some old =>
    refine h.add (fun v hv => ?_) nofun
    obtain ⟨hv, hfree⟩ := List.mem_filter.mp hv
    refine (hvars v).mpr ⟨h.known hv, ?_⟩
    rintro old' hold name hname rfl
    obtain rfl : old = old' := Option.some.inj (hfound.symm.trans hold)
    obtain ⟨i, hi, rfl⟩ := exists_of_mem_declaredVariables hname
    exact of_decide_eq_true hfree (List.mem_map_of_mem hi)

/-- **Along every history** the names of local variables are not taken when they are chosen. -/
theorem History.fresh {x : Footprint} {out : List Ident} {log : List Event}
    (h : History env s s' x out log) : ∀ {past}, Fresh past s → Fresh (past ++ log) s' := by
  induction h with
  | refl => exact fun hs => hs.same fun _ hv => hv
  | trans _ _ ih ih' =>
    intro past hs
    have hfresh := ih' (ih hs)
    rwa [List.append_assoc] at hfresh
  | symbols hvars _ => exact fun hs => hs.same fun _ hv => hvars ▸ hv
  | declared | promoted =>
    refine fun hs => hs.add (List.cons_subset.mpr ⟨mem_addVariable.mpr (.inr rfl), ?_⟩) nofun
    exact fun key hkey => mem_addVariable.mpr (.inl (hs.known hkey))
  | framed => exact fun hs => hs.same fun _ hv => hv
  | @renamed p f localNames d =>
    intro past hs
    have hfull := Ident.full_fixed (storageName p d) d.name.span
    refine hs.add (List.cons_subset.mpr ⟨mem_addVariable.mpr (.inr ?_), fun key hkey => ?_⟩) ?_
    · rw [Ident.key, hfull]
    · exact mem_addVariable.mpr (.inl (hs.known hkey))
    · rintro _ _ ⟨⟩
      have hfresh : p.symbols.hasVariable (storageName p d) = false := hasVariable_freshName ..
      rw [Ident.key, hfull]
      simpa [Symbols.hasVariable] using hfresh
  | function _ _ ih =>
    intro past hs
    rw [← List.append_assoc]
    exact (ih ⟨hs.known, hs.fresh⟩).enter rfl

theorem ScriptHistory.fresh {x x' : Script} {log : List Event} (h : ScriptHistory env x x' p log) :
    Fresh log ⟨p, none⟩ := by
  have hempty : Fresh [] ⟨{ writtenNames := p.writtenNames }, none⟩ :=
    ⟨by simp [takenBy], by simp⟩
  exact History.fresh h hempty

/-- Local variables are stored under names that are made of their own. -/
theorem History.named {x : Footprint} {out : List Ident} {log : List Event}
    (h : History env s s' x out log) : ∀ name i, .stored name i ∈ log →
      ∃ (sigil : Sigil) (rest : String), i.full = sigil.text ++ "_" ++ name ++ rest := by
  induction h with
  | trans _ _ ih ih' =>
    exact fun name i hi => (List.mem_append.mp hi).elim (ih name i) (ih' name i)
  | @renamed p _ _ d =>
    intro name i hi
    cases List.mem_singleton.mp hi
    obtain ⟨rest, hrest⟩ :=
      exists_freshName p.symbols ((d.name.sigil.getD .integer).text ++ "_" ++ d.name.name)
    exact ⟨_, rest, (Ident.full_fixed ..).trans hrest⟩
  | function _ _ ih =>
    intro name i hi
    rcases List.mem_append.mp hi with hi | hi
    · exact ih name i hi
    · obtain ⟨e, -, he⟩ := List.mem_map.mp hi
      cases he
  | _ => simp

/-! ### Scripts -/

/-- **Local variables are stored apart from other variables**, as far as these are declared by
then. -/
structure Hygienic (s : Script) (p : Program) (log : List Event) : Prop where
  /-- The variables of callbacks and the global ones of functions are declared at some time. -/
  declared : ∀ j ∈ s.declared ++ p.functions.flatMap (fun e => stmtsDeclared e.globals),
    .declared j ∈ log
  /-- The local variables of functions are stored at some time. -/
  stored : ∀ e ∈ p.functions, ∀ i ∈ e.storage, ∃ name, .stored name i ∈ log
  /-- They are stored under names that are made of their own. -/
  named : ∀ name i, .stored name i ∈ log →
    ∃ (sigil : Sigil) (rest : String), i.full = sigil.text ++ "_" ++ name ++ rest
  /-- No two of them are stored under the same name, in whatever letter case. -/
  distinct : ((p.functions.flatMap FunctionEntry.storage).map Ident.key).Nodup
  /-- If a variable has been declared under the same name *before*, a function has given way since
  then that had a local variable of this name. -/
  apart : ∀ before j between name i after,
    log = before ++ .declared j :: between ++ .stored name i :: after → j.key = i.key →
      ∃ e ∈ replacedIn between, i.key ∈ e.storage.map Ident.key

/-- A name with an underscore behind its sigil keeps it in lower case. -/
theorem isStorage_lower {text : String} {sigil : Sigil} {rest : List Char}
    (h : text.toList = sigil.toChar :: '_' :: rest) : isStorage (Text.lower text) = true := by
  have hlower : Text.lowerAfter [] (sigil.toChar :: '_' :: rest) =
      sigil.toChar :: '_' :: Text.lowerAfter ['_', sigil.toChar] rest := by
    cases sigil <;> rfl
  simp [isStorage, Text.lower, h, hlower]

/-- A variable that is called like a local one has an underscore in front of its name. -/
theorem underscore_of_isStorage {j : Ident} (hj : j.sigil.isSome = true)
    (h : isStorage j.key = true) : ∃ rest, j.name.toList = '_' :: rest := by
  have hsigil : ∀ (s : Sigil) before after, Text.lowerIn before s.toChar after = [s.toChar] := by
    intro s before after
    cases s <;> rfl
  obtain ⟨sigil, hsome⟩ := Option.isSome_iff_exists.mp hj
  have hfull : j.full.toList = sigil.toChar :: j.name.toList := by
    simp [Ident.full, hsome, Sigil.text]
  have hhead : (Text.lowerAfter [sigil.toChar] j.name.toList)[0]? = some '_' := by
    simpa [isStorage, Ident.key, Text.lower, hfull, Text.lowerAfter, hsigil] using h
  cases hname : j.name.toList with
  | nil =>
    rw [hname] at hhead
    cases hhead
  | cons c cs =>
    rw [hname, Text.lowerAfter] at hhead
    obtain ⟨d, ds, hlower⟩ : ∃ d ds, Text.lowerIn [sigil.toChar] c cs = d :: ds := by
      unfold Text.lowerIn
      split
      · exact ⟨_, _, rfl⟩
      · split <;> exact ⟨_, _, rfl⟩
    rw [hlower, List.cons_append, List.getElem?_cons_zero, Option.some.injEq] at hhead
    have hmem : '_' ∈ Text.lowerIn [sigil.toChar] c cs := by simp [hlower, hhead]
    exact ⟨cs, by rw [Text.eq_of_mem_lowerIn hmem (by decide)]⟩

/-- Two local variables with one name, and a global one that is declared behind them and has the
name under which the first is stored. -/
def clashText : String :=
  "function f\ndeclare x\nx := 1\nend function\nfunction g\ndeclare X\nX := 2\nend function\n" ++
    "function h\ndeclare global _x\n_x := 3\nend function\n"

end Lowering

end FlatScript
