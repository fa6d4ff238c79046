import FlatScript.Proofs.Characters
import FlatScript.Proofs.Closure
import Mathlib.Logic.Relation

/-!
# Which names stay apart without dots

Names are written with two underscores for every dot, and a script may use such names itself: the
variable `a.b` and the variable `a__b` become one. Nothing else makes names one. Two names do exactly
when one is a respelling of the other, which goes from dots to pairs of underscores or back, and in
one of two different names with one form an underscore stands next to another one or to a dot.

* `FlatScript.Name.Respelled` relates a name to its respellings, and `FlatScript.Name.Clear` says that
  a name has no underscore next to another one or to a dot.
* `FlatScript.Undotting.merges_respelled`: the step makes respellings one, and no other names, among
  the declared variables, the declarations of the script and its functions.
* `FlatScript.mergedText_merges` is a script with two variables and two functions that become one.
-/

namespace FlatScript

namespace Name

/-! ### Respellings -/

/-- One dot of a name written as two underscores. -/
def WritesDot (m n : String) : Prop :=
  ∃ front back : List Char, m.toList = front ++ '.' :: back ∧ n.toList = front ++ '_' :: '_' :: back

/-- **Names that differ by respelling**: dots become pairs of underscores, or such pairs dots. -/
def Respelled (m n : String) : Prop := Relation.EqvGen WritesDot m n

/-- The name with every dot written as two underscores, as characters. -/
theorem toList_undotted (n : String) :
    (undotted n).toList = Text.replaceChar '.' ['_', '_'] n.toList := by
  rw [undotted, String.toList_ofList]

theorem replaceChar_append (c : Char) (t xs ys : List Char) :
    Text.replaceChar c t (xs ++ ys) = Text.replaceChar c t xs ++ Text.replaceChar c t ys :=
  List.flatMap_append

theorem WritesDot.undotted {m n : String} (h : WritesDot m n) :
    Name.undotted m = Name.undotted n := by
  obtain ⟨front, back, hm, hn⟩ := h
  rw [← String.toList_inj, toList_undotted, toList_undotted, hm, hn, replaceChar_append,
    replaceChar_append]
  rfl

/-- Dots are written one after the other. -/
theorem respelled_replaceChar (front back : List Char) :
    Respelled (String.ofList (front ++ back))
      (String.ofList (front ++ Text.replaceChar '.' ['_', '_'] back)) := by
  induction back generalizing front with
  | nil => exact .refl _
  | cons c back ih =>
    by_cases hc : c = '.'
    · subst hc
      have hfirst : WritesDot (String.ofList (front ++ '.' :: back))
          (String.ofList (front ++ '_' :: '_' :: back)) :=
        ⟨front, back, String.toList_ofList, String.toList_ofList⟩
      have hrest := ih (front ++ ['_', '_'])
      rw [List.append_assoc, List.append_assoc] at hrest
      exact .trans _ _ _ (.rel _ _ hfirst) hrest
    · have hrest := ih (front ++ [c])
      rw [List.append_assoc, List.append_assoc] at hrest
      have hhead : Text.replaceChar '.' ['_', '_'] (c :: back) =
          [c] ++ Text.replaceChar '.' ['_', '_'] back := by
        rw [Text.replaceChar, List.flatMap_cons, if_neg hc]
        rfl
      rw [hhead]
      exact hrest

/-- **Names have one form without dots exactly when they differ by respelling.** -/
theorem undotted_eq_iff {m n : String} : undotted m = undotted n ↔ Respelled m n := by
  have hself : ∀ n : String, Respelled n (undotted n) := by
    intro n
    have h := respelled_replaceChar [] n.toList
    rwa [List.nil_append, List.nil_append, String.ofList_toList] at h
  refine ⟨fun h => ?_, fun h => ?_⟩
  · exact .trans _ _ _ (hself m) (h ▸ .symm _ _ (hself n))
  · induction h with
    | rel m n h => exact h.undotted
    | refl n => rfl
    | symm m n _ ih => exact ih.symm
    | trans l m n _ _ ihl ihm => exact ihl.trans ihm

/-! ### Clear names -/

/-- Whether two characters may stand side by side in a name that can be read off its form without
dots. -/
def MayFollow (c d : Char) : Prop := ¬(c = '_' ∧ (d = '_' ∨ d = '.')) ∧ ¬(c = '.' ∧ d = '_')

instance : DecidableRel MayFollow := fun _ _ => inferInstanceAs (Decidable (_ ∧ _))

/-- **A clear name**: no underscore stands next to another one or to a dot. -/
def Clear (n : String) : Prop := n.toList.IsChain MayFollow

instance (n : String) : Decidable (Clear n) := inferInstanceAs (Decidable (List.IsChain _ _))

/-- The form without dots starts with an underscore only for a dot or an underscore. -/
theorem head_of_replaceChar {cs ds : List Char}
    (h : Text.replaceChar '.' ['_', '_'] cs = '_' :: ds) :
    ∃ c cs', cs = c :: cs' ∧ (c = '_' ∨ c = '.') := by
  cases cs with
  | nil => cases h
  | cons c cs =>
    refine ⟨c, cs, rfl, ?_⟩
    by_cases hc : c = '.'
    · exact .inr hc
    · rw [Text.replaceChar, List.flatMap_cons, if_neg hc] at h
      exact .inl (List.cons.inj h).1

/-- **A clear name can be read off its form without dots.** -/
theorem eq_of_replaceChar_eq : ∀ {cs ds : List Char}, cs.IsChain MayFollow → ds.IsChain MayFollow →
    Text.replaceChar '.' ['_', '_'] cs = Text.replaceChar '.' ['_', '_'] ds → cs = ds
  | [], [], _, _, _ => rfl
  | [], d :: ds, _, _, h => by
    rw [Text.replaceChar, Text.replaceChar, List.flatMap_cons] at h
    split at h <;> cases h
  | c :: cs, [], _, _, h => by
    rw [Text.replaceChar, Text.replaceChar, List.flatMap_cons] at h
    split at h <;> cases h
  | c :: cs, d :: ds, hcs, hds, h => by
    -- A dot has the form of two underscores, which a clear name does not hold.
    have hpair : ∀ {c : Char} {cs tail : List Char}, (c :: cs).IsChain MayFollow → c ≠ '.' →
        Text.replaceChar '.' ['_', '_'] (c :: cs) = '_' :: '_' :: tail → False := by
      intro c cs tail hchain hc heq
      rw [Text.replaceChar, List.flatMap_cons, if_neg hc] at heq
      obtain ⟨hc', heq⟩ := List.cons.inj heq
      obtain ⟨d, cs', rfl, hd⟩ := head_of_replaceChar heq
      rw [List.isChain_cons_cons] at hchain
      exact hchain.1.1 ⟨hc', hd⟩
    by_cases hc : c = '.'
    · by_cases hd : d = '.'
      · subst hc hd
        have htail := (List.cons.inj (List.cons.inj h).2).2
        rw [eq_of_replaceChar_eq hcs.of_cons hds.of_cons htail]
      · subst hc
        exact absurd h.symm fun h => hpair hds hd h
    · by_cases hd : d = '.'
      · subst hd
        exact absurd h fun h => hpair hcs hc h
      · rw [Text.replaceChar, Text.replaceChar, List.flatMap_cons, List.flatMap_cons, if_neg hc,
          if_neg hd] at h
        obtain ⟨rfl, htail⟩ := List.cons.inj h
        rw [eq_of_replaceChar_eq hcs.of_cons hds.of_cons htail]

/-- **Different clear names have different forms without dots.** -/
theorem Clear.eq_of_respelled {m n : String} (hm : Clear m) (hn : Clear n) (h : Respelled m n) :
    m = n := by
  have heq := undotted_eq_iff.mpr h
  rw [← String.toList_inj, toList_undotted, toList_undotted] at heq
  exact String.toList_inj.mp (eq_of_replaceChar_eq hm hn heq)

/-! ### Lists of names -/

/-- **Names that merge only with respellings**, when each of `before` becomes the one of `after` in its
place. Different names of which both are clear stay apart. -/
def MergesRespelled (before after : List String) : Prop :=
  before.length = after.length ∧ ∀ (i j : Nat) (m n : String),
    before[i]? = some m → before[j]? = some n → m ≠ n →
    (after[i]? = after[j]? ↔ Respelled m n) ∧ (Respelled m n → ¬Clear m ∨ ¬Clear n)

theorem mergesRespelled_map (names : List String) : MergesRespelled names (names.map undotted) := by
  refine ⟨(List.length_map _).symm, fun i j m n hi hj hne => ⟨?_, fun h => ?_⟩⟩
  · rw [List.getElem?_map, List.getElem?_map, hi, hj, Option.map_some, Option.map_some,
      Option.some_inj, undotted_eq_iff]
  · by_contra hclear
    rw [not_or, not_not, not_not] at hclear
    exact hne (Clear.eq_of_respelled hclear.1 hclear.2 h)

end Name

/-! ### The step -/

/-- **Without dots, names merge with their respellings only**: the variables of the table, the
declarations of the script, and its functions. -/
theorem Undotting.merges_respelled {s s' : Script} {p p' : Program}
    (hrun : (Undotting.script s).run p = .ok (s', p')) :
    (∃ vars, p'.symbols.vars = Name.distinct vars ∧ Name.MergesRespelled p.symbols.vars vars) ∧
      Name.MergesRespelled (s.declared.map Ident.full) (s'.declared.map Ident.full) ∧
      Name.MergesRespelled (s.functions.map (·.name.full)) (s'.functions.map (·.name.full)) := by
  cases hrun
  refine ⟨⟨_, rfl, Name.mergesRespelled_map _⟩, ?_, ?_⟩
  · have hdeclared : ((undot.script s).declared).map Ident.full =
        (s.declared.map Ident.full).map Name.undotted := by
      rw [Renaming.script_declared, List.map_map, List.map_map]
      exact List.map_congr_left fun i _ => full_ident i
    rw [hdeclared]
    exact Name.mergesRespelled_map _
  · have hfunctions : ((undot.script s).functions).map (·.name.full) =
        (s.functions.map (·.name.full)).map Name.undotted := by
      simp only [Script.functions, Renaming.script, List.map_filterMap, List.filterMap_map]
      congr 1
      funext b
      cases b with
      | callback c => rfl
      | function f => exact congrArg some (full_ident f.name)
    rw [hfunctions]
    exact Name.mergesRespelled_map _

/-! ### A script with names that merge -/

/-- The script in front of the step, when the options ask for nothing, and its table. -/
def dottedScript (env : Env) (source : String) : Option (Script × Program) := do
  let parsed ← (Script.parse source env.lines).toOption
  let lowered ← ((Lowering.script env parsed).run {}).toOption
  let typed ← ((Sigils.script env lowered.1).run lowered.2).toOption
  let expanded ← ((Inlining.script env typed.1).run typed.2).toOption
  let framed ← ((Taskfunc.program env).run expanded.2).toOption
  let arranged ← ((Arrangement.script expanded.1).run framed.2).toOption
  let resolved ← ((Sigils.script env arranged.1).run arranged.2).toOption
  ((Controls.script env resolved.1).run resolved.2).toOption

/-- The declared variables, the names of declarations and those of functions. -/
def namesOf (s : Script × Program) : List String × List String × List String :=
  (s.2.symbols.vars, s.1.declared.map Ident.full, s.1.functions.map (·.name.full))

/-- A script with a member of a family and a variable of its own, and two functions, whose names differ
by respelling. -/
def mergedText : String :=
  "on init\nfamily a\ndeclare b\nend family\ndeclare a__b\nend on\n" ++
    "on note\na.b := 1\na__b := 2\ncall f.g\ncall f__g\nend on\n" ++
    "function f.g\nend function\nfunction f__g\nend function\n"

/-- **Names do not always stay apart**: two variables become one, and so do two functions. -/
theorem mergedText_merges : ∃ s p s' p', dottedScript ⟨{}, .empty⟩ mergedText = some (s, p) ∧
    (Undotting.script s).run p = .ok (s', p') ∧
    namesOf (s, p) = (["$a.b", "$a__b"], ["$a.b", "$a__b"], ["f.g", "f__g"]) ∧
    namesOf (s', p') = (["$a__b"], ["$a__b", "$a__b"], ["f__g", "f__g"]) := by
  set_option maxRecDepth 4000 in
  have htext : mergedText.toList = _ :=
    Text.toList_pieces (Text.toList_pieces String.toList_ofList String.toList_ofList) String.toList_ofList
  have hrun : ((dottedScript ⟨{}, .empty⟩ mergedText).bind fun before =>
      ((Undotting.script before.1).run before.2).toOption.map fun after =>
        (namesOf before, namesOf after)) =
      some ((["$a.b", "$a__b"], ["$a.b", "$a__b"], ["f.g", "f__g"]),
        (["$a__b"], ["$a__b", "$a__b"], ["f__g", "f__g"])) := by
    rw [dottedScript, Script.parse_eq_ofChars htext]
    decide +kernel
  obtain ⟨⟨s, p⟩, hdotted, hrun⟩ := Option.bind_eq_some_iff.mp hrun
  obtain ⟨⟨s', p'⟩, hundot, hnames⟩ := Option.map_eq_some_iff.mp hrun
  obtain ⟨hbefore, hafter⟩ := Prod.mk.inj hnames
  exact ⟨s, p, s', p', hdotted, Except.toOption_eq_some.mp hundot, hbefore, hafter⟩

/-- What the step does to the names of that script. -/
theorem mergedText_respelled : ∃ s p s' p', dottedScript ⟨{}, .empty⟩ mergedText = some (s, p) ∧
    (Undotting.script s).run p = .ok (s', p') ∧
    (∃ vars, p'.symbols.vars = Name.distinct vars ∧ Name.MergesRespelled p.symbols.vars vars) ∧
    Name.MergesRespelled (s.declared.map Ident.full) (s'.declared.map Ident.full) ∧
    Name.MergesRespelled (s.functions.map (·.name.full)) (s'.functions.map (·.name.full)) := by
  set_option maxRecDepth 4000 in
  have htext : mergedText.toList = _ :=
    Text.toList_pieces (Text.toList_pieces String.toList_ofList String.toList_ofList) String.toList_ofList
  have hsome : (dottedScript ⟨{}, .empty⟩ mergedText).isSome = true := by
    rw [dottedScript, Script.parse_eq_ofChars htext]
    decide +kernel
  obtain ⟨⟨s, p⟩, hdotted⟩ := Option.isSome_iff_exists.mp hsome
  exact ⟨s, p, _, _, hdotted, rfl, Undotting.merges_respelled rfl⟩

end FlatScript
