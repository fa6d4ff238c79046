import FlatScript.Proofs.Layout.Namespaces
import FlatScript.Proofs.Orthography.Passes
import FlatScript.Proofs.Writing.Tokens

/-!
# The orthography of solid lines

No lexeme goes on behind a line feed, and a name starts with a letter, an underscore or a digit once
its sigil is taken off. So the tokens of every text obey an orthography, `FlatScript.solidNames`,
under which the lines of a script are solid, and the passes keep it.

* `FlatScript.Token.obeys_solidNames`: the tokens obey it.
* `FlatScript.solidNames_stays`: what passes do to names is allowed.
* `FlatScript.Produced.isSolid`: so the blocks of whatever passes have made are solid.
-/

namespace FlatScript

/-- **Names in solid lines.** Whatever may come to the front of a line is solid with or without its
sigil; all else is flush. -/
def solidNames : Orthography where
  reference _ name := Solid name
  callee sigil name := Flush name ∧ (sigil = none → Solid name)
  declared := Flush
  title := Flush
  family := Solid
  string := Flush
  raw := Flush
  word := Flush
  placed := False

/-! ### Tokens -/

/-- **No lexeme goes on behind a line feed.** -/
theorem Scan.IsLexeme.feed_notMem {kind : TokenKind} {cs : List Char} (h : IsLexeme kind cs)
    (hkind : kind = .identifier ∨ kind = .string) : '\n' ∉ cs := by
  obtain ⟨first, rest, hlist, hlex⟩ := h
  have hfirst : first ≠ '\n' := by
    rintro rfl
    have hinvalid : (lexeme '\n' rest).kind = .invalid := rfl
    rw [hlex] at hinvalid
    rcases hkind with rfl | rfl <;> cases hinvalid
  rw [hlist, List.mem_cons, not_or]
  refine ⟨hfirst.symm, fun hfeed => ?_⟩
  -- Up to the line feed it would be the same lexeme, which has no place there.
  obtain ⟨xs, cs, rfl⟩ := List.append_of_mem hfeed
  have hle := lexeme_length_le first xs
  have hfront : lexeme first (xs ++ '\n' :: cs) = lexeme first xs := lexeme_append_feed first
  rw [← hfront, hlex] at hle
  simp at hle

/-- A name is solid without its sigil. -/
theorem Scan.IsLexeme.solid_name {text : String} (h : IsLexeme .identifier text.toList) :
    Solid (Sigil.split text).2 := by
  have hflush : Flush text := flushChars_of_notMem (h.feed_notMem (.inl rfl))
  refine ⟨hflush.splitSigil, ?_⟩
  have hname : ∀ {c}, continuesName c = true → standsOnLine c = true := by
    intro c hc
    have hmem : c ∉ [' ', '\n', '\ufeff'] := notMem_of_class hc (by decide)
    simpa [standsOnLine, startsLine, and_assoc] using hmem
  obtain ⟨first, rest, hlist, hlex⟩ := h
  have hstart : startsWord first rest = true := startsWord_of_kind (by rw [hlex])
  simp only [startsWord, Bool.or_eq_true, Bool.and_eq_true] at hstart
  simp only [Sigil.split, hlist]
  cases hsigil : Sigil.ofChar? first with
  | none =>
    rw [hsigil] at hstart
    have hfirst : startsName first = true := by simpa using hstart
    simp only [hlist]
    exact hname (by simp [continuesName, hfirst])
  | some sigil =>
    have hfirst : startsName first ≠ true := by
      unfold Sigil.ofChar? at hsigil
      split at hsigil <;> first | decide | cases hsigil
    have hrest := (hstart.resolve_left hfirst).2
    cases rest with
    | nil => cases hrest
    | cons c rest =>
      rw [String.toList_ofList]
      exact hname hrest

theorem Solid.names {text : String} (hflush : Flush text) (h : Solid (Sigil.split text).2) :
    solidNames.Names text :=
  ⟨h, ⟨h.flush, fun _ => h⟩, h.flush, h.flush, h, hflush⟩

/-- **The tokens of a text obey the orthography of solid lines.** -/
theorem Token.obeys_solidNames {source : String} {t : Token} (ht : t ∈ (tokenize source).1) :
    t.Obeys solidNames where
  name hkind := by
    have hlex := Scan.isLexeme_of_mem ht (.inl hkind)
    rw [hkind] at hlex
    exact Solid.names (flushChars_of_notMem (hlex.feed_notMem (.inl rfl))) hlex.solid_name
  string hkind :=
    flushChars_of_notMem ((Scan.isLexeme_of_mem ht (.inr hkind)).feed_notMem (.inr hkind))

/-! ### Names of the passes -/

theorem flush_toString (n : Nat) : Flush (toString n) := by
  have hdigits : '\n' ∉ n.repr.toList := by
    rw [Nat.toList_repr]
    exact Printer.feed_notMem_digits (toDigits_isDigit _)
  exact flushChars_of_notMem hdigits

/-- The name of a local variable starts with an underscore behind its sigil. -/
theorem solid_unique {d : Declaration} {unique : String} (hname : Flush d.name.name)
    (h : Lowering.isUnique d unique) : Solid (Sigil.split unique).2 := by
  obtain ⟨sigil, rest, hsplit⟩ := h.split
  have hflush : Flush unique := by
    obtain ⟨symbols, rfl⟩ := h
    have hbase : Flush ((d.name.sigil.getD .integer).text ++ "_" ++ d.name.name) := by
      rw [String.append_assoc]
      exact (Flush.behindSigil (Flush.append (by decide) hname) _).flush
    rcases Lowering.freshName_cases symbols
      ((d.name.sigil.getD .integer).text ++ "_" ++ d.name.name) with heq | ⟨n, heq⟩
    · rwa [heq]
    · rw [heq]
      exact hbase.append (flush_toString n)
  have hbare := hflush.splitSigil
  rw [hsplit] at hbare ⊢
  refine ⟨hbare, ?_⟩
  rw [String.toList_ofList]
  rfl

/-- The character behind a line feed stays, or an underscore takes its place. -/
theorem flushChars_undotted {cs : List Char} (h : flushChars cs = true) :
    flushChars (Text.replaceChar '.' ['_', '_'] cs) = true := by
  induction cs with
  | nil => rfl
  | cons c cs ih =>
    rw [flushChars_cons] at h
    rw [Text.replaceChar, List.flatMap_cons]
    by_cases hdot : c = '.'
    · rw [if_pos hdot]
      exact flushChars_append (by decide) (ih h.2)
    · rw [if_neg hdot, List.singleton_append, flushChars_cons]
      refine ⟨fun hfeed => ?_, ih h.2⟩
      have hstarts := h.1 hfeed
      cases cs with
      | nil => cases hstarts
      | cons d cs =>
        rw [List.flatMap_cons]
        split
        · rfl
        · exact hstarts

theorem Flush.undotted {name : String} (h : Flush name) : Flush (Name.undotted name) := by
  rw [Flush, Name.undotted, String.toList_ofList]
  exact flushChars_undotted h

theorem Solid.undotted {name : String} (h : Solid name) : Solid (Name.undotted name) := by
  refine ⟨h.flush.undotted, ?_⟩
  obtain ⟨c, rest, hlist, hc⟩ := h.exists_front
  rw [Name.undotted, String.toList_ofList, hlist, Text.replaceChar, List.flatMap_cons]
  split
  · rfl
  · exact hc

theorem flush_of_full {i : Ident} (h : Flush i.full) : Flush i.name := by
  unfold Ident.full at h
  split at h
  · refine h.suffix ?_
    rw [String.toList_append]
    exact List.suffix_append _ _
  · exact h

/-- A name in front of which only its sigil can stand. -/
theorem solid_full_iff {i : Ident} :
    Solid i.full ↔ Flush i.name ∧ (i.sigil = none → Solid i.name) := by
  refine ⟨fun h => ⟨flush_of_full h.flush, fun hnone => ?_⟩, fun h => ?_⟩
  · simpa only [Ident.full, hnone] using h
  · unfold Ident.full
    split
    · exact h.1.behindSigil _
    · next hnone => exact h.2 hnone

/-- A solid text as the name of a function. -/
theorem Solid.callee {text : String} (h : Solid text) :
    solidNames.callee (Sigil.split text).1 (Sigil.split text).2 := by
  have hfull : Solid (Ident.ofText text .zero).full := by rwa [Ident.full_ofText]
  have hsplit := solid_full_iff.mp hfull
  exact hsplit

/-- Letters of the alphabet for short names. -/
theorem Compaction.solid_letters (n : Nat) : Solid (String.ofList (letters 5 n)) := by
  have hletters := forall_letters (P := fun c => c ≠ '\n' ∧ standsOnLine c = true) (by decide) 5 n
  refine ⟨?_, ?_⟩
  · rw [Flush, String.toList_ofList]
    exact flushChars_of_notMem fun hmem => (hletters _ hmem).1 rfl
  · rw [String.toList_ofList]
    exact (hletters _ List.mem_cons_self).2

/-- **Names stay solid under such namespaces.** -/
def solidNames_under {lines : Lines} (hl : lines.SolidNamespaces) : solidNames.Under lines where
  families := SolidPrefix
  nil := .nil
  namespaces := hl
  snoc hf h := hf.snoc h
  reference h := h.qualified (hl _)
  callee h := ⟨h.1.qualified (hl _).flush, fun hnone => (h.2 hnone).qualified (hl _)⟩
  declared hf h := h.qualified hf.flush
  title hf h := h.qualified hf.flush
  family hf h := h.qualified hf

/-- **What passes do to names keeps lines solid.** -/
theorem solidNames_stays : solidNames.Stays where
  ownVariable := by
    have hall : ∀ text ∈ Orthography.ownVariables, Solid (Sigil.split text).2 := by decide +kernel
    exact hall
  ownFunction text ht := by
    have hall : ∀ text ∈ Orthography.ownFunctions, Solid (Sigil.split text).2 := by decide +kernel
    exact ⟨(hall text ht).flush, fun _ => hall text ht⟩
  valueToSet := (by decide : Flush (Sigil.split "value_to_set").2)
  init := (by decide : Flush "init")
  renamed h hunique := ⟨solid_unique h hunique, (solid_unique h hunique).flush⟩
  accessor hp h := ((Flush.append hp (by decide)).append h).splitSigil
  synonym hp hsuffix := by
    rcases hsuffix with rfl | rfl <;> exact (Flush.append hp (by decide)).splitSigil
  getter h hsuffix := by
    rcases hsuffix with rfl | rfl
    · exact Solid.callee (Solid.append h (by decide))
    · exact Solid.callee (Solid.append h (by decide))
  called h := ⟨Solid.flush h, fun _ => h⟩
  sigil h := h
  merged hi hrep := Solid.append hrep (Solid.flush hi).lastPart
  mergedCallee hi hrep :=
    have hmerged := Solid.append hrep (Flush.lastPart hi.1)
    ⟨hmerged.flush, fun _ => hmerged⟩
  undotted h := Solid.undotted h
  undottedCallee h := ⟨h.1.undotted, fun hnone => (h.2 hnone).undotted⟩
  undottedDeclared h := Flush.undotted h
  undottedTitle h := Flush.undotted h
  short _ := Compaction.solid_letters
  shortDeclared n := (Compaction.solid_letters n).flush

/-! ### Solid blocks -/

theorem solidNames_implies : solidNames.rule.Implies solid where
  expr e h := by
    cases e with
    | call name _ _ _ _ => exact solid_full_iff.mpr h.1
    | _ => exact h
  stmt k h := by
    cases k with
    | property _ _ => exact ⟨h.1, fun f hf => ⟨(h.2 f hf).name, (h.2 f hf).params⟩⟩
    | declare _ => exact ⟨h.1, h.2.1⟩
    | call _ => exact solid_full_iff.mpr h.1
    | _ => exact h
  list _ h := h
  skips _ h := h
  atom _ _ _ h := h
  whole _ _ h := h

theorem Block.Obeys.isSolid {b : Block} (h : b.Obeys solidNames) : b.IsSolid := by
  cases b with
  | callback c =>
    exact ⟨h.1, fun i hi => Solid.flush (h.2.1 i hi), stmtsMeet_mono solidNames_implies h.2.2⟩
  | function f =>
    exact ⟨⟨h.1.name, h.1.params⟩, stmtsMeet_mono solidNames_implies h.2⟩

/-- **Whatever passes have made of parsed scripts is in solid lines.** -/
theorem Produced.isSolid {env : Env} {s : Script} {p : Program} (hl : env.lines.SolidNamespaces)
    (h : Produced env s p) : ∀ b ∈ s.blocks, b.IsSolid :=
  fun b hb => ((h.obeyed solidNames_stays (solidNames_under hl)
    fun _ _ => Token.obeys_solidNames).blocks b hb).isSolid

end FlatScript
