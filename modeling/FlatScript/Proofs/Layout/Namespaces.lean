import FlatScript.Proofs.Layout.Names
import FlatScript.Proofs.Orthography.Rule

/-!
# Namespaces over solid names

A namespace in front of a name can spoil a line. It does not when every namespace is flush with the
dot behind it and the outermost one of a line is solid with it, since the line may start there.

* `FlatScript.SolidPrefix` is a chain of such namespaces, and `FlatScript.Lines.SolidNamespaces`
  says that every line stands under one.
* `FlatScript.Solid.qualified`: names stay solid under them.
* `FlatScript.Lines.solidNamespaces_of_known`: what is asked of lines that are known one by one.
-/

namespace FlatScript

/-- **Namespaces that names stay solid under**, each with its dot behind it. -/
structure SolidPrefix (namespaces : List String) : Prop where
  flush : ∀ n ∈ namespaces, Flush (n ++ ".")
  outermost : ∀ n ∈ namespaces.head?, Solid (n ++ ".")

/-- **Every line stands under namespaces that names stay solid under.** -/
def Lines.SolidNamespaces (lines : Lines) : Prop := ∀ n, SolidPrefix (lines.info n).namespaces

section Names

variable {namespaces : List String} {name : String}

theorem Flush.suffix {text : String} (h : Flush name) (ht : text.toList <:+ name.toList) :
    Flush text := flushChars_suffix h ht

theorem Flush.splitSigil (h : Flush name) : Flush (Sigil.split name).2 := by
  unfold Sigil.split
  split
  · exact h
  · next c rest hlist =>
    split
    · refine h.suffix ?_
      rw [hlist, String.toList_ofList]
      exact List.suffix_cons c rest
    · exact h

theorem Flush.lastPart (h : Flush name) : Flush (Name.lastPart name) := by
  refine h.suffix ?_
  rw [Name.lastPart, String.toList_ofList]
  exact List.dropWhile_suffix _

/-- Namespaces with the dot behind them. -/
theorem flush_chain (h : ∀ n ∈ namespaces, Flush (n ++ ".")) (hne : namespaces ≠ []) :
    Flush (".".intercalate namespaces ++ ".") := by
  induction namespaces with
  | nil => exact absurd rfl hne
  | cons n namespaces ih =>
    rw [List.forall_mem_cons] at h
    cases namespaces with
    | nil => simpa using h.1
    | cons n' namespaces =>
      have hrest := ih h.2 (List.cons_ne_nil _ _)
      rw [String.intercalate_cons_cons, String.append_assoc]
      exact h.1.append hrest

theorem SolidPrefix.solid_chain (h : SolidPrefix namespaces) (hne : namespaces ≠ []) :
    Solid (".".intercalate namespaces ++ ".") := by
  obtain ⟨n, rest, rfl⟩ := List.exists_cons_of_ne_nil hne
  have hfirst := h.outermost n rfl
  cases rest with
  | nil => simpa using hfirst
  | cons n' rest =>
    have hrest := flush_chain (fun n hn => h.flush n (List.mem_cons_of_mem _ hn))
      (List.cons_ne_nil n' rest)
    rw [String.intercalate_cons_cons, String.append_assoc]
    exact hfirst.append hrest

theorem Flush.qualified (h : Flush name) (hn : ∀ n ∈ namespaces, Flush (n ++ ".")) :
    Flush (Name.qualified namespaces name) := by
  have hbare := h.splitSigil
  unfold Name.qualified
  split
  · exact h
  · next hne =>
    have hchain := flush_chain hn (by simpa using hne)
    split
    · next sigil bare hsplit =>
      have hassoc : sigil.text ++ ".".intercalate namespaces ++ "." =
          sigil.text ++ (".".intercalate namespaces ++ ".") := String.append_assoc
      rw [hsplit] at hbare
      rw [hassoc]
      exact ((hchain.behindSigil sigil).append hbare).flush
    · next bare hsplit =>
      rw [hsplit] at hbare
      exact hchain.append hbare

/-- **A solid name stays solid under namespaces.** -/
theorem Solid.qualified (h : Solid name) (hn : SolidPrefix namespaces) :
    Solid (Name.qualified namespaces name) := by
  have hbare := h.flush.splitSigil
  unfold Name.qualified
  split
  · exact h
  · next hne =>
    have hchain := hn.solid_chain (by simpa using hne)
    split
    · next sigil bare hsplit =>
      have hassoc : sigil.text ++ ".".intercalate namespaces ++ "." =
          sigil.text ++ (".".intercalate namespaces ++ ".") := String.append_assoc
      rw [hsplit] at hbare
      rw [hassoc]
      exact (hchain.flush.behindSigil sigil).append hbare
    · next bare hsplit =>
      rw [hsplit] at hbare
      exact hchain.append hbare

theorem SolidPrefix.nil : SolidPrefix [] := ⟨by simp, by simp⟩

/-- A family is opened inside another one. -/
theorem SolidPrefix.snoc (h : SolidPrefix namespaces) (hname : Solid name) :
    SolidPrefix (namespaces ++ [name]) := by
  refine ⟨?_, ?_⟩
  · simp only [List.forall_mem_append, List.forall_mem_singleton]
    exact ⟨h.flush, hname.flush.append (by decide)⟩
  · cases namespaces with
    | nil =>
      rintro n ⟨⟩
      exact hname.append (by decide)
    | cons n namespaces => exact h.outermost

end Names

/-- The namespaces of lines that are known one by one. -/
theorem Lines.solidNamespaces_of_known {l : Lines}
    (hknown : ∀ info ∈ l.known, SolidPrefix info.namespaces)
    (hother : SolidPrefix l.other.namespaces) : l.SolidNamespaces :=
  Lines.forall_info hknown hother

end FlatScript
