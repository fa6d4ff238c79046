import FlatScript.Name.Dotted
import FlatScript.Text.Span

/-!
# Identifiers

An identifier is one occurrence of a name in a script: the sigil it was written with, if
any, the rest of the name, the place, and whether its namespaces have been put in front
of it already.
-/

namespace FlatScript

/-- **An identifier**: an occurrence of a name. -/
structure Ident where
  /-- The sigil the name carries. -/
  sigil : Option Sigil
  /-- The name without its sigil. -/
  name : String
  /-- Where the name stands. -/
  span : Span
  /-- Whether the name is final, so that no namespace is put in front of it again. -/
  qualified : Bool
deriving DecidableEq, Repr, Inhabited

namespace Ident

/-- The identifier with a given spelling, not yet qualified. -/
def ofText (text : String) (span : Span) : Ident :=
  let (sigil, name) := Sigil.split text
  ⟨sigil, name, span, false⟩

/-- The identifier with a given spelling, which no namespace is put in front of. -/
def fixed (text : String) (span : Span) : Ident := { ofText text span with qualified := true }

/-- The name with its sigil. -/
def full (i : Ident) : String :=
  match i.sigil with
  | some sigil => sigil.text ++ i.name
  | none => i.name

/-- An identifier is spelled as it was given. -/
@[simp] theorem full_ofText (text : String) (span : Span) : (ofText text span).full = text := by
  unfold ofText full Sigil.split
  cases hlist : text.toList with
  | nil => rfl
  | cons c rest =>
    dsimp only
    cases hc : Sigil.ofChar? c with
    | none => rfl
    | some sigil =>
      have hchar : sigil.toChar = c := by
        unfold Sigil.ofChar? at hc
        split at hc <;> cases hc <;> rfl
      dsimp only
      rw [← String.toList_inj, String.toList_append, hlist, Sigil.text, hchar]
      simp

end Ident

end FlatScript
