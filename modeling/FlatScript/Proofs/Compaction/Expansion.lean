import FlatScript.Printer
import FlatScript.Proofs.Compaction.Apart
import FlatScript.Proofs.Rule
import Mathlib.Data.List.Infix
import Mathlib.Data.List.TakeWhile

/-!
# Short names replaced in texts

The table of short names is also used the other way round: in a text, every short name is replaced by
the name that it stands for, and a name is taken as far as it goes. What a piece of text becomes
depends on what follows it only in that no name may go on there, so that texts are expanded piece by
piece (`FlatScript.ShortNames.Expands`), and a script is printed as pieces that names are kept apart
by.
-/

namespace FlatScript

namespace ShortNames

variable {t : ShortNames}

/-! ### Where names end -/

/-- A text at which no name goes on. -/
def Ends (cs : List Char) : Prop := ∀ c ∈ cs.head?, isNameChar c = false

theorem ends_nil : Ends [] := nofun

theorem ends_cons {c : Char} {cs : List Char} : Ends (c :: cs) ↔ isNameChar c = false := by
  simp [Ends]

instance : ∀ cs : List Char, Decidable (Ends cs)
  | [] => .isTrue ends_nil
  | _ :: _ => decidable_of_iff _ ends_cons.symm

theorem Ends.append {cs ds : List Char} (hcs : Ends cs) (hds : Ends ds) : Ends (cs ++ ds) := by
  cases cs with
  | nil => exact hds
  | cons c cs => exact ends_cons.mpr (ends_cons.mp hcs)

/-- The characters of a name, in front of a text at which no name goes on. -/
theorem takeWhile_name {name rest : List Char} (hname : ∀ c ∈ name, isNameChar c = true)
    (hrest : Ends rest) : (name ++ rest).takeWhile isNameChar = name := by
  rw [List.takeWhile_append_of_pos hname]
  cases rest with
  | nil => simp
  | cons c rest => simp [ends_cons.mp hrest]

theorem ends_dropWhile (cs : List Char) : Ends (cs.dropWhile isNameChar) := by
  cases hrest : cs.dropWhile isNameChar with
  | nil => exact ends_nil
  | cons c rest =>
    have hne : cs.dropWhile isNameChar ≠ [] := by rw [hrest]; exact List.cons_ne_nil _ _
    have hhead := List.head_dropWhile_not isNameChar hne
    simp only [hrest, List.head_cons] at hhead
    exact ends_cons.mpr hhead

/-! ### Single steps -/

/-- Characters that belong to a name that is replaced already are skipped. -/
theorem expandFrom_skip (cs ds : List Char) :
    t.expandFrom cs.length (cs ++ ds) = t.expandFrom 0 ds := by
  induction cs with
  | nil => rfl
  | cons c cs ih => rw [List.length_cons, List.cons_append, expandFrom, ih]

/-- A character that no name starts with is left. -/
theorem expandFrom_cons {c : Char} {cs : List Char} (h : isSigil c = true → Ends cs) :
    t.expandFrom 0 (c :: cs) = c :: t.expandFrom 0 cs := by
  rw [expandFrom]
  cases hsigil : isSigil c with
  | false => simp
  | true =>
    have hname : ([] ++ cs).takeWhile isNameChar = [] := takeWhile_name nofun (h hsigil)
    rw [List.nil_append] at hname
    simp [hname]

/-- **A name is replaced** by the name that it is the short one of. -/
theorem expandFrom_name {c : Char} {name rest : List Char} (hc : isSigil c = true)
    (hne : name ≠ []) (hname : ∀ d ∈ name, isNameChar d = true) (hrest : Ends rest) :
    t.expandFrom 0 (c :: (name ++ rest)) =
      ((t.long? (String.ofList (c :: name))).getD (String.ofList (c :: name))).toList ++
        t.expandFrom 0 rest := by
  rw [expandFrom]
  simp only [takeWhile_name hname hrest, expandFrom_skip]
  simp [hc, hne]

/-! ### Pieces of text -/

/-- **A text is expanded to another one** in front of every text at which no name goes on. -/
def Expands (t : ShortNames) (x y : String) : Prop :=
  ∀ ⦃rest⦄, Ends rest → t.expandFrom 0 (x.toList ++ rest) = y.toList ++ t.expandFrom 0 rest

/-- A text without sigils. -/
def Plain (x : String) : Prop := ∀ c ∈ x.toList, isSigil c = false

instance (x : String) : Decidable (Plain x) := List.decidableBAll _ _

/-- A text without sigils is left, whatever follows it. -/
theorem expandFrom_plain {cs : List Char} (h : ∀ c ∈ cs, isSigil c = false) (rest : List Char) :
    t.expandFrom 0 (cs ++ rest) = cs ++ t.expandFrom 0 rest := by
  induction cs with
  | nil => rfl
  | cons c cs ih =>
    obtain ⟨hc, hcs⟩ := List.forall_mem_cons.mp h
    rw [List.cons_append, expandFrom_cons (by simp [hc]), ih hcs, List.cons_append]

namespace Expands

variable {x y x' y' s : String}

theorem plain (h : Plain x) : Expands t x x := fun rest _ => expandFrom_plain h rest

/-- A text behind one without sigils. -/
theorem front (h : Plain s) (hx : Expands t x y) : Expands t (s ++ x) (s ++ y) := by
  intro rest hrest
  rw [String.toList_append, String.toList_append, List.append_assoc, List.append_assoc,
    expandFrom_plain h, hx hrest]

/-- Two texts, the second of which no name goes on at. -/
theorem append (h : Expands t x y) (h' : Expands t x' y') (hends : Ends x'.toList) :
    Expands t (x ++ x') (y ++ y') := by
  intro rest hrest
  rw [String.toList_append, String.toList_append, List.append_assoc, List.append_assoc,
    h (hends.append hrest), h' hrest]

end Expands

/-- **A text that keeps names apart**: it has no sigils, and no name goes on at it. -/
def Separates (s : String) : Prop := s ≠ "" ∧ Plain s ∧ Ends s.toList

instance (s : String) : Decidable (Separates s) := inferInstanceAs (Decidable (_ ∧ _))

namespace Separates

variable {x y x' y' s : String}

theorem ends (h : Separates s) (rest : List Char) : Ends (s.toList ++ rest) := by
  obtain ⟨c, cs, hcs⟩ := List.exists_cons_of_ne_nil (mt String.toList_eq_nil_iff.mp h.1)
  have hends := h.2.2
  rw [hcs] at hends ⊢
  exact ends_cons.mpr (ends_cons.mp hends)

/-- Two texts that are kept apart. -/
theorem between (hs : Separates s) (h : Expands t x y) (h' : Expands t x' y') :
    Expands t (x ++ (s ++ x')) (y ++ (s ++ y')) :=
  h.append (.front hs.2.1 h') (by rw [String.toList_append]; exact hs.ends _)

/-- A text that is closed. -/
theorem close (hs : Separates s) (h : Expands t x y) : Expands t (x ++ s) (y ++ s) :=
  h.append (.plain hs.2.1) hs.2.2

end Separates

/-! ### Texts that mention no short name -/

/-- **A text mentions a name**: the name stands in it and does not go on. -/
def Mentions (text name : String) : Prop :=
  ∃ front back, text.toList = front ++ name.toList ++ back ∧ Ends back

theorem mentions_iff {text name : String} : Mentions text name ↔
    ∃ cs ∈ text.toList.tails, name.toList <+: cs ∧ Ends (cs.drop name.toList.length) := by
  constructor
  · rintro ⟨front, back, htext, hback⟩
    refine ⟨name.toList ++ back, ?_, ⟨back, rfl⟩, by simpa using hback⟩
    rw [List.mem_tails, htext, List.append_assoc]
    exact List.suffix_append _ _
  · rintro ⟨cs, hcs, ⟨back, rfl⟩, hback⟩
    obtain ⟨front, htext⟩ := List.mem_tails _ _ |>.mp hcs
    exact ⟨front, back, by rw [← htext, List.append_assoc], by simpa using hback⟩

instance (text name : String) : Decidable (Mentions text name) := decidable_of_iff _ mentions_iff.symm

/-- A text that mentions no short name. -/
def Spares (t : ShortNames) (text : String) : Prop := ∀ pair ∈ t.pairs, ¬Mentions text pair.2

instance (t : ShortNames) (text : String) : Decidable (t.Spares text) :=
  List.decidableBAll _ _

/-- **A text that mentions no short name is left as it is.** -/
theorem Spares.expands {text : String} (h : t.Spares text) : Expands t text text := by
  intro rest hrest
  -- The induction is on the part that is still to be read, which is an end part of the text.
  suffices hread : ∀ n, ∀ front back : List Char, back.length = n → text.toList = front ++ back →
      t.expandFrom 0 (back ++ rest) = back ++ t.expandFrom 0 rest from
    hread _ [] text.toList rfl rfl
  intro n
  induction n using Nat.strong_induction_on with
  | _ n ih =>
    intro front back hlength htext
    cases back with
    | nil => rfl
    | cons c cs =>
      by_cases hname : isSigil c = true ∧ cs.takeWhile isNameChar ≠ []
      · -- A name starts here; it is looked up, and it is no short name.
        obtain ⟨hc, hne⟩ := hname
        have hsplit : cs = cs.takeWhile isNameChar ++ cs.dropWhile isNameChar :=
          List.takeWhile_append_dropWhile.symm
        have hchars : ∀ d ∈ cs.takeWhile isNameChar, isNameChar d = true := fun d hd =>
          List.mem_takeWhile_imp hd
        generalize cs.takeWhile isNameChar = name at hne hsplit hchars
        have hends := ends_dropWhile cs
        generalize cs.dropWhile isNameChar = tail at hsplit hends
        subst hsplit
        have hnone : t.long? (String.ofList (c :: name)) = none := by
          cases hlong : t.long? (String.ofList (c :: name)) with
          | none => rfl
          | some long =>
            refine absurd ⟨front, tail, ?_, hends⟩ (h _ (mem_of_long? hlong))
            simp [htext]
        have hlt : tail.length < n := by
          simp only [← hlength, List.length_append, List.length_cons]
          omega
        have hrec := ih tail.length hlt (front ++ c :: name) tail rfl
          (by simp [htext])
        rw [List.cons_append, List.append_assoc, expandFrom_name hc hne hchars (hends.append hrest),
          hnone, hrec]
        simp
      · -- No name starts here, so the character stays.
        have hrec := ih cs.length (by rw [← hlength]; simp) (front ++ [c]) cs rfl (by simp [htext])
        rw [List.cons_append, expandFrom_cons, hrec, List.cons_append]
        intro hc
        have hnil : cs.takeWhile isNameChar = [] := by
          by_contra hne
          exact hname ⟨hc, hne⟩
        have hends := ends_dropWhile cs
        rw [← List.takeWhile_append_dropWhile (p := isNameChar) (l := cs), hnil, List.nil_append]
        exact hends.append hrest

end ShortNames

end FlatScript
