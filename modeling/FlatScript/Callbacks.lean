import FlatScript.Syntax.Script

/-!
# Joining callbacks

A script may write a callback more than once. Joining puts the statements of all callbacks
with the same name and the same control into the first of them, in order, and leaves the
functions where they are.
-/

namespace FlatScript

/-- What makes two callbacks the same: the name, and the control as it is written. -/
def Callback.key (c : Callback) : String × Option String := (c.name, c.control.map Ident.full)

namespace Script

/-- The blocks with a callback joined to the first one with its key; none when there is no
such callback. -/
def joinInto (c : Callback) : List Block → Option (List Block)
  | [] => none
  | .callback d :: rest =>
    if d.key = c.key then some (.callback { d with body := d.body ++ c.body } :: rest)
    else (joinInto c rest).map (.callback d :: ·)
  | .function f :: rest => (joinInto c rest).map (.function f :: ·)

/-- The blocks with one more block, which is joined to an earlier one if it can be. -/
def joinBlock (blocks : List Block) : Block → List Block
  | .callback c => (joinInto c blocks).getD (blocks ++ [.callback c])
  | .function f => blocks ++ [.function f]

/-- **The script with its callbacks joined.** -/
def combineCallbacks (s : Script) : Script := ⟨s.blocks.foldl joinBlock []⟩

end Script

end FlatScript
