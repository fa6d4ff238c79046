import FlatScript.Callbacks
import Mathlib.Data.List.Induction
import Mathlib.Data.List.Nodup

/-!
# What joining callbacks does

Joining goes through the blocks once and puts the statements of a callback behind those of an
earlier one with its key, if there is one. Here the result of the whole run is written without
the run: it is the blocks that are not a repeated callback, each callback with the statements of
all callbacks that have its key.

* `FlatScript.Script.firsts` are the blocks that are not a repeated callback.
* `FlatScript.Script.gather` gives a callback the statements of all callbacks with its key.
* `FlatScript.Script.foldl_joinBlock_eq` is the run written without the run, by induction on the
  blocks from the last one.
* `FlatScript.Script.combineCallbacks_gathers` says what this means for functions, keys, bodies
  and places.
-/

namespace FlatScript

namespace Script

/-! ### Keys, functions and bodies of blocks -/

/-- The keys of the callbacks among blocks, in order. -/
def keysOf (bs : List Block) : List (String × Option String) :=
  (bs.filterMap Block.callback?).map Callback.key

/-- The functions among blocks, in order. -/
def functionsOf (bs : List Block) : List FunctionDef := bs.filterMap Block.function?

/-- **The statements of all callbacks with a key**, in the order of the blocks. -/
def bodiesOf (key : String × Option String) (bs : List Block) : List Stmt :=
  ((bs.filterMap Block.callback?).filter (·.key = key)).flatMap Callback.body

section Basic

variable {key : String × Option String} {c : Callback} {f : FunctionDef} {bs bs' : List Block}

@[simp] theorem keysOf_nil : keysOf [] = [] := rfl

@[simp] theorem keysOf_callback : keysOf (.callback c :: bs) = c.key :: keysOf bs := rfl

@[simp] theorem keysOf_function : keysOf (.function f :: bs) = keysOf bs := rfl

@[simp] theorem keysOf_append : keysOf (bs ++ bs') = keysOf bs ++ keysOf bs' := by
  simp [keysOf]

@[simp] theorem functionsOf_nil : functionsOf [] = [] := rfl

@[simp] theorem functionsOf_callback : functionsOf (.callback c :: bs) = functionsOf bs := rfl

@[simp] theorem functionsOf_function : functionsOf (.function f :: bs) = f :: functionsOf bs := rfl

@[simp] theorem bodiesOf_append :
    bodiesOf key (bs ++ bs') = bodiesOf key bs ++ bodiesOf key bs' := by
  simp [bodiesOf]

@[simp] theorem bodiesOf_callback :
    bodiesOf key [.callback c] = if c.key = key then c.body else [] := by
  by_cases hkey : c.key = key <;> simp [bodiesOf, Block.callback?, hkey]

@[simp] theorem bodiesOf_function : bodiesOf key [.function f] = [] := rfl

theorem bodiesOf_eq_nil (h : key ∉ keysOf bs) : bodiesOf key bs = [] := by
  have hnone : (bs.filterMap Block.callback?).filter (·.key = key) = [] :=
    List.filter_eq_nil_iff.mpr fun c hc hkey =>
      h (of_decide_eq_true hkey ▸ List.mem_map_of_mem hc)
  rw [bodiesOf, hnone, List.flatMap_nil]

end Basic

/-! ### Blocks that are not a repeated callback -/

/-- The blocks without the callbacks whose key is one of those seen or comes before. -/
def firstsAfter (seen : List (String × Option String)) : List Block → List Block
  | [] => []
  | .callback c :: bs =>
    (if c.key ∈ seen then [] else [.callback c]) ++ firstsAfter (seen ++ [c.key]) bs
  | .function f :: bs => .function f :: firstsAfter seen bs

/-- **The blocks that are not a repeated callback**: of all callbacks with one key, only the
first is there. -/
def firsts (bs : List Block) : List Block := firstsAfter [] bs

theorem firstsAfter_append (seen : List (String × Option String)) (bs bs' : List Block) :
    firstsAfter seen (bs ++ bs') = firstsAfter seen bs ++ firstsAfter (seen ++ keysOf bs) bs' := by
  induction bs generalizing seen with
  | nil => simp [firstsAfter]
  | cons b bs ih =>
    cases b with
    | callback c => simp [firstsAfter, ih]
    | function f => simp [firstsAfter, ih]

theorem firsts_append (bs bs' : List Block) :
    firsts (bs ++ bs') = firsts bs ++ firstsAfter (keysOf bs) bs' := by
  rw [firsts, firstsAfter_append, List.nil_append, ← firsts]

/-- No function is left out. -/
theorem functionsOf_firstsAfter (seen : List (String × Option String)) (bs : List Block) :
    functionsOf (firstsAfter seen bs) = functionsOf bs := by
  induction bs generalizing seen with
  | nil => rfl
  | cons b bs ih =>
    cases b with
    | callback c =>
      unfold firstsAfter
      split
      · exact ih _
      · exact ih _
    | function f => simp [firstsAfter, ih]

/-- Every key is there, in the order in which the keys come up. -/
theorem keysOf_firsts (bs : List Block) : keysOf (firsts bs) = (keysOf bs).eraseDups := by
  induction bs using List.reverseRecOn with
  | nil => rfl
  | append_singleton bs b ih =>
    rw [firsts_append, keysOf_append, keysOf_append, ih, List.eraseDups_append]
    congr 1
    cases b with
    | callback c =>
      by_cases hkey : c.key ∈ keysOf bs <;>
        simp [firstsAfter, List.removeAll, List.eraseDups_cons, hkey]
    | function f => rfl

theorem mem_keysOf_firsts {key : String × Option String} {bs : List Block} :
    key ∈ keysOf (firsts bs) ↔ key ∈ keysOf bs := by
  rw [keysOf_firsts, List.mem_eraseDups]

/-- No key is there twice. -/
theorem nodup_keysOf_firsts (bs : List Block) : (keysOf (firsts bs)).Nodup := by
  induction bs using List.reverseRecOn with
  | nil => exact List.nodup_nil
  | append_singleton bs b ih =>
    rw [firsts_append, keysOf_append]
    cases b with
    | callback c =>
      by_cases hkey : c.key ∈ keysOf bs
      · simpa [firstsAfter, hkey] using ih
      · rw [List.nodup_append_comm]
        simpa [firstsAfter, hkey, mem_keysOf_firsts] using ih
    | function f => simpa [firstsAfter] using ih

/-! ### Callbacks with the statements of all -/

/-- **A block with the statements of all callbacks that have its key**, if it is a callback. -/
def gather (bs : List Block) : Block → Block
  | .callback c => .callback { c with body := bodiesOf c.key bs }
  | .function f => .function f

/-- A block with the statements of one more callback, if it is a callback with the same key. -/
def extend (c : Callback) : Block → Block
  | .callback d =>
    if d.key = c.key then .callback { d with body := d.body ++ c.body } else .callback d
  | .function f => .function f

@[simp] theorem keysOf_map_gather (all bs : List Block) :
    keysOf (bs.map (gather all)) = keysOf bs := by
  induction bs with
  | nil => rfl
  | cons b bs ih =>
    cases b with
    | callback c => exact congrArg (c.key :: ·) ih
    | function f => exact ih

@[simp] theorem functionsOf_map_gather (all bs : List Block) :
    functionsOf (bs.map (gather all)) = functionsOf bs := by
  induction bs with
  | nil => rfl
  | cons b bs ih =>
    cases b with
    | callback c => exact ih
    | function f => exact congrArg (f :: ·) ih

/-- One more callback gives its statements to the blocks with its key. -/
theorem gather_concat (bs : List Block) (c : Callback) (b : Block) :
    gather (bs ++ [.callback c]) b = extend c (gather bs b) := by
  cases b with
  | callback d =>
    have hkey (body : List Stmt) : Callback.key { d with body := body } = d.key := rfl
    by_cases h : d.key = c.key
    · simp [gather, extend, hkey, h]
    · simp [gather, extend, hkey, h, Ne.symm h]
  | function f => rfl

theorem gather_function (bs : List Block) (f : FunctionDef) (b : Block) :
    gather (bs ++ [.function f]) b = gather bs b := by
  cases b with
  | callback d => simp [gather]
  | function f' => rfl

/-! ### One step -/

theorem map_extend_of_not_mem {c : Callback} {bs : List Block} (h : c.key ∉ keysOf bs) :
    bs.map (extend c) = bs := by
  induction bs with
  | nil => rfl
  | cons b bs ih =>
    cases b with
    | callback d =>
      simp only [keysOf_callback, List.mem_cons, not_or] at h
      rw [List.map_cons, ih h.2, extend, if_neg (Ne.symm h.1)]
    | function f => exact congrArg (.function f :: ·) (ih h)

/-- A callback with a new key joins none. -/
theorem joinInto_of_not_mem {c : Callback} {bs : List Block} (h : c.key ∉ keysOf bs) :
    joinInto c bs = none := by
  induction bs with
  | nil => rfl
  | cons b bs ih =>
    cases b with
    | callback d =>
      simp only [keysOf_callback, List.mem_cons, not_or] at h
      rw [joinInto, if_neg (Ne.symm h.1), ih h.2, Option.map_none]
    | function f => rw [joinInto, ih h, Option.map_none]

/-- A callback with a key of before joins the block that has it; it is the only one. -/
theorem joinInto_of_mem {c : Callback} {bs : List Block} (hnodup : (keysOf bs).Nodup)
    (h : c.key ∈ keysOf bs) : joinInto c bs = some (bs.map (extend c)) := by
  induction bs with
  | nil => cases h
  | cons b bs ih =>
    cases b with
    | callback d =>
      rw [keysOf_callback, List.nodup_cons] at hnodup
      by_cases hkey : d.key = c.key
      · rw [joinInto, if_pos hkey, List.map_cons, map_extend_of_not_mem (hkey ▸ hnodup.1), extend,
          if_pos hkey]
      · have hmem : c.key ∈ keysOf bs := (List.mem_cons.mp h).resolve_left (Ne.symm hkey)
        rw [joinInto, if_neg hkey, ih hnodup.2 hmem, Option.map_some, List.map_cons, extend,
          if_neg hkey]
    | function f => rw [joinInto, ih hnodup h, Option.map_some, List.map_cons, extend]

/-- A block that is not a repeated callback comes last. -/
theorem joinBlock_of_first {b : Block} {bs : List Block}
    (h : ∀ c, b = .callback c → c.key ∉ keysOf bs) : joinBlock bs b = bs ++ [b] := by
  cases b with
  | callback c => rw [joinBlock, joinInto_of_not_mem (h c rfl), Option.getD_none]
  | function f => rfl

/-! ### The run -/

/-- **Joining without the run.** Joining block by block gives the blocks that are not a repeated
callback, each with the statements of all callbacks that have its key. -/
theorem foldl_joinBlock_eq (bs : List Block) :
    bs.foldl joinBlock [] = (firsts bs).map (gather bs) := by
  induction bs using List.reverseRecOn with
  | nil => rfl
  | append_singleton bs b ih =>
    rw [List.foldl_append, List.foldl_cons, List.foldl_nil, ih, firsts_append]
    cases b with
    | callback c =>
      have hgather : gather (bs ++ [.callback c]) = extend c ∘ gather bs :=
        funext (gather_concat bs c)
      by_cases hkey : c.key ∈ keysOf bs
      · have hmem : c.key ∈ keysOf ((firsts bs).map (gather bs)) := by
          rwa [keysOf_map_gather, mem_keysOf_firsts]
        have hnodup : (keysOf ((firsts bs).map (gather bs))).Nodup := by
          rw [keysOf_map_gather]
          exact nodup_keysOf_firsts bs
        simp [joinBlock, joinInto_of_mem hnodup hmem, firstsAfter, hkey, hgather]
      · have hnew : c.key ∉ keysOf ((firsts bs).map (gather bs)) := by
          rwa [keysOf_map_gather, mem_keysOf_firsts]
        have hbody : gather (bs ++ [.callback c]) (.callback c) = .callback c := by
          simp [gather, bodiesOf_eq_nil hkey]
        simp only [firstsAfter, hkey, if_false, List.append_nil, List.map_append, List.map_cons,
          List.map_nil, hbody]
        rw [hgather, ← List.map_map, map_extend_of_not_mem hnew]
        exact joinBlock_of_first (by rintro _ ⟨⟩; exact hnew)
    | function f =>
      have hgather : gather (bs ++ [.function f]) = gather bs := funext (gather_function bs f)
      rw [hgather]
      simp [joinBlock, firstsAfter, gather]

/-- Blocks without a repeated callback are left as they are. -/
theorem foldl_joinBlock_of_nodup {bs : List Block} (h : (keysOf bs).Nodup) :
    bs.foldl joinBlock [] = bs := by
  induction bs using List.reverseRecOn with
  | nil => rfl
  | append_singleton bs b ih =>
    rw [keysOf_append, List.nodup_append_comm] at h
    rw [List.foldl_append, List.foldl_cons, List.foldl_nil, ih h.of_append_right]
    refine joinBlock_of_first ?_
    rintro c rfl
    exact (List.nodup_cons.mp h).1

/-- **Joined callbacks.** The functions stay, in their order. The keys are those of the script,
each once, in the order of their first callbacks. Every callback has the statements of all
callbacks with its key, in the order of the source. The first callback with a key stays where it
is: behind the functions that were before it, and behind the first callbacks of the keys that were
before it. Joining again changes nothing. -/
theorem combineCallbacks_gathers (s : Script) :
    s.combineCallbacks.functions = s.functions ∧
    s.combineCallbacks.callbacks.map Callback.key = (s.callbacks.map Callback.key).eraseDups ∧
    (s.combineCallbacks.callbacks.map Callback.key).Nodup ∧
    (∀ c ∈ s.combineCallbacks.callbacks,
      c.body = (s.callbacks.filter (·.key = c.key)).flatMap Callback.body) ∧
    (∀ before after c, s.blocks = before ++ .callback c :: after → c.key ∉ keysOf before →
      ∃ before' after', s.combineCallbacks.blocks =
          before' ++ .callback { c with body := bodiesOf c.key s.blocks } :: after' ∧
        functionsOf before' = functionsOf before ∧ functionsOf after' = functionsOf after ∧
        keysOf before' = (keysOf before).eraseDups) ∧
    s.combineCallbacks.combineCallbacks = s.combineCallbacks := by
  have hblocks : s.combineCallbacks.blocks = (firsts s.blocks).map (gather s.blocks) :=
    foldl_joinBlock_eq s.blocks
  have hkeys : keysOf s.combineCallbacks.blocks = keysOf (firsts s.blocks) := by
    rw [hblocks, keysOf_map_gather]
  have hnodup : (keysOf s.combineCallbacks.blocks).Nodup := hkeys ▸ nodup_keysOf_firsts s.blocks
  refine ⟨?functions, hkeys.trans (keysOf_firsts s.blocks), hnodup, ?bodies, ?places, ?again⟩
  case functions =>
    change functionsOf s.combineCallbacks.blocks = functionsOf s.blocks
    rw [hblocks, functionsOf_map_gather, firsts, functionsOf_firstsAfter]
  case bodies =>
    intro c hc
    obtain ⟨b, hb, hcallback⟩ := List.mem_filterMap.mp hc
    rw [hblocks] at hb
    obtain ⟨d, -, rfl⟩ := List.mem_map.mp hb
    cases d with
    | callback d =>
      cases hcallback
      rfl
    | function f => cases hcallback
  case places =>
    intro before after c hsplit hnew
    have hfirsts : firsts s.blocks =
        firsts before ++ .callback c :: firstsAfter (keysOf before ++ [c.key]) after := by
      rw [hsplit, firsts_append, firstsAfter, if_neg hnew, List.singleton_append]
    refine ⟨_, _, by rw [hblocks, hfirsts, List.map_append, List.map_cons, gather], ?_, ?_, ?_⟩
    · rw [functionsOf_map_gather, firsts, functionsOf_firstsAfter]
    · rw [functionsOf_map_gather, functionsOf_firstsAfter]
    · rw [keysOf_map_gather, keysOf_firsts]
  case again => exact congrArg Script.mk (foldl_joinBlock_of_nodup hnodup)

end Script

end FlatScript
