import HookStyle.Css.Rule
import HookStyle.Css.Value
import HookStyle.Error
import HookStyle.OrderedMap.Basic

/-!
# Keyframe animations

An animation is a list of frames, each an offset and its properties. A store names its
animations by a number that counts up, so that equal animations have different names, and
writes each one as a `@keyframes` block when it is registered. The blocks are kept under the
names; a block under a name that is there already would take the other's place.

* `register_name`, `next_register`: a registration takes the next number.
* `block?_register`: it sets the block of its own name and leaves all others.
-/

namespace HookStyle

open Css

/-- The properties at one offset, such as `0%` or `from`. -/
structure Frame where
  offset : String
  properties : OrderedMap Value

abbrev Animation := List Frame

def Animation.rule (name : String) (animation : Animation) : Rule :=
  .block ("@keyframes " ++ name) <| animation.map fun frame =>
    .block frame.offset <| frame.properties.entries.map fun e =>
      .declaration (Property.hyphenate e.1) (e.2.render e.1)

/-- The number of the next animation, and the blocks of the animations before it. -/
structure AnimationStore where
  namePart : String
  layout : Layout
  next : Nat
  rendered : OrderedMap String

namespace AnimationStore

def empty (namePart : String) (layout : Layout) : AnimationStore := ⟨namePart, layout, 0, .empty⟩

/-- The name of the animation with a number. -/
def nameOf (namePart : String) (n : Nat) : String :=
  "__" ++ namePart ++ "_keyframes-" ++ toString n

def count (store : AnimationStore) : Nat := store.rendered.size

/-- Names an animation by the next number, and writes its block. -/
def register (store : AnimationStore) (animation : Animation) : String × AnimationStore :=
  let name := nameOf store.namePart store.next
  (name,
    { store with
      next := store.next + 1
      rendered := store.rendered.insert name ((animation.rule name).text store.layout) })

def block? (store : AnimationStore) (name : String) : Option String := store.rendered.get? name

/-- The blocks of the given names, or the error of the first that names no animation. -/
def blocks (store : AnimationStore) : List String → Except StyleError (List String)
  | [] => .ok []
  | name :: names =>
    match store.block? name with
    | none => .error (.unknownKeyframes name)
    | some block => (store.blocks names).map (block :: ·)

/-- The blocks of the given names as one text. -/
def sheet (store : AnimationStore) (names : List String) : Except StyleError String :=
  (store.blocks names).map store.layout.newline.intercalate

section Register

variable (store : AnimationStore) (animation : Animation)

theorem register_name : (store.register animation).1 = nameOf store.namePart store.next := rfl

@[simp] theorem next_register : (store.register animation).2.next = store.next + 1 := rfl

@[simp] theorem namePart_register :
    (store.register animation).2.namePart = store.namePart := rfl

@[simp] theorem layout_register : (store.register animation).2.layout = store.layout := rfl

/-- Only the block of the name that is registered changes. -/
theorem block?_register (name : String) :
    (store.register animation).2.block? name =
      if name = (store.register animation).1 then some ((animation.rule name).text store.layout)
      else store.block? name := by
  rw [block?, register, OrderedMap.get?_insert]
  by_cases h : name = nameOf store.namePart store.next
  · rw [if_pos h, if_pos h, h]
  · rw [if_neg h, if_neg h]
    rfl

end Register

end AnimationStore

end HookStyle
