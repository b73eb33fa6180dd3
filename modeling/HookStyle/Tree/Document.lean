import HookStyle.Error
import HookStyle.Json.Document
import HookStyle.Tree.Basic

/-!
# Trees from documents

A document gives a tree: texts and numbers are values, null clears, and objects are
branches. Booleans and arrays have no meaning anywhere in it.

* `ofDocument?_keyed`: the trees are keyed.
-/

namespace HookStyle

open Css

namespace Tree

mutual

def ofDocument? : Document → Option Tree
  | .null => some (leaf none)
  | .number x => some (leaf (some (.number x)))
  | .text s => some (leaf (some (.text s)))
  | .object fields => (ofFields? fields).map fun ts => branch (OrderedMap.ofList ts).entries
  | .bool _ => none
  | .array _ => none

def ofFields? : List (String × Document) → Option (List (String × Tree))
  | [] => some []
  | (key, d) :: rest =>
    (ofDocument? d).bind fun t => (ofFields? rest).map ((key, t) :: ·)

end

theorem childrenKeyed_insertAll {es : List (String × Tree)} {m : OrderedMap Tree}
    (hm : ChildrenKeyed m.entries) (h : ChildrenKeyed es) :
    ChildrenKeyed (m.insertAll es).entries := by
  induction es generalizing m with
  | nil => exact hm
  | cons e es ih =>
    obtain ⟨key, t⟩ := e
    rw [ChildrenKeyed] at h
    exact ih (childrenKeyed_insert h.1 hm) h.2

mutual

/-- A tree read from a document repeats no key, at any depth, even if the document does. -/
theorem ofDocument?_keyed {d : Document} {t : Tree} (h : ofDocument? d = some t) : t.Keyed := by
  cases d with
  | null =>
    cases h
    exact keyed_leaf _
  | number x =>
    cases h
    exact keyed_leaf _
  | text s =>
    cases h
    exact keyed_leaf _
  | bool b => cases h
  | array items => cases h
  | object fields =>
    rw [ofDocument?] at h
    obtain ⟨ts, hts, rfl⟩ := Option.map_eq_some_iff.mp h
    rw [keyed_branch]
    exact ⟨(OrderedMap.ofList ts).keys_nodup,
      childrenKeyed_insertAll (by simp [OrderedMap.empty, ChildrenKeyed]) (ofFields?_keyed hts)⟩

theorem ofFields?_keyed {fields : List (String × Document)} {ts : List (String × Tree)}
    (h : ofFields? fields = some ts) : ChildrenKeyed ts := by
  cases fields with
  | nil =>
    cases h
    simp [ChildrenKeyed]
  | cons field rest =>
    obtain ⟨key, d⟩ := field
    rw [ofFields?] at h
    obtain ⟨t, ht, h⟩ := Option.bind_eq_some_iff.mp h
    obtain ⟨us, hus, rfl⟩ := Option.map_eq_some_iff.mp h
    exact ⟨ofDocument?_keyed ht, ofFields?_keyed hus⟩

end

end Tree

namespace KeyedTree

/-- The tree of the document that is given for a property. -/
def ofDocument (property : String) (d : Document) : Except StyleError KeyedTree :=
  match h : Tree.ofDocument? d with
  | some t => .ok ⟨t, Tree.ofDocument?_keyed h⟩
  | none => .error (.unsupportedValue property)

end KeyedTree

namespace Declaration

/-- The properties of an object, or the error of the first that has no tree. -/
def ofFields : List (String × Document) → Except StyleError (List (String × KeyedTree))
  | [] => .ok []
  | (property, d) :: rest =>
    (KeyedTree.ofDocument property d).bind fun t => (ofFields rest).map ((property, t) :: ·)

/-- The declaration of a document, which must be an object. -/
def ofDocument : Document → Except StyleError Declaration
  | .object fields => (ofFields fields).map OrderedMap.ofList
  | _ => .error .unsupportedDocument

end Declaration

end HookStyle
