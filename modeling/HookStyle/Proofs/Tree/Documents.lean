import HookStyle.Proofs.OrderedMap.Entries
import HookStyle.Proofs.Outcome
import HookStyle.Proofs.Tree.Leaves
import HookStyle.Tree.Document

/-!
# Declarations as documents

A declaration can be written as a document: cleared settings as null, values as they are, and
branches as objects with their keys in order. Reading a document undoes this and nothing else:
a document whose objects have each key once is read exactly when it is written so.

* `plain_object`: a document without Booleans and arrays, by its fields.
* `fields_eq_map`: fields are written as what they were read as, when their documents are.
* `ofDocument?_eq_some_iff`: a tree is read from the document that it is written as.
* `isSome_ofDocument?_iff`: which documents are trees.
* `ofFields_eq_error_iff`: the first property with a Boolean or an array is at fault.
* `ofDocument_exact`: which documents are declarations, which ones they are, and the error of
  all others.
-/

namespace HookStyle

open Css

namespace Document

/-! ## The parts of a document -/

/-- Induction with a hypothesis for every item and every field. -/
@[elab_as_elim]
theorem partInduction {motive : Document → Prop} (null : motive .null)
    (bool : ∀ b, motive (.bool b)) (number : ∀ x, motive (.number x))
    (text : ∀ s, motive (.text s))
    (array : ∀ items, (∀ d ∈ items, motive d) → motive (.array items))
    (object : ∀ fields, (∀ f ∈ fields, motive f.2) → motive (.object fields)) : ∀ d, motive d
  | .null => null
  | .bool b => bool b
  | .number x => number x
  | .text s => text s
  | .array items => array items fun d _ => partInduction null bool number text array object d
  | .object fields => object fields fun f _ => partInduction null bool number text array object f.2
termination_by d => sizeOf d
decreasing_by
  · have := List.sizeOf_lt_of_mem ‹d ∈ items›
    simp only [Document.array.sizeOf_spec]
    omega
  · have := List.sizeOf_lt_of_mem ‹f ∈ fields›
    obtain ⟨key, d⟩ := f
    simp only [Prod.mk.sizeOf_spec, Document.object.sizeOf_spec] at this ⊢
    omega

mutual

/-- Every object has each of its keys once. -/
def Keyed : Document → Prop
  | null | bool _ | number _ | text _ => True
  | array items => ItemsKeyed items
  | object fields => (Entries.keys fields).Nodup ∧ FieldsKeyed fields

def ItemsKeyed : List Document → Prop
  | [] => True
  | d :: rest => d.Keyed ∧ ItemsKeyed rest

def FieldsKeyed : List (String × Document) → Prop
  | [] => True
  | (_, d) :: rest => d.Keyed ∧ FieldsKeyed rest

end

theorem fieldsKeyed_iff {fields : List (String × Document)} :
    FieldsKeyed fields ↔ ∀ f ∈ fields, f.2.Keyed := by
  induction fields with
  | nil => simp [FieldsKeyed]
  | cons f fields ih =>
    obtain ⟨key, d⟩ := f
    simp [FieldsKeyed, ih]

/-- A document that stands somewhere in another, or is the whole of it. -/
inductive Occurs (d : Document) : Document → Prop
  | whole : Occurs d d
  | item {items : List Document} {e : Document} (he : e ∈ items) (h : Occurs d e) :
    Occurs d (array items)
  | field {fields : List (String × Document)} {f : String × Document} (hf : f ∈ fields)
    (h : Occurs d f.2) : Occurs d (object fields)

/-- No Boolean and no array occurs in the document. -/
def Plain (j : Document) : Prop :=
  (∀ b, ¬ (bool b).Occurs j) ∧ ∀ items, ¬ (array items).Occurs j

theorem not_plain_bool (b : Bool) : ¬ (bool b).Plain := fun h => h.1 b .whole

theorem not_plain_array (items : List Document) : ¬ (array items).Plain := fun h => h.2 items .whole

theorem plain_null : null.Plain := ⟨nofun, nofun⟩

theorem plain_number (x : Float) : (number x).Plain := ⟨nofun, nofun⟩

theorem plain_text (s : String) : (text s).Plain := ⟨nofun, nofun⟩

theorem plain_object {fields : List (String × Document)} :
    (object fields).Plain ↔ ∀ f ∈ fields, f.2.Plain := by
  constructor
  · exact fun h f hf => ⟨fun b ho => h.1 b (.field hf ho), fun items ho => h.2 items (.field hf ho)⟩
  · intro h
    refine ⟨fun b ho => ?_, fun items ho => ?_⟩
    · cases ho with
      | field hf ho => exact (h _ hf).1 b ho
    · cases ho with
      | field hf ho => exact (h _ hf).2 items ho

/-- Fields that are read one by one are written as what they were read as, when their documents
are. -/
theorem fields_eq_map {α : Type} (read : Document → α → Prop) {write : α → Document}
    {fields : List (String × Document)} {es : List (String × α)}
    (hread : List.Forall₂ (fun f e => f.1 = e.1 ∧ read f.2 e.2) fields es)
    (hwritten : ∀ f ∈ fields, ∀ x, read f.2 x → f.2 = write x) :
    fields = es.map fun e => (e.1, write e.2) := by
  rw [← List.forall₂_eq_eq_eq, List.forall₂_map_right_iff]
  exact ((List.forall₂_and_left fields es).mpr ⟨hwritten, hread⟩).imp fun f e h =>
    Prod.ext h.2.1 (h.1 e.2 h.2.2)

end Document

/-! ## Trees -/

namespace Tree

mutual

/-- The document that a tree is written as. -/
def document : Tree → Document
  | leaf none => .null
  | leaf (some (.number x)) => .number x
  | leaf (some (.text s)) => .text s
  | branch children => .object (documents children)

def documents : List (String × Tree) → List (String × Document)
  | [] => []
  | (key, t) :: rest => (key, t.document) :: documents rest

end

theorem documents_eq_map (children : List (String × Tree)) :
    documents children = children.map fun e => (e.1, e.2.document) := by
  induction children with
  | nil => rfl
  | cons e children ih =>
    obtain ⟨key, t⟩ := e
    rw [documents, ih, List.map_cons]

/-- A tree is written under the keys that it has, in their order. -/
theorem keys_documents (children : List (String × Tree)) :
    Entries.keys (documents children) = Entries.keys children := by
  rw [documents_eq_map, Entries.keys, Entries.keys, List.map_map]
  rfl

theorem keyed_document {t : Tree} (h : t.Keyed) : t.document.Keyed := by
  induction t using childInduction with
  | leaf s => rcases s with _ | ⟨x | s⟩ <;> trivial
  | branch children ih =>
    obtain ⟨hnodup, hchildren⟩ := keyed_branch.mp h
    rw [document, Document.Keyed, keys_documents, Document.fieldsKeyed_iff, documents_eq_map]
    refine ⟨hnodup, fun f hf => ?_⟩
    obtain ⟨e, he, rfl⟩ := List.mem_map.mp hf
    exact ih e he (childrenKeyed_iff.mp hchildren e he)

/-! ## Reading trees -/

variable {fields : List (String × Document)} {ts : List (String × Tree)} {d : Document} {t : Tree}

/-- Fields are read one by one and keep their keys. -/
theorem ofFields?_eq_some_iff : ofFields? fields = some ts ↔
    List.Forall₂ (fun f e => f.1 = e.1 ∧ ofDocument? f.2 = some e.2) fields ts := by
  induction fields generalizing ts with
  | nil => simp [ofFields?, eq_comm]
  | cons f fields ih =>
    obtain ⟨key, d⟩ := f
    rw [ofFields?, Option.bind_eq_some_iff]
    constructor
    · rintro ⟨t, ht, h⟩
      obtain ⟨us, hus, rfl⟩ := Option.map_eq_some_iff.mp h
      exact .cons ⟨rfl, ht⟩ (ih.mp hus)
    · intro h
      cases h with
      | cons hf h =>
        obtain ⟨rfl, ht⟩ := hf
        exact ⟨_, ht, Option.map_eq_some_iff.mpr ⟨_, ih.mpr h, rfl⟩⟩

theorem isSome_ofFields?_iff :
    (ofFields? fields).isSome ↔ ∀ f ∈ fields, (ofDocument? f.2).isSome := by
  induction fields with
  | nil => simp [ofFields?]
  | cons f fields ih =>
    obtain ⟨key, d⟩ := f
    rw [ofFields?, List.forall_mem_cons, ← ih]
    cases ofDocument? d <;> simp

/-- The documents that can be read as trees are those without Booleans and arrays. -/
theorem isSome_ofDocument?_iff : (ofDocument? d).isSome ↔ d.Plain := by
  induction d using Document.partInduction with
  | null => exact iff_of_true rfl Document.plain_null
  | bool b => exact iff_of_false (by simp [ofDocument?]) (Document.not_plain_bool b)
  | number x => exact iff_of_true rfl (Document.plain_number x)
  | text s => exact iff_of_true rfl (Document.plain_text s)
  | array items => exact iff_of_false (by simp [ofDocument?]) (Document.not_plain_array items)
  | object fields ih =>
    rw [ofDocument?, Option.isSome_map, isSome_ofFields?_iff, Document.plain_object]
    exact forall₂_congr ih

/-- What is written for a tree reads back as that tree. -/
theorem ofDocument?_document (h : t.Keyed) : ofDocument? t.document = some t := by
  induction t using childInduction with
  | leaf s => rcases s with _ | ⟨x | s⟩ <;> rfl
  | branch children ih =>
    obtain ⟨hnodup, hchildren⟩ := keyed_branch.mp h
    have hfields : ofFields? (documents children) = some children := by
      rw [ofFields?_eq_some_iff, documents_eq_map, List.forall₂_map_left_iff, List.forall₂_same]
      exact fun e he => ⟨rfl, ih e he (childrenKeyed_iff.mp hchildren e he)⟩
    rw [document, ofDocument?, hfields, Option.map_some, OrderedMap.entries_ofList hnodup]

/-- A document without repeated keys is what is written for the tree it reads as. -/
theorem eq_document_of_ofDocument? (hd : d.Keyed) (h : ofDocument? d = some t) :
    d = t.document := by
  induction d using Document.partInduction generalizing t with
  | null =>
    cases h
    rfl
  | bool b => cases h
  | number x =>
    cases h
    rfl
  | text s =>
    cases h
    rfl
  | array items => cases h
  | object fields ih =>
    rw [Document.Keyed, Document.fieldsKeyed_iff] at hd
    rw [ofDocument?] at h
    obtain ⟨ts, hts, rfl⟩ := Option.map_eq_some_iff.mp h
    have hfields : fields = documents ts := by
      rw [documents_eq_map]
      exact Document.fields_eq_map (fun d t => ofDocument? d = some t)
        (ofFields?_eq_some_iff.mp hts) fun f hf t ht => ih f hf (hd.2 f hf) ht
    have hnodup : (Entries.keys ts).Nodup := by
      rw [← keys_documents, ← hfields]
      exact hd.1
    rw [OrderedMap.entries_ofList hnodup, document, ← hfields]

end Tree

/-! ## Declarations -/

theorem KeyedTree.ofDocument_eq_ok {property : String} {d : Document} {t : KeyedTree} :
    ofDocument property d = .ok t ↔ Tree.ofDocument? d = some t.tree := by
  unfold ofDocument
  split
  next u hu =>
    obtain ⟨tree, keyed⟩ := t
    simp [hu]
  next hnone => simp [hnone]

/-- A value that cannot be read is reported under its property. -/
theorem KeyedTree.ofDocument_eq_error {property : String} {d : Document} {error : StyleError} :
    ofDocument property d = .error error ↔ ¬ d.Plain ∧ error = .unsupportedValue property := by
  rw [← Tree.isSome_ofDocument?_iff, Option.not_isSome_iff_eq_none]
  unfold ofDocument
  split
  next t ht => simp [ht]
  next hnone => simp [hnone, eq_comm]

namespace Declaration

/-- The document that a declaration is written as. -/
def document (d : Declaration) : Document :=
  .object (d.entries.map fun e => (e.1, e.2.tree.document))

theorem keyed_document (d : Declaration) : d.document.Keyed := by
  rw [document, Document.Keyed, Document.fieldsKeyed_iff, Entries.keys, List.map_map]
  refine ⟨d.keys_nodup, fun f hf => ?_⟩
  obtain ⟨e, -, rfl⟩ := List.mem_map.mp hf
  exact Tree.keyed_document e.2.keyed

variable {fields : List (String × Document)} {ts : List (String × KeyedTree)}
  {error : StyleError}

/-! ## Reading declarations -/

theorem ofFields_eq_ok_iff : ofFields fields = .ok ts ↔
    List.Forall₂ (fun f e => f.1 = e.1 ∧ Tree.ofDocument? f.2 = some e.2.tree) fields ts := by
  induction fields generalizing ts with
  | nil => simp [ofFields, eq_comm]
  | cons f fields ih =>
    obtain ⟨property, d⟩ := f
    rw [ofFields, Outcome.bind_eq_ok]
    constructor
    · rintro ⟨t, ht, h⟩
      obtain ⟨us, hus, rfl⟩ := Outcome.map_eq_ok.mp h
      exact .cons ⟨rfl, KeyedTree.ofDocument_eq_ok.mp ht⟩ (ih.mp hus)
    · intro h
      cases h with
      | cons hf h =>
        obtain ⟨rfl, ht⟩ := hf
        exact ⟨_, KeyedTree.ofDocument_eq_ok.mpr ht, Outcome.map_eq_ok.mpr ⟨_, ih.mpr h, rfl⟩⟩

theorem ofFields_succeeds_iff :
    (∃ ts, ofFields fields = .ok ts) ↔ ∀ f ∈ fields, f.2.Plain := by
  induction fields with
  | nil => simp [ofFields]
  | cons f fields ih =>
    obtain ⟨property, d⟩ := f
    simp only [ofFields, Outcome.bind_eq_ok, Outcome.map_eq_ok]
    rw [List.forall_mem_cons, ← ih, ← Tree.isSome_ofDocument?_iff]
    constructor
    · rintro ⟨_, t, ht, us, hus, rfl⟩
      exact ⟨Option.isSome_iff_exists.mpr ⟨_, KeyedTree.ofDocument_eq_ok.mp ht⟩, us, hus⟩
    · rintro ⟨hsome, us, hus⟩
      obtain ⟨t, ht⟩ := Option.isSome_iff_exists.mp hsome
      exact ⟨_, ⟨t, Tree.ofDocument?_keyed ht⟩, KeyedTree.ofDocument_eq_ok.mpr ht, us, hus, rfl⟩

/-- The error is that of the first property with a Boolean or an array, however deep this is. -/
theorem ofFields_eq_error_iff : ofFields fields = .error error ↔
    ∃ before property d after, fields = before ++ (property, d) :: after ∧
      (∀ f ∈ before, f.2.Plain) ∧ ¬ d.Plain ∧ error = .unsupportedValue property := by
  induction fields with
  | nil => simp [ofFields]
  | cons f fields ih =>
    obtain ⟨property, d⟩ := f
    have hsplit := @Outcome.exists_split_cons _ (fun f : String × Document => f.2.Plain)
      (fun f => ¬ f.2.Plain ∧ error = .unsupportedValue f.1) (property, d) fields
    simp only [Prod.exists] at hsplit
    have hplain : (∃ t, KeyedTree.ofDocument property d = .ok t) ↔ d.Plain := by
      rw [← Tree.isSome_ofDocument?_iff, Option.isSome_iff_exists]
      constructor
      · rintro ⟨t, ht⟩
        exact ⟨_, KeyedTree.ofDocument_eq_ok.mp ht⟩
      · rintro ⟨t, ht⟩
        exact ⟨⟨t, Tree.ofDocument?_keyed ht⟩, KeyedTree.ofDocument_eq_ok.mpr ht⟩
    rw [hsplit, ← ih, ofFields, Outcome.bind_eq_error, KeyedTree.ofDocument_eq_error]
    simp only [Outcome.map_eq_error, exists_and_right, hplain]

theorem ofDocument_document (d : Declaration) : ofDocument d.document = .ok d := by
  have hfields : ofFields (d.entries.map fun e => (e.1, e.2.tree.document)) = .ok d.entries := by
    rw [ofFields_eq_ok_iff, List.forall₂_map_left_iff, List.forall₂_same]
    exact fun e _ => ⟨rfl, Tree.ofDocument?_document e.2.keyed⟩
  rw [document, ofDocument, hfields]
  exact congrArg Except.ok (OrderedMap.ext (OrderedMap.entries_ofList d.keys_nodup))

theorem eq_document_of_ofDocument {j : Document} (hj : j.Keyed) {d : Declaration}
    (h : ofDocument j = .ok d) : j = d.document := by
  cases j with
  | object fields =>
    rw [Document.Keyed, Document.fieldsKeyed_iff] at hj
    obtain ⟨ts, hts, rfl⟩ := Outcome.map_eq_ok.mp h
    have hfields : fields = ts.map fun e => (e.1, e.2.tree.document) :=
      Document.fields_eq_map (fun d t => Tree.ofDocument? d = some t.tree)
        (ofFields_eq_ok_iff.mp hts) fun f hf t ht => Tree.eq_document_of_ofDocument? (hj.2 f hf) ht
    have hnodup : (Entries.keys ts).Nodup := by
      have hkeys := hj.1
      rwa [hfields, Entries.keys, List.map_map] at hkeys
    rw [document, OrderedMap.entries_ofList hnodup, ← hfields]
  | null => cases h
  | bool b => cases h
  | number x => cases h
  | text s => cases h
  | array items => cases h

theorem ofDocument_succeeds_iff {j : Document} :
    (∃ d, ofDocument j = .ok d) ↔ (∃ fields, j = .object fields) ∧ j.Plain := by
  cases j with
  | object fields =>
    rw [Document.plain_object, ← ofFields_succeeds_iff, and_iff_right ⟨fields, rfl⟩]
    simp only [ofDocument, Outcome.map_eq_ok]
    constructor
    · rintro ⟨-, ts, hts, -⟩
      exact ⟨ts, hts⟩
    · rintro ⟨ts, hts⟩
      exact ⟨_, ts, hts, rfl⟩
  | null => simp [ofDocument]
  | bool b => simp [ofDocument]
  | number x => simp [ofDocument]
  | text s => simp [ofDocument]
  | array items => simp [ofDocument]

theorem ofDocument_eq_error_iff {j : Document} : ofDocument j = .error error ↔
    ((∀ fields, j ≠ .object fields) ∧ error = .unsupportedDocument) ∨
    ∃ before property d after, j = .object (before ++ (property, d) :: after) ∧
      (∀ f ∈ before, f.2.Plain) ∧ ¬ d.Plain ∧ error = .unsupportedValue property := by
  cases j with
  | object fields =>
    rw [ofDocument, Outcome.map_eq_error, ofFields_eq_error_iff]
    simp
  | null => simp [ofDocument, eq_comm]
  | bool b => simp [ofDocument, eq_comm]
  | number x => simp [ofDocument, eq_comm]
  | text s => simp [ofDocument, eq_comm]
  | array items => simp [ofDocument, eq_comm]

/-- A document is a declaration exactly when it is an object and neither a Boolean nor an array
occurs in it. When its objects have each key once, the declaration is the one that is written
so, with the same keys in the same order at every depth; every declaration is written in such a
document, which is read back as the declaration. Any other document is refused: the error
names `<root>` when it is no object, and else the first property that is at fault. -/
theorem ofDocument_exact (j : Document) :
    ((∃ d, ofDocument j = .ok d) ↔ (∃ fields, j = .object fields) ∧ j.Plain) ∧
    (j.Keyed → ∀ d, ofDocument j = .ok d ↔ j = d.document) ∧
    (∀ d : Declaration, d.document.Keyed ∧ ofDocument d.document = .ok d) ∧
    ∀ error, ofDocument j = .error error ↔
      ((∀ fields, j ≠ .object fields) ∧ error = .unsupportedDocument ∧
        error.message =
          "Invalid value for property '<root>': expected an object of properties") ∨
      ∃ before property d after, j = .object (before ++ (property, d) :: after) ∧
        (∀ f ∈ before, f.2.Plain) ∧ ¬ d.Plain ∧ error = .unsupportedValue property ∧
          error.message = "Invalid value for property '" ++ property
            ++ "': expected a string, number, null or object" := by
  refine ⟨ofDocument_succeeds_iff, fun hj d => ⟨eq_document_of_ofDocument hj, ?_⟩,
    fun d => ⟨d.keyed_document, d.ofDocument_document⟩, fun error => ?_⟩
  · rintro rfl
    exact d.ofDocument_document
  · rw [ofDocument_eq_error_iff]
    refine or_congr (and_congr_right fun _ => ?_) ?_
    · constructor
      · rintro rfl
        exact ⟨rfl, rfl⟩
      · exact And.left
    · constructor
      · rintro ⟨before, property, d, after, rfl, hbefore, hd, rfl⟩
        exact ⟨before, property, d, after, rfl, hbefore, hd, rfl, rfl⟩
      · rintro ⟨before, property, d, after, rfl, hbefore, hd, rfl, -⟩
        exact ⟨before, property, d, after, rfl, hbefore, hd, rfl⟩

/-- A colour that a hook clears. -/
def clearedOnHover : Document :=
  .object [("color", .object [("default", .text "blue"), (":hover", .null)])]

/-- It is read as it is written. Behind it, a flag under a hook is the fault of its property. -/
theorem ofDocument_clearedOnHover :
    clearedOnHover.Keyed ∧
    (∃ d, ofDocument clearedOnHover = .ok d ∧ clearedOnHover = d.document) ∧
    ofDocument (.object [("color", .text "blue"),
      ("width", .object [(":hover", .object [("default", .bool true)])])])
        = .error (.unsupportedValue "width") := by
  have hkeyed : clearedOnHover.Keyed := by
    simp [clearedOnHover, Document.Keyed, Document.FieldsKeyed, Entries.keys]
  have hplain : clearedOnHover.Plain := by
    simp only [clearedOnHover, Document.plain_object, List.forall_mem_cons]
    exact ⟨⟨Document.plain_text _, Document.plain_null, List.forall_mem_nil _⟩,
      List.forall_mem_nil _⟩
  obtain ⟨hsucceeds, hwritten, -, -⟩ := ofDocument_exact clearedOnHover
  obtain ⟨d, hd⟩ := hsucceeds.mpr ⟨⟨_, rfl⟩, hplain⟩
  refine ⟨hkeyed, ⟨d, hd, (hwritten hkeyed d).mp hd⟩, rfl⟩

end Declaration

end HookStyle
