import HookStyle.Engine.Basic
import HookStyle.Proofs.Engine.Generated
import HookStyle.Proofs.OrderedMap.Entries
import HookStyle.Proofs.Tree.Declarations

/-!
# Variables of an engine

Defining variables compiles the defaults one after the other, each under the next number, up
to the first that does not compile. The expression of a variable starts with its property,
so variables with different properties have different expressions, whatever their defaults
are, and the table of expressions never loses an entry.

* `defineVariables_eq`: the variables that are built, and the numbers that are used up.
* `expression_injective`: the expression of a variable determines its property.
* `lookup_recordAll_of_mem`, `exists_of_lookup_recordAll`: what a table knows after
  expressions have been recorded.
* `overrides_eq_ok`, `overrides_eq_error`: the properties that a theme overrides, and the key
  that ends their look-up.
-/

namespace HookStyle

open Css Evaluation

namespace Engine

variable {engine : Engine}

/-! ## A declaration of one property -/

/-- A single property either compiles or is refused for its first unregistered hook, and
nothing else can happen. -/
theorem inline_single (name : String) (t : KeyedTree) :
    (t.tree.unknownHook? engine.registry.contains = none ∧
        ∃ s, engine.inline (.single name t) = .ok s) ∨
      ∃ hook, t.tree.unknownHook? engine.registry.contains = some hook ∧
        engine.inline (.single name t) = .error (.unknownHook hook) := by
  have hsingle : Declaration.unknownHook? engine.registry.contains (.single name t)
      = t.tree.unknownHook? engine.registry.contains := by
    simp [Declaration.unknownHook?, OrderedMap.single]
  cases h : t.tree.unknownHook? engine.registry.contains with
  | none => exact Or.inl ⟨rfl, Registry.compile_succeeds_iff.mpr (hsingle.trans h)⟩
  | some hook =>
    exact Or.inr ⟨hook, rfl, Registry.compile_eq_error_iff.mpr ⟨hook, hsingle.trans h, rfl⟩⟩

/-- Whether a tree compiles does not depend on the property that it is given to. -/
theorem inline_single_ok {name : String} {t : KeyedTree} {s : Style}
    (h : engine.inline (.single name t) = .ok s) (name' : String) :
    ∃ s', engine.inline (.single name' t) = .ok s' := by
  rcases engine.inline_single name t with ⟨hnone, -⟩ | ⟨hook, -, he⟩
  · rcases engine.inline_single name' t with ⟨-, hok⟩ | ⟨hook, hsome, -⟩
    · exact hok
    · rw [hnone] at hsome
      cases hsome
  · rw [he] at h
    cases h

/-- The error of a property does not depend on its name. -/
theorem inline_single_error {name : String} {t : KeyedTree} {error : StyleError}
    (h : engine.inline (.single name t) = .error error) (name' : String) :
    engine.inline (.single name' t) = .error error := by
  rcases engine.inline_single name t with ⟨-, s, hs⟩ | ⟨hook, hsome, he⟩
  · rw [hs] at h
    cases h
  · rcases engine.inline_single name' t with ⟨hnone, -⟩ | ⟨hook', hsome', he'⟩
    · rw [hnone] at hsome
      cases hsome
    · obtain rfl := Option.some.inj (hsome.symm.trans hsome')
      rw [he', ← h, he]

/-! ## The definitions that are built -/

/-- The variables of the defaults that compile, up to the first that does not. -/
def built (engine : Engine) : Nat → List (String × KeyedTree) → List Definition
  | _, [] => []
  | n, (key, t) :: rest =>
    match engine.inline (.single (VariableTable.nameOf engine.config.namePart n) t) with
    | .error _ => []
    | .ok s =>
      ⟨key, VariableTable.nameOf engine.config.namePart n, s⟩ :: engine.built (n + 1) rest

/-- Either all defaults compile, or the first that does not ends the run, behind those that
have been built. -/
theorem define_eq (n : Nat) (es : List (String × KeyedTree)) :
    ((engine.built n es).length = es.length ∧
        engine.define n es = (.ok (engine.built n es), n + es.length)) ∨
      ∃ before key t after error, es = before ++ (key, t) :: after ∧
        (engine.built n es).length = before.length ∧
        (∀ e ∈ before, ∀ name, ∃ s, engine.inline (.single name e.2) = .ok s) ∧
        (∀ name, engine.inline (.single name t) = .error error) ∧
        engine.define n es = (.error error, n + before.length + 1) := by
  induction es generalizing n with
  | nil => exact Or.inl ⟨rfl, rfl⟩
  | cons e rest ih =>
    obtain ⟨key, t⟩ := e
    cases h : engine.inline (.single (VariableTable.nameOf engine.config.namePart n) t) with
    | error error =>
      refine Or.inr ⟨[], key, t, rest, error, rfl, ?_, ?_, inline_single_error h, ?_⟩
      · rw [built, h]
        rfl
      · exact fun e he => absurd he List.not_mem_nil
      · rw [define]
        simp only [h]
        rfl
    | ok s =>
      rcases ih (n + 1) with ⟨hlen, hdefine⟩ |
        ⟨before, key', t', after, error, rfl, hlen, hbefore, herror, hdefine⟩
      · refine Or.inl ⟨?_, ?_⟩
        · rw [built, h, List.length_cons, List.length_cons, hlen]
        · rw [define, built]
          simp only [h, hdefine, List.length_cons]
          rw [Nat.add_right_comm, Nat.add_assoc]
          rfl
      · refine Or.inr ⟨(key, t) :: before, key', t', after, error, rfl, ?_, ?_, herror, ?_⟩
        · rw [built, h, List.length_cons, List.length_cons, hlen]
        · intro e he name
          rcases List.mem_cons.mp he with rfl | he
          · exact inline_single_ok h name
          · exact hbefore e he name
        · rw [define]
          simp only [h, hdefine, List.length_cons]
          rw [Nat.add_right_comm n 1, Nat.add_assoc n before.length 1]
          rfl

/-- The engine after `count` more generated properties. -/
def advance (engine : Engine) (count : Nat) : Engine :=
  { engine with table := engine.table.advance count }

/-- Defining variables either records all of them, or uses up numbers and changes nothing
else. -/
theorem defineVariables_eq (engine : Engine) (defaults : Declaration) :
    ((engine.built engine.table.next defaults.entries).length = defaults.size ∧
        engine.defineVariables defaults =
          (.ok (groupOf engine.config.layout (engine.built engine.table.next defaults.entries)),
            { engine with
              table := recordAll engine.config.layout (engine.table.advance defaults.size)
                (engine.built engine.table.next defaults.entries) })) ∨
      ∃ before key t after error, defaults.entries = before ++ (key, t) :: after ∧
        (engine.built engine.table.next defaults.entries).length = before.length ∧
        (∀ e ∈ before, ∀ name, ∃ s, engine.inline (.single name e.2) = .ok s) ∧
        (∀ name, engine.inline (.single name t) = .error error) ∧
        engine.defineVariables defaults = (.error error, engine.advance (before.length + 1)) := by
  rcases engine.define_eq engine.table.next defaults.entries with ⟨hlen, hdefine⟩ |
    ⟨before, key, t, after, error, hes, hlen, hbefore, herror, hdefine⟩
  · refine Or.inl ⟨hlen, ?_⟩
    rw [defineVariables, hdefine]
    rfl
  · refine Or.inr ⟨before, key, t, after, error, hes, hlen, hbefore, herror, ?_⟩
    rw [defineVariables, hdefine]
    rfl

/-- What is built in place `i` of the entries has the `i`-th number from the start. -/
theorem getElem?_built {n i : Nat} {es : List (String × KeyedTree)} {d : Definition}
    (h : (engine.built n es)[i]? = some d) :
    ∃ t, es[i]? = some (d.key, t) ∧
      d.name = VariableTable.nameOf engine.config.namePart (n + i) ∧
        engine.inline (.single d.name t) = .ok d.style := by
  induction es generalizing n i with
  | nil => simp [built] at h
  | cons e rest ih =>
    obtain ⟨key, t⟩ := e
    rw [built] at h
    split at h
    · simp at h
    next s hs =>
      cases i with
      | zero =>
        obtain rfl := Option.some.inj h
        exact ⟨t, rfl, rfl, hs⟩
      | succ i =>
        obtain ⟨u, hu, hname, hstyle⟩ := ih h
        exact ⟨u, hu, by rw [hname, Nat.add_right_comm, Nat.add_assoc], hstyle⟩

/-! ## Expressions -/

namespace Definition

/-- What follows the property in the expression of a variable. -/
theorem toList_expression (layout : Layout) (d : Definition) :
    ∃ c rest, (d.expression layout).toList = opening ++ (d.name.toList ++ c :: rest) ∧
      isNameChar c = false := by
  unfold expression
  split
  next v _ =>
    rw [Expression.toList_render_varOr]
    exact ⟨',', _, rfl, by decide⟩
  next =>
    rw [Expression.toList_render_var]
    exact ⟨')', _, rfl, by decide⟩

/-- The name is read back from a reference as what follows its opening, up to the first
character that no name has. -/
theorem takeWhile_expression (layout : Layout) {d : Definition} (h : isName d.name = true) :
    ((d.expression layout).toList.drop opening.length).takeWhile isNameChar = d.name.toList := by
  obtain ⟨c, rest, he, hc⟩ := d.toList_expression layout
  rw [he, List.drop_left, List.takeWhile_append_of_pos fun c => isNameChar_of_mem h,
    List.takeWhile_cons_of_neg (by simp [hc]), List.append_nil]

/-- The expression of a variable determines its property, also between layouts. -/
theorem expression_injective {layout layout' : Layout} {d d' : Definition}
    (h : isName d.name = true) (h' : isName d'.name = true)
    (he : d.expression layout = d'.expression layout') : d.name = d'.name := by
  have hname := takeWhile_expression layout h
  rw [he, takeWhile_expression layout' h'] at hname
  exact String.toList_injective hname.symm

end Definition

/-! ## The table of expressions -/

variable {layout : Layout} {table : VariableTable} {ds : List Definition} {expression : String}

theorem recordAll_append (ds ds' : List Definition) :
    recordAll layout table (ds ++ ds') = recordAll layout (recordAll layout table ds) ds' :=
  List.foldl_append

/-- The number of the table has no part in its expressions. -/
theorem lookup_recordAll_congr {table' : VariableTable} (h : table.lookup = table'.lookup) :
    (recordAll layout table ds).lookup = (recordAll layout table' ds).lookup := by
  induction ds generalizing table table' with
  | nil => exact h
  | cons d ds ih =>
    refine ih (funext fun e => ?_)
    rw [VariableTable.lookup_record, VariableTable.lookup_record, h]

/-- A name found behind several records was recorded by one of them, or before. -/
theorem exists_of_lookup_recordAll {name : String}
    (h : (recordAll layout table ds).lookup expression = some name) :
    (∃ d ∈ ds, d.expression layout = expression ∧ d.name = name) ∨
      table.lookup expression = some name := by
  induction ds generalizing table with
  | nil => exact Or.inr h
  | cons d ds ih =>
    rcases ih h with ⟨d', hd', he⟩ | hrecord
    · exact Or.inl ⟨d', List.mem_cons_of_mem _ hd', he⟩
    · rw [VariableTable.lookup_record] at hrecord
      split at hrecord
      next he => exact Or.inl ⟨d, List.mem_cons_self, he.symm, Option.some.inj hrecord⟩
      next => exact Or.inr hrecord

/-- An expression stays recorded while all that is recorded for it is one property. -/
theorem lookup_recordAll_of_forall {name : String}
    (hall : ∀ d ∈ ds, d.expression layout = expression → d.name = name)
    (h : table.lookup expression = some name ∨ ∃ d ∈ ds, d.expression layout = expression) :
    (recordAll layout table ds).lookup expression = some name := by
  induction ds generalizing table with
  | nil =>
    rcases h with h | ⟨d, hd, -⟩
    · exact h
    · cases hd
  | cons d ds ih =>
    refine ih (fun d' hd' => hall d' (List.mem_cons_of_mem _ hd')) ?_
    rw [VariableTable.lookup_record]
    by_cases he : expression = d.expression layout
    · rw [if_pos he, hall d List.mem_cons_self he.symm]
      exact Or.inl rfl
    · rw [if_neg he]
      refine h.imp_right ?_
      rintro ⟨d', hd', he'⟩
      rcases List.mem_cons.mp hd' with rfl | hd'
      · exact absurd he'.symm he
      · exact ⟨d', hd', he'⟩

/-- An expression tells its name, so no record hides another. -/
theorem lookup_recordAll_of_mem (hnames : ∀ d ∈ ds, isName d.name = true) {d : Definition}
    (hd : d ∈ ds) : (recordAll layout table ds).lookup (d.expression layout) = some d.name :=
  lookup_recordAll_of_forall
    (fun d' hd' he => Definition.expression_injective (hnames d' hd') (hnames d hd) he)
    (Or.inr ⟨d, hd, rfl⟩)

/-! ## The properties of keys -/

/-- The group has an expression for the key, and the table knows the property behind it. -/
def Knows (engine : Engine) (group : VariableGroup) (key : String) : Prop :=
  ∃ expression name, group.expressions.get? key = some expression ∧
    engine.table.lookup expression = some name

variable {group : VariableGroup} {key : String} {error : StyleError}

theorem property_eq_ok {name : String} : engine.property group key = .ok name ↔
    ∃ expression, group.expressions.get? key = some expression ∧
      engine.table.lookup expression = some name := by
  unfold property
  cases group.expressions.get? key with
  | none => simp
  | some expression => cases h : engine.table.lookup expression <;> simp [h]

/-- A key is refused as unknown to the group, or as foreign to the engine. -/
theorem property_eq_error : engine.property group key = .error error ↔
    group.expressions.get? key = none ∧ error = .unknownVariable key ∨
      ∃ expression, group.expressions.get? key = some expression ∧
        engine.table.lookup expression = none ∧ error = .foreignVariable expression := by
  unfold property
  cases group.expressions.get? key with
  | none => simp [eq_comm]
  | some expression => cases h : engine.table.lookup expression <;> simp [h, eq_comm]

theorem knows_iff :
    engine.Knows group key ↔ ∃ name, engine.property group key = .ok name := by
  simp only [property_eq_ok, Knows]
  exact exists_comm

/-- Overrides are renamed key by key, and each key has to be known. -/
theorem overrides_eq_ok {es es' : List (String × KeyedTree)} :
    engine.overrides group es = .ok es' ↔
      List.Forall₂ (fun e e' => engine.property group e.1 = .ok e'.1 ∧ e'.2 = e.2) es es' := by
  induction es generalizing es' with
  | nil =>
    rw [overrides, List.forall₂_nil_left_iff, Except.ok.injEq, eq_comm]
  | cons e es ih =>
    obtain ⟨key, t⟩ := e
    rw [overrides, List.forall₂_cons_left_iff, Outcome.bind_eq_ok]
    constructor
    · rintro ⟨name, hname, h⟩
      obtain ⟨rest, hrest, rfl⟩ := Outcome.map_eq_ok.mp h
      exact ⟨(name, t), rest, ⟨hname, rfl⟩, ih.mp hrest, rfl⟩
    · rintro ⟨⟨name, t'⟩, rest, ⟨hname, rfl⟩, hrest, rfl⟩
      exact ⟨name, hname, Outcome.map_eq_ok.mpr ⟨rest, ih.mpr hrest, rfl⟩⟩

/-- The first key without a property decides, whatever comes after it. -/
theorem overrides_eq_error {es : List (String × KeyedTree)} :
    engine.overrides group es = .error error ↔
      ∃ before key t after, es = before ++ (key, t) :: after ∧
        (∀ b ∈ before, engine.Knows group b.1) ∧ engine.property group key = .error error := by
  induction es with
  | nil =>
    constructor
    · intro h
      cases h
    · rintro ⟨before, key, t, after, h, -⟩
      cases before <;> cases h
  | cons e es ih =>
    obtain ⟨key, t⟩ := e
    have hsplit := @Outcome.exists_split_cons _
      (fun e : String × KeyedTree => engine.Knows group e.1)
      (fun e => engine.property group e.1 = .error error) (key, t) es
    simp only [Prod.exists] at hsplit
    rw [hsplit, ← ih, overrides, Outcome.bind_eq_error, knows_iff]
    simp only [Outcome.map_eq_error, exists_and_right]

end Engine

end HookStyle
