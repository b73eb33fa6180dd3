import HookStyle.Proofs.Engine.Ledger
import HookStyle.Proofs.Evaluation.Seams
import HookStyle.Proofs.Style.Filling
import HookStyle.Proofs.Style.Merging
import HookStyle.Proofs.Tree.Meaning

/-!
# The meaning of parametric styles

The declaration of a parametric style is made from placeholders, the references to its
parameters. Applied to arguments, its style means the same as the style of the declaration
with the arguments in place of the placeholders.

* `createParametric_eq_ok`: the template is the style of the declaration.
* `filled_of_admits`, `fillable_bindings`: what is asked of the arguments and the declaration is
  what filling asks for.
* `computed_apply`: the style for the arguments, and the style of the filled declaration.
-/

namespace HookStyle

open Css Evaluation

namespace ParametricStyle

/-- The parameters with the texts of the arguments. -/
def bindings (p : ParametricStyle) (arguments : List Value) : List (String × List Char) :=
  p.parameters.zip (arguments.map fun v => v.display.toList)

/-- What is asked of a declaration over the parameters and of the arguments. All parentheses
match, and the fallback keyword does not name a parameter. -/
structure Admits (p : ParametricStyle) (d : Declaration) (fallback : String)
    (arguments : List Value) : Prop where
  /-- The arguments are texts without references. -/
  plain : ∀ v ∈ arguments, isPlain v.display = true
  trimmed : ∀ v ∈ arguments, trim v.display.toList = v.display.toList
  closes_text : ∀ s ∈ d.texts, closes 0 s.toList = true
  /-- The references of the declaration are the placeholders. -/
  placeholders : ∀ s ∈ d.texts, OnlyRefersTo p.parameters s.toList
  /-- No reference arises where an argument meets the text around its placeholder. -/
  seamless : ∀ s ∈ d.texts, FillsSeamlessly (p.bindings arguments) s.toList
  closes_fallback : closes 0 fallback.toList = true
  unmentioned : ∀ name ∈ p.parameters, ¬ name.toList <:+: fallback.toList

variable {p : ParametricStyle} {arguments : List Value}

theorem keys_bindings (h : arguments.length = p.arity) :
    Entries.keys (p.bindings arguments) = p.parameters :=
  List.map_fst_zip (by rw [List.length_map, h]; exact Nat.le_refl _)

theorem keys_zip_arguments (h : arguments.length = p.arity) :
    Entries.keys (p.parameters.zip (arguments.map some)) = p.parameters :=
  List.map_fst_zip (by rw [List.length_map, h]; exact Nat.le_refl _)

/-- What is bound to a name is the text of the argument in its place. -/
theorem exists_of_mem_bindings {b : String × List Char} (hb : b ∈ p.bindings arguments) :
    ∃ v ∈ arguments, b.2 = v.display.toList ∧
      (b.1, some v) ∈ p.parameters.zip (arguments.map some) := by
  rw [bindings, List.zip_map_right] at hb
  obtain ⟨⟨name, v⟩, hmem, rfl⟩ := List.mem_map.mp hb
  refine ⟨v, (List.of_mem_zip hmem).2, rfl, ?_⟩
  rw [List.zip_map_right]
  exact List.mem_map.mpr ⟨_, hmem, rfl⟩

/-- With new parameters, the arguments stand behind the template. -/
theorem exists_apply (hnodup : p.parameters.Nodup)
    (hnew : ∀ name ∈ p.parameters, p.template.get? name = none)
    (hlength : arguments.length = p.arity) :
    ∃ style, p.apply arguments = .ok style ∧
      style.entries = p.template.entries ++ p.parameters.zip (arguments.map some) := by
  refine ⟨_, if_pos hlength, OrderedMap.entries_insertAll_of_nodup ?_⟩
  rw [keys_zip_arguments hlength, List.nodup_append']
  refine ⟨p.template.keys_nodup, hnodup, ?_⟩
  intro name hmem hparameter
  rw [← OrderedMap.contains_iff, OrderedMap.contains, hnew name hparameter] at hmem
  cases hmem

variable {style : Style}

/-- An applied style has its arguments under the parameters, and the template's settings
elsewhere. -/
theorem get?_of_apply (hnodup : p.parameters.Nodup) (h : p.apply arguments = .ok style)
    (name : String) : style.get? name =
      ((p.parameters.zip (arguments.map some)).lookup name).or (p.template.get? name) := by
  unfold apply at h
  split at h
  next hlength =>
    obtain rfl := Except.ok.inj h
    refine OrderedMap.get?_insertAll ?_ p.template name
    rwa [keys_zip_arguments hlength]
  next => cases h

/-- The style for the arguments sets the parameters to the texts of the arguments. -/
theorem sets_of_apply (hnodup : p.parameters.Nodup)
    (hunitless : ∀ name ∈ p.parameters, Property.isUnitless name = true)
    (hlength : arguments.length = p.arity) {d : Declaration} {fallback : String}
    (hadmits : p.Admits d fallback arguments) (h : p.apply arguments = .ok style) :
    Style.Sets (p.bindings arguments) style := by
  intro b hb
  obtain ⟨v, hv, htext, hmem⟩ := exists_of_mem_bindings hb
  have hplain := hadmits.plain v hv
  rw [isPlain, Bool.and_eq_true, Option.isNone_iff_eq_none] at hplain
  refine ⟨htext ▸ hplain.1, htext ▸ hadmits.trimmed v hv, v, ?_, ?_⟩
  · have hkeys : (Entries.keys (p.parameters.zip (arguments.map some))).Nodup := by
      rwa [keys_zip_arguments hlength]
    rw [get?_of_apply hnodup h, Entries.lookup_of_mem hkeys hmem, Option.some_or]
  · rw [htext, Value.render_unitless (hunitless b.1 (List.of_mem_zip hmem).1)]

/-- The style for the arguments differs from the template in the parameters only. -/
theorem alike_of_apply (hnodup : p.parameters.Nodup) (hlength : arguments.length = p.arity)
    (h : p.apply arguments = .ok style) {static : Style}
    (halike : Style.Alike (p.bindings arguments) p.template static) :
    Style.Alike (p.bindings arguments) style static := by
  intro name hname
  have hnone : (p.parameters.zip (arguments.map some)).lookup name = none := by
    rw [← Option.not_isSome_iff_eq_none, Entries.lookup_isSome, keys_zip_arguments hlength,
      ← keys_bindings hlength]
    exact hname
  rw [get?_of_apply hnodup h, hnone, Option.none_or]
  exact halike name hname

end ParametricStyle

namespace Engine

/-- The references that the declaration of a parametric style is made from. -/
def placeholders (engine : Engine) (arity : Nat) : List String :=
  (engine.table.fresh engine.config.namePart arity).map fun name =>
    (Expression.var name).render engine.config.layout

variable {engine : Engine} {arity : Nat}
  {declare : List String → Except StyleError Declaration} {p : ParametricStyle} {d : Declaration}

/-- The template is the declaration of the placeholders, compiled. -/
theorem createParametric_eq_ok (h : (engine.createParametric arity declare).1 = .ok p)
    (hd : declare (engine.placeholders arity) = .ok d) :
    engine.inline d = .ok p.template ∧
      p.parameters = engine.table.fresh engine.config.namePart arity := by
  obtain ⟨template, hs, rfl⟩ := Outcome.map_eq_ok.mp h
  obtain ⟨d', hd', hs⟩ := Outcome.bind_eq_ok.mp hs
  obtain rfl := Except.ok.inj (hd.symm.trans hd')
  exact ⟨hs, rfl⟩

theorem fallback_of_ofConfig {config : Config} {start : Engine} (h : ofConfig config = .ok start) :
    start.registry.toggles.fallback = config.fallback := by
  obtain ⟨_, -, h⟩ := Outcome.bind_eq_ok.mp h
  obtain ⟨registry, hr, rfl⟩ := Outcome.map_eq_ok.mp h
  obtain ⟨hooks, -, rfl⟩ := Outcome.map_eq_ok.mp hr
  rfl

/-! ## The parameters -/

/-- The style of a declaration mentions a parameter only if the declaration does. -/
theorem get?_of_mem_fresh {style : Style} (hc : engine.inline d = .ok style) {name : String}
    (h : name ∈ engine.table.fresh engine.config.namePart arity) (hk : name ∉ d.keys) :
    style.get? name = none := by
  obtain ⟨n, rfl⟩ := VariableTable.exists_number_of_mem_fresh h
  exact ToggleSystem.get?_compile_eq_none (Registry.compile_eq_ok.mp hc).2
    (fun hchains => hk (Registry.keys_chains_subset hchains))
    (ToggleSystem.nameOf_not_mem_helperNames _ _ _)

/-! ## The style for the arguments -/

/-- Filling in values asks for no other hooks, so the filled declaration compiles as well. -/
theorem exists_inline_fill {style : Style} (hc : engine.inline d = .ok style)
    (bindings : List (String × List Char)) :
    ∃ static, engine.inline (d.fill bindings) = .ok static := by
  refine Registry.compile_succeeds_iff.mpr ?_
  rw [Declaration.fill, Declaration.unknownHook?_mapValues]
  exact (Registry.compile_eq_ok.mp hc).1

variable {arguments : List Value}

/-- Arguments are bound to names that may stand behind `var(`. -/
theorem isName_of_mem_bindings (hname : Config.isNamePart engine.config.namePart = true)
    (hp : p.parameters = engine.table.fresh engine.config.namePart arity)
    (hlength : arguments.length = p.arity) :
    ∀ b ∈ p.bindings arguments, isName b.1 = true := by
  intro b hb
  have hmem : b.1 ∈ p.parameters :=
    ParametricStyle.keys_bindings hlength ▸ List.mem_map_of_mem hb
  obtain ⟨n, hn⟩ := VariableTable.exists_number_of_mem_fresh (hp ▸ hmem)
  rw [hn]
  exact VariableTable.isName_nameOf hname n

/-- Filling leaves no reference in the texts of the declaration. -/
theorem filled_of_admits (hname : Config.isNamePart engine.config.namePart = true)
    (hp : p.parameters = engine.table.fresh engine.config.namePart arity)
    (hlength : arguments.length = p.arity) {fallback : String}
    (h : p.Admits d fallback arguments) :
    ∀ s ∈ d.texts, nextReference? (substitute (p.bindings arguments) 0 s.toList) = none := by
  intro s hs
  have hkeys := ParametricStyle.keys_bindings hlength
  have hnodup : (Entries.keys (p.bindings arguments)).Nodup := by
    rw [hkeys, hp]
    exact VariableTable.nodup_fresh
  have hplain : ∀ b ∈ p.bindings arguments, nextReference? b.2 = none := by
    intro b hb
    obtain ⟨v, hv, htext, -⟩ := ParametricStyle.exists_of_mem_bindings hb
    have hv := h.plain v hv
    rw [isPlain, Bool.and_eq_true, Option.isNone_iff_eq_none] at hv
    rw [htext]
    exact hv.1
  refine (nextReference?_substitute_iff (isName_of_mem_bindings hname hp hlength) hnodup
    hplain).mpr ⟨?_, h.seamless s hs⟩
  rw [hkeys]
  exact h.placeholders s hs

/-- Under the conditions on template and arguments, every text of the declaration can be
filled in before or after it is compiled. -/
theorem fillable_bindings (hname : Config.isNamePart engine.config.namePart = true)
    (hp : p.parameters = engine.table.fresh engine.config.namePart arity)
    (hlength : arguments.length = p.arity)
    (h : p.Admits d engine.registry.toggles.fallback arguments) :
    engine.registry.toggles.Fillable (p.bindings arguments) d.texts := by
  have hkeys := ParametricStyle.keys_bindings hlength
  refine ⟨isName_of_mem_bindings hname hp hlength, ?_, ?_, h.closes_fallback, ?_, h.closes_text,
    filled_of_admits hname hp hlength h⟩
  · intro name hm
    rw [hkeys, hp] at hm
    obtain ⟨n, rfl⟩ := VariableTable.exists_number_of_mem_fresh hm
    exact VariableTable.not_isSide_nameOf _ _
  · intro b hb
    obtain ⟨v, hv, htext, -⟩ := ParametricStyle.exists_of_mem_bindings hb
    rw [htext]
    exact ToggleSystem.closes_of_isPlain (h.plain v hv)
  · rw [hkeys]
    exact h.unmentioned

theorem placeholders_eq (hp : p.parameters = engine.table.fresh engine.config.namePart arity) :
    engine.placeholders arity = p.parameters.map fun name => String.ofList (reference name) := by
  rw [hp, placeholders]
  refine List.map_congr_left fun name _ => String.toList_injective ?_
  rw [Expression.toList_render_var, String.toList_ofList, reference]

/-- The style for the arguments means the same as the style of the filled declaration. -/
theorem computed_of_admits (hname : Config.isNamePart engine.config.namePart = true)
    (hp : p.parameters = engine.table.fresh engine.config.namePart arity)
    (htemplate : engine.inline d = .ok p.template) {style static : Style}
    (hlength : arguments.length = p.arity) (hstyle : p.apply arguments = .ok style)
    (hstatic : engine.inline (d.fill (p.bindings arguments)) = .ok static)
    (hadmits : p.Admits d engine.registry.toggles.fallback arguments) (active : String → Bool)
    {property : String} (hproperty : property ∉ p.parameters) :
    engine.registry.toggles.computed active (InlineStyle.merge [.style style]) property =
      engine.registry.toggles.computed active (InlineStyle.merge [.style static]) property := by
  have hnodup : p.parameters.Nodup := hp ▸ VariableTable.nodup_fresh
  have hunitless : ∀ name ∈ p.parameters, Property.isUnitless name = true := by
    intro name hm
    obtain ⟨n, rfl⟩ := VariableTable.exists_number_of_mem_fresh (hp ▸ hm)
    exact VariableTable.isUnitless_nameOf _ n
  have hfillable := fillable_bindings hname hp hlength hadmits
  have halike := ParametricStyle.alike_of_apply hnodup hlength hstyle
    (Registry.alike_compile hfillable htemplate hstatic)
  have hsets := ParametricStyle.sets_of_apply hnodup hunitless hlength hadmits hstyle
  rw [ToggleSystem.computed_congr (InlineStyle.get?_merge_single style),
    ToggleSystem.computed_congr (InlineStyle.get?_merge_single static)]
  refine ToggleSystem.computed_of_alike hfillable.sides hsets halike ?_
  rwa [ParametricStyle.keys_bindings hlength]

/-- A parametric style is applied to as many arguments as it has parameters, and to no other
number. Its style has the template and, behind it, the arguments. It means the same as the
style of the declaration with the arguments in place of the placeholders. -/
theorem computed_apply {config : Config} {start : Engine} (hstart : ofConfig config = .ok start)
    (calls : List Call) {arity : Nat} {declare : List String → Except StyleError Declaration}
    {p : ParametricStyle} (hcreate : ((start.after calls).createParametric arity declare).1 = .ok p)
    {d : Declaration} (hd : declare ((start.after calls).placeholders arity) = .ok d)
    (hkeys : ∀ name ∈ p.parameters, name ∉ d.keys) :
    (start.after calls).placeholders arity =
        p.parameters.map (fun name => String.ofList (reference name)) ∧
      (∀ arguments e, p.apply arguments = .error e ↔
        arguments.length ≠ arity ∧ e = .arityMismatch arity arguments.length) ∧
      ∀ arguments : List Value, arguments.length = arity → ∃ style static,
        p.apply arguments = .ok style ∧
        style.entries = p.template.entries ++ p.parameters.zip (arguments.map some) ∧
        (start.after calls).inline (d.fill (p.bindings arguments)) = .ok static ∧
        (p.Admits d config.fallback arguments → ∀ active, ∀ property ∉ p.parameters,
          start.registry.toggles.computed active (InlineStyle.merge [.style style]) property =
            start.registry.toggles.computed active (InlineStyle.merge [.style static])
              property) := by
  obtain ⟨htemplate, hp⟩ := createParametric_eq_ok hcreate hd
  obtain ⟨hname, rfl, -⟩ := ofConfig_eq_ok hstart
  have hfallback := fallback_of_ofConfig hstart
  have harity : p.arity = arity := by
    rw [ParametricStyle.arity, hp]
    simp [VariableTable.fresh]
  refine ⟨placeholders_eq hp, ?_, ?_⟩
  · intro arguments e
    rw [ParametricStyle.apply_eq_error_iff, harity]
  · intro arguments hlength
    rw [← harity] at hlength
    obtain ⟨style, hstyle, hentries⟩ := ParametricStyle.exists_apply
      (hp ▸ VariableTable.nodup_fresh)
      (fun name hm => get?_of_mem_fresh htemplate (hp ▸ hm) (hkeys name hm)) hlength
    obtain ⟨static, hstatic⟩ := exists_inline_fill htemplate (p.bindings arguments)
    refine ⟨style, static, hstyle, hentries, hstatic, ?_⟩
    intro hadmits active property hproperty
    rw [← hfallback, ← registry_after start calls] at hadmits
    rw [← config_after start calls] at hname
    rw [← registry_after start calls]
    exact computed_of_admits hname hp htemplate hlength hstyle hstatic hadmits active hproperty

/-- A declaration with two texts, of which the first stands inside parentheses. -/
def spaced (inner outer : String) : Declaration :=
  .single "padding" (KeyedTree.empty.base (.literal (.text ("calc(2 * " ++ inner ++ ") " ++ outer)))
    |>.on ":hover" (.literal (.text outer)))

def declareSpaced : List String → Except StyleError Declaration
  | [inner, outer] => .ok (spaced inner outer)
  | _ => .error .unsupportedDocument

theorem computed_apply_spaced : ∃ p style static,
    (hoverFocus.createParametric 2 declareSpaced).1 = .ok p ∧
      p.apply [.text "4px", .text "1em"] = .ok style ∧
      hoverFocus.inline (spaced "4px" "1em") = .ok static ∧
      ∀ active,
        hoverFocus.registry.toggles.computed active (InlineStyle.merge [.style style]) "padding" =
          hoverFocus.registry.toggles.computed active (InlineStyle.merge [.style static])
            "padding" := by
  obtain ⟨p, hcreate, hparameters⟩ : ∃ p, (hoverFocus.createParametric 2 declareSpaced).1 = .ok p ∧
      p.parameters = ["--_horizon_var_0", "--_horizon_var_1"] := ⟨_, rfl, by decide +kernel⟩
  have hd : declareSpaced (hoverFocus.placeholders 2)
      = .ok (spaced "var(--_horizon_var_0)" "var(--_horizon_var_1)") := rfl
  have hkeys : ∀ name ∈ p.parameters,
      name ∉ (spaced "var(--_horizon_var_0)" "var(--_horizon_var_1)").keys := by
    rw [hparameters]
    decide +kernel
  obtain ⟨-, -, happly⟩ := computed_apply ofConfig_hoverFocus [] hcreate hd hkeys
  obtain ⟨style, static, hstyle, -, hstatic, heq⟩ := happly [.text "4px", .text "1em"] rfl
  have hbindings : p.bindings [.text "4px", .text "1em"] =
      [("--_horizon_var_0", "4px".toList), ("--_horizon_var_1", "1em".toList)] := by
    rw [ParametricStyle.bindings, hparameters]
    rfl
  have hnames : ∀ b ∈ p.bindings [.text "4px", .text "1em"], isName b.1 = true := by
    rw [hbindings]
    decide +kernel
  have hnodup : (Entries.keys (p.bindings [.text "4px", .text "1em"])).Nodup := by
    rw [hbindings]
    decide +kernel
  have hfilled : ∀ s ∈ (spaced "var(--_horizon_var_0)" "var(--_horizon_var_1)").texts,
      nextReference? (substitute (p.bindings [.text "4px", .text "1em"]) 0 s.toList) = none := by
    rw [hbindings]
    decide +kernel
  have hadmits : p.Admits (spaced "var(--_horizon_var_0)" "var(--_horizon_var_1)")
      ToggleSystem.defaultFallback [.text "4px", .text "1em"] := by
    refine ⟨by decide +kernel, by decide +kernel, by decide +kernel, fun s hs => ?_,
      fun s hs => fillsSeamlessly_of_substitute hnames hnodup (hfilled s hs),
      by decide +kernel, ?_⟩
    · have honly := onlyRefersTo_of_substitute hnames (hfilled s hs)
      rw [hbindings] at honly
      rw [hparameters]
      exact honly
    · rw [hparameters]
      decide +kernel
  have hfill : (spaced "var(--_horizon_var_0)" "var(--_horizon_var_1)").fill
      (p.bindings [.text "4px", .text "1em"]) = spaced "4px" "1em" := by
    rw [hbindings]
    rfl
  rw [hfill] at hstatic
  refine ⟨p, style, static, hcreate, hstyle, hstatic, fun active => heq hadmits active _ ?_⟩
  rw [hparameters]
  decide +kernel

end Engine

end HookStyle
