import HookStyle.Chain.Compile
import HookStyle.Proofs.Chain.Toggles
import HookStyle.Proofs.Hook.Identifier

/-!
# The helpers of a compiled style

A compiled style holds the setting of each of its chains and the helpers of their compound
conditions. A helper is added under its name unless the style has that name already. When
distinct conditions have distinct identifiers, what is found there is the same helper, so
in the end every helper stands in the style with its own text.

* `get?_compile`: the setting of a property, whatever the names of the other properties.
* `provides_compile`: the helpers of all compound conditions.
* `get?_compile_eq_none`: the style mentions nothing else.
-/

namespace HookStyle

open Css

def Condition.identifier (c : Condition) : String := Identifier.ofCondition c.text

/-- No two of the conditions share an identifier. -/
def DistinctConditions (cs : List Condition) : Prop :=
  ∀ c ∈ cs, ∀ d ∈ cs, c.identifier = d.identifier → c = d

def Chain.compounds (chain : Chain) : List Condition := chain.links.flatMap fun l => l.1.compounds

def compoundsOfChains (chains : List (String × Chain)) : List Condition :=
  chains.flatMap fun e => e.2.compounds

namespace ToggleSystem

variable {system : ToggleSystem}

/-- The names of the helpers of a compound condition. -/
theorem name_of_mem_pair {c : Condition} {h : Helper} (hm : h ∈ system.pair c) :
    h.name = (Toggle.ofId c.identifier).whenFalse ∨
      h.name = (Toggle.ofId c.identifier).whenTrue := by
  unfold pair at hm
  split at hm
  · simp only [List.mem_cons, List.not_mem_nil, or_false] at hm
    rcases hm with rfl | rfl
    · exact Or.inl rfl
    · exact Or.inr rfl
  · simp only [List.mem_cons, List.not_mem_nil, or_false] at hm
    rcases hm with rfl | rfl
    · exact Or.inl rfl
    · exact Or.inr rfl
  · cases hm

theorem identifier_eq_of_name {c d : Condition} {h k : Helper} (hc : h ∈ system.pair c)
    (kd : k ∈ system.pair d) (hn : h.name = k.name) : c.identifier = d.identifier :=
  Toggle.eq_of_side (name_of_mem_pair hc) (hn ▸ name_of_mem_pair kd)

theorem eq_of_mem_pair {c : Condition} {h k : Helper} (hc : h ∈ system.pair c)
    (kc : k ∈ system.pair c) (hn : h.name = k.name) : h = k := by
  unfold pair at hc kc
  split at hc
  all_goals
    simp only [List.mem_cons, List.not_mem_nil, or_false] at hc kc
  · rcases hc with rfl | rfl <;> rcases kc with rfl | rfl
    · rfl
    · exact absurd hn.symm (Toggle.whenTrue_ne_whenFalse _ _)
    · exact absurd hn (Toggle.whenTrue_ne_whenFalse _ _)
    · rfl
  · rcases hc with rfl | rfl <;> rcases kc with rfl | rfl
    · rfl
    · exact absurd hn.symm (Toggle.whenTrue_ne_whenFalse _ _)
    · exact absurd hn (Toggle.whenTrue_ne_whenFalse _ _)
    · rfl

/-- Helpers of one name are the same when the identifiers of conditions are distinct. -/
theorem helper_unique {cs : List Condition} (hd : DistinctConditions cs) {h k : Helper}
    (hh : h ∈ cs.flatMap system.pair) (hk : k ∈ cs.flatMap system.pair)
    (hn : h.name = k.name) : h = k := by
  obtain ⟨c, hc, hhc⟩ := List.mem_flatMap.mp hh
  obtain ⟨d, hdm, hkd⟩ := List.mem_flatMap.mp hk
  obtain rfl := hd c hc d hdm (identifier_eq_of_name hhc hkd hn)
  exact eq_of_mem_pair hhc hkd hn

/-! ## The result of a chain -/

def chainExpression (system : ToggleSystem) (property : String) (chain : Chain) : Expression :=
  chain.links.foldl
    (fun inner l => choose (system.toggle l.1) (system.renderSetting property l.2) inner)
    (.raw (system.renderSetting property chain.base))

/-- What a property with a chain is set to. -/
def chainSetting (system : ToggleSystem) (property : String) (chain : Chain) : Setting :=
  match chain.links with
  | [] => chain.base
  | _ :: _ => some (.text ((system.chainExpression property chain).render system.layout))

theorem chainSetting_of_links {property : String} {chain : Chain} (h : chain.links ≠ []) :
    system.chainSetting property chain
      = some (.text ((system.chainExpression property chain).render system.layout)) := by
  unfold chainSetting
  split
  next hnil => exact absurd hnil h
  next => rfl

/-- What successful links leave: the helpers of their compound conditions behind those
given, and the given expression wrapped in one choice after another. -/
theorem compileLinks_eq_ok {property : String} {links : List (Condition × Setting)}
    {helpers : List Helper} {inner : Expression} {r : List Helper × Expression}
    (h : system.compileLinks property links helpers inner = .ok r) :
    (∀ l ∈ links, system.Resolves l.1) ∧
      r = (helpers ++ (links.flatMap fun l => l.1.compounds).flatMap system.pair,
        links.foldl (fun inner l =>
          choose (system.toggle l.1) (system.renderSetting property l.2) inner) inner) := by
  induction links generalizing helpers inner with
  | nil =>
    rw [compileLinks] at h
    refine ⟨fun l hl => absurd hl List.not_mem_nil, ?_⟩
    simpa using (Except.ok.inj h).symm
  | cons l links ih =>
    obtain ⟨condition, setting⟩ := l
    rw [compileLinks] at h
    obtain ⟨s, hs, h⟩ := Outcome.bind_eq_ok.mp h
    have hres : system.Resolves condition := ⟨s, hs⟩
    rw [resolve_of_resolves hres] at hs
    obtain rfl := Except.ok.inj hs
    obtain ⟨hall, hr⟩ := ih h
    refine ⟨?_, ?_⟩
    · intro l hl
      rcases List.mem_cons.mp hl with rfl | hl
      · exact hres
      · exact hall l hl
    · rw [hr, List.foldl_cons, List.flatMap_cons, List.flatMap_append, List.append_assoc]
      rfl

/-- A compiled chain in closed form, its helpers and the setting of its property. -/
theorem compileChain_eq_ok {property : String} {chain : Chain} {r : List Helper × Setting}
    (h : system.compileChain property chain = .ok r) :
    (∀ l ∈ chain.links, system.Resolves l.1) ∧
      r = (chain.compounds.flatMap system.pair, system.chainSetting property chain) := by
  obtain ⟨base, links⟩ := chain
  cases links with
  | nil =>
    refine ⟨fun l hl => absurd hl List.not_mem_nil, ?_⟩
    exact (Except.ok.inj h).symm
  | cons l links =>
    rw [compileChain] at h
    obtain ⟨⟨helpers, e⟩, hl, rfl⟩ := Outcome.map_eq_ok.mp h
    obtain ⟨hall, hr⟩ := compileLinks_eq_ok hl
    obtain ⟨rfl, rfl⟩ := Prod.mk.inj hr
    exact ⟨hall, by rw [List.nil_append]; rfl⟩

/-- A style with one more property: helpers under new names only, the property in any case. -/
theorem addProperty_eq_ok {style style' : Style} {property : String} {chain : Chain}
    (h : system.addProperty style property chain = .ok style') :
    (∀ l ∈ chain.links, system.Resolves l.1) ∧
      style' = ((chain.compounds.flatMap system.pair).foldl system.addHelper style).insert property
        (system.chainSetting property chain) := by
  obtain ⟨r, hr, rfl⟩ := Outcome.map_eq_ok.mp h
  obtain ⟨hall, rfl⟩ := compileChain_eq_ok hr
  exact ⟨hall, rfl⟩

/-! ## Adding helpers -/

/-- The style has a helper with its own text. -/
def Provides (system : ToggleSystem) (style : Style) (h : Helper) : Prop :=
  style.get? h.name = some (some (.text (h.value.render system.layout)))

/-- What the style has under the names of the helpers are these helpers. -/
def Fits (system : ToggleSystem) (helpers : List Helper) (style : Style) : Prop :=
  ∀ h ∈ helpers, style.get? h.name = none ∨ system.Provides style h

theorem get?_addHelper (style : Style) (h : Helper) (name : String) :
    (system.addHelper style h).get? name =
      if name = h.name ∧ style.get? h.name = none
      then some (some (.text (h.value.render system.layout))) else style.get? name :=
  OrderedMap.get?_insertNew style h.name name _

/-- A name keeps its setting if it had one, and gets none if no helper has it. -/
theorem get?_foldl_addHelper {hs : List Helper} {style : Style} {name : String}
    (h : style.get? name ≠ none ∨ ∀ k ∈ hs, name ≠ k.name) :
    (hs.foldl system.addHelper style).get? name = style.get? name := by
  induction hs generalizing style with
  | nil => rfl
  | cons k hs ih =>
    have hk : (system.addHelper style k).get? name = style.get? name := by
      rw [get?_addHelper, if_neg]
      rintro ⟨rfl, hn⟩
      rcases h with h | h
      · exact h hn
      · exact h k List.mem_cons_self rfl
    rw [List.foldl_cons, ih, hk]
    rw [hk]
    exact h.imp_right fun h j hj => h j (List.mem_cons_of_mem _ hj)

variable {helpers : List Helper}

/-- Adding one of the helpers keeps the others, and puts it in its place. -/
theorem fits_addHelper (hu : ∀ h ∈ helpers, ∀ k ∈ helpers, h.name = k.name → h = k)
    {style : Style} (hf : system.Fits helpers style) {k : Helper} (hk : k ∈ helpers) :
    system.Fits helpers (system.addHelper style k) ∧
      system.Provides (system.addHelper style k) k ∧
        ∀ h, system.Provides style h → system.Provides (system.addHelper style k) h := by
  have hkeep : ∀ h, system.Provides style h → system.Provides (system.addHelper style k) h := by
    intro h hp
    unfold Provides at hp ⊢
    rw [get?_addHelper, if_neg, hp]
    rintro ⟨hn, hnone⟩
    rw [hn, hnone] at hp
    cases hp
  have hnew : system.Provides (system.addHelper style k) k := by
    rcases hf k hk with hnone | hp
    · rw [Provides, get?_addHelper, if_pos ⟨rfl, hnone⟩]
    · exact hkeep k hp
  refine ⟨?_, hnew, hkeep⟩
  intro h hh
  by_cases hn : h.name = k.name
  · exact Or.inr (hu h hh k hk hn ▸ hnew)
  · rcases hf h hh with hnone | hp
    · left
      rw [get?_addHelper, if_neg fun e => hn e.1, hnone]
    · exact Or.inr (hkeep h hp)

/-- Adding helpers to a fitting style leaves it fitting, provides them, and loses none. -/
theorem fits_foldl_addHelper (hu : ∀ h ∈ helpers, ∀ k ∈ helpers, h.name = k.name → h = k)
    {hs : List Helper} (hsub : ∀ h ∈ hs, h ∈ helpers) {style : Style}
    (hf : system.Fits helpers style) :
    system.Fits helpers (hs.foldl system.addHelper style) ∧
      (∀ h ∈ hs, system.Provides (hs.foldl system.addHelper style) h) ∧
        ∀ h, system.Provides style h → system.Provides (hs.foldl system.addHelper style) h := by
  induction hs generalizing style with
  | nil => exact ⟨hf, fun h hh => absurd hh List.not_mem_nil, fun h hp => hp⟩
  | cons k hs ih =>
    obtain ⟨hfk, hnew, hkeep⟩ := fits_addHelper hu hf (hsub k List.mem_cons_self)
    obtain ⟨hfs, hin, hstay⟩ := ih (fun h hh => hsub h (List.mem_cons_of_mem _ hh)) hfk
    refine ⟨hfs, ?_, fun h hp => hstay h (hkeep h hp)⟩
    intro h hh
    rcases List.mem_cons.mp hh with rfl | hh
    · exact hstay _ hnew
    · exact hin h hh

/-! ## Adding properties -/

theorem provides_insert {style : Style} {h : Helper} {property : String} {s : Setting}
    (hn : property ≠ h.name) (hp : system.Provides style h) :
    system.Provides (style.insert property s) h := by
  unfold Provides at hp ⊢
  rw [OrderedMap.get?_insert, if_neg hn.symm, hp]

theorem fits_insert {style : Style} {property : String} {s : Setting}
    (hn : ∀ h ∈ helpers, property ≠ h.name) (hf : system.Fits helpers style) :
    system.Fits helpers (style.insert property s) := by
  intro h hh
  rcases hf h hh with hnone | hp
  · left
    rw [OrderedMap.get?_insert, if_neg (hn h hh).symm, hnone]
  · exact Or.inr (provides_insert (hn h hh) hp)

/-- By induction over the chains: the helpers of a later chain find the style fitting still,
since no property has the name of a helper. -/
theorem provides_addProperties (hu : ∀ h ∈ helpers, ∀ k ∈ helpers, h.name = k.name → h = k)
    {chains : List (String × Chain)} {style style' : Style}
    (hsub : ∀ h ∈ (compoundsOfChains chains).flatMap system.pair, h ∈ helpers)
    (hn : ∀ property ∈ Entries.keys chains, ∀ h ∈ helpers, property ≠ h.name)
    (hf : system.Fits helpers style) (h : system.addProperties chains style = .ok style') :
    (∀ h ∈ (compoundsOfChains chains).flatMap system.pair, system.Provides style' h) ∧
      ∀ h ∈ helpers, system.Provides style h → system.Provides style' h := by
  induction chains generalizing style with
  | nil =>
    cases h
    exact ⟨fun h hh => absurd hh List.not_mem_nil, fun h _ hp => hp⟩
  | cons e chains ih =>
    obtain ⟨property, chain⟩ := e
    rw [addProperties] at h
    obtain ⟨middle, hm, h⟩ := Outcome.bind_eq_ok.mp h
    obtain ⟨-, rfl⟩ := addProperty_eq_ok hm
    rw [compoundsOfChains, List.flatMap_cons, List.flatMap_append] at hsub ⊢
    obtain ⟨hfit, hin, hkeep⟩ := fits_foldl_addHelper hu
      (fun h hh => hsub h (List.mem_append_left _ hh)) hf
    have hp : ∀ h ∈ helpers, property ≠ h.name := hn property List.mem_cons_self
    obtain ⟨hrest, hstay⟩ := ih (fun h hh => hsub h (List.mem_append_right _ hh))
      (fun q hq => hn q (List.mem_cons_of_mem _ hq)) (fits_insert hp hfit) h
    refine ⟨?_, fun k hk hs => hstay k hk (provides_insert (hp k hk) (hkeep k hs))⟩
    intro k hk
    rcases List.mem_append.mp hk with hk | hk
    · have hkh := hsub k (List.mem_append_left _ hk)
      exact hstay k hkh (provides_insert (hp k hkh) (hin k hk))
    · exact hrest k hk

/-- A run of chains writes nothing else under the names of the helpers. -/
theorem fits_addProperties (hu : ∀ h ∈ helpers, ∀ k ∈ helpers, h.name = k.name → h = k)
    {chains : List (String × Chain)} {style style' : Style}
    (hsub : ∀ h ∈ (compoundsOfChains chains).flatMap system.pair, h ∈ helpers)
    (hn : ∀ property ∈ Entries.keys chains, ∀ h ∈ helpers, property ≠ h.name)
    (hf : system.Fits helpers style) (h : system.addProperties chains style = .ok style') :
    system.Fits helpers style' := by
  induction chains generalizing style with
  | nil =>
    cases h
    exact hf
  | cons e chains ih =>
    obtain ⟨property, chain⟩ := e
    rw [addProperties] at h
    obtain ⟨middle, hm, h⟩ := Outcome.bind_eq_ok.mp h
    obtain ⟨-, rfl⟩ := addProperty_eq_ok hm
    rw [compoundsOfChains, List.flatMap_cons, List.flatMap_append] at hsub
    obtain ⟨hfit, -, -⟩ := fits_foldl_addHelper hu
      (fun h hh => hsub h (List.mem_append_left _ hh)) hf
    exact ih (fun h hh => hsub h (List.mem_append_right _ hh))
      (fun q hq => hn q (List.mem_cons_of_mem _ hq))
      (fits_insert (hn property List.mem_cons_self) hfit) h

theorem get?_addProperties {chains : List (String × Chain)} {style style' : Style} {name : String}
    (h : system.addProperties chains style = .ok style')
    (hk : name ∉ Entries.keys chains)
    (hn : style.get? name ≠ none ∨
      ∀ h ∈ (compoundsOfChains chains).flatMap system.pair, name ≠ h.name) :
    style'.get? name = style.get? name := by
  induction chains generalizing style with
  | nil =>
    cases h
    rfl
  | cons e chains ih =>
    obtain ⟨property, chain⟩ := e
    rw [Entries.keys_cons, List.mem_cons, not_or] at hk
    rw [addProperties] at h
    obtain ⟨middle, hm, h⟩ := Outcome.bind_eq_ok.mp h
    obtain ⟨-, rfl⟩ := addProperty_eq_ok hm
    rw [compoundsOfChains, List.flatMap_cons, List.flatMap_append] at hn
    have hstep : ((((chain.compounds.flatMap system.pair).foldl system.addHelper style).insert
        property (system.chainSetting property chain)).get? name) = style.get? name := by
      rw [OrderedMap.get?_insert, if_neg hk.1]
      exact get?_foldl_addHelper
        (hn.imp_right fun hn k hk => hn k (List.mem_append_left _ hk))
    rw [ih h hk.2, hstep]
    rw [hstep]
    exact hn.imp_right fun hn k hk => hn k (List.mem_append_right _ hk)

/-- The setting written for a property survives the chains after it, whose properties have
other names. -/
theorem get?_addProperties_of_mem {chains : List (String × Chain)} {style style' : Style}
    {property : String} {chain : Chain} (h : system.addProperties chains style = .ok style')
    (hnodup : (Entries.keys chains).Nodup) (hm : (property, chain) ∈ chains) :
    style'.get? property = some (system.chainSetting property chain) ∧
      ∀ l ∈ chain.links, system.Resolves l.1 := by
  induction chains generalizing style with
  | nil => cases hm
  | cons e chains ih =>
    obtain ⟨q, other⟩ := e
    rw [Entries.keys_cons, List.nodup_cons] at hnodup
    rw [addProperties] at h
    obtain ⟨middle, hmid, h⟩ := Outcome.bind_eq_ok.mp h
    rcases List.mem_cons.mp hm with he | hm
    · obtain ⟨rfl, rfl⟩ := Prod.mk.inj he
      obtain ⟨hres, rfl⟩ := addProperty_eq_ok hmid
      refine ⟨?_, hres⟩
      rw [get?_addProperties h hnodup.1 (Or.inl (by simp))]
      simp
    · exact ih h hnodup.2 hm

/-! ## The compiled style -/

/-- The names of the helpers of the conditions, which no property should have. -/
def helperNames (cs : List Condition) : List String :=
  cs.flatMap fun c => [(Toggle.ofId c.identifier).whenFalse, (Toggle.ofId c.identifier).whenTrue]

theorem exists_of_mem_helperNames {cs : List Condition} {name : String}
    (h : name ∈ helperNames cs) : ∃ c ∈ cs,
      name = (Toggle.ofId c.identifier).whenFalse ∨ name = (Toggle.ofId c.identifier).whenTrue := by
  obtain ⟨c, hc, hn⟩ := List.mem_flatMap.mp h
  exact ⟨c, hc, by simpa using hn⟩

theorem mem_helperNames {cs : List Condition} {h : Helper} (hh : h ∈ cs.flatMap system.pair) :
    h.name ∈ helperNames cs := by
  obtain ⟨c, hc, hhc⟩ := List.mem_flatMap.mp hh
  refine List.mem_flatMap.mpr ⟨c, hc, ?_⟩
  rcases name_of_mem_pair hhc with hn | hn <;> simp [hn]

variable {chains : OrderedMap Chain} {style : Style}

theorem get?_compile (h : system.compile chains = .ok style) {property : String} {chain : Chain}
    (hp : chains.get? property = some chain) :
    style.get? property = some (system.chainSetting property chain) ∧
      ∀ l ∈ chain.links, system.Resolves l.1 :=
  get?_addProperties_of_mem h chains.keys_nodup (OrderedMap.mem_of_get? hp)

theorem exists_compileLinks (property : String) {links : List (Condition × Setting)}
    (h : ∀ l ∈ links, system.Resolves l.1) (helpers : List Helper) (inner : Expression) :
    ∃ r, system.compileLinks property links helpers inner = .ok r := by
  induction links generalizing helpers inner with
  | nil => exact ⟨_, rfl⟩
  | cons l links ih =>
    obtain ⟨condition, setting⟩ := l
    obtain ⟨s, hs⟩ := h _ List.mem_cons_self
    obtain ⟨r, hr⟩ := ih (fun k hk => h k (List.mem_cons_of_mem _ hk)) (helpers ++ s.helpers)
      (choose s.toggle (system.renderSetting property setting) inner)
    exact ⟨r, by rw [compileLinks]; exact Outcome.bind_eq_ok.mpr ⟨s, hs, hr⟩⟩

/-- A chain is added to any style, once its conditions have toggles. -/
theorem exists_addProperty {property : String} {chain : Chain}
    (h : ∀ l ∈ chain.links, system.Resolves l.1) (style : Style) :
    ∃ style', system.addProperty style property chain = .ok style' := by
  obtain ⟨base, links⟩ := chain
  cases links with
  | nil => exact ⟨_, rfl⟩
  | cons l links =>
    obtain ⟨r, hr⟩ := exists_compileLinks property h []
      (.raw (system.renderSetting property base))
    have hchain : system.compileChain property ⟨base, l :: links⟩
        = .ok (r.1, some (.text (r.2.render system.layout))) := by
      simp only [compileChain]
      rw [hr]
      rfl
    exact ⟨_, Outcome.map_eq_ok.mpr ⟨_, hchain, rfl⟩⟩

/-- Chains compile exactly when all of their conditions have a toggle. -/
theorem compile_succeeds_iff : (∃ style, system.compile chains = .ok style) ↔
    ∀ e ∈ chains.entries, ∀ l ∈ e.2.links, system.Resolves l.1 := by
  constructor
  · rintro ⟨style, h⟩ e he
    exact (get?_compile h (OrderedMap.get?_of_mem he)).2
  · intro h
    suffices hrun : ∀ es : List (String × Chain), (∀ e ∈ es, ∀ l ∈ e.2.links, system.Resolves l.1) →
        ∀ style, ∃ style', system.addProperties es style = .ok style' from hrun _ h _
    intro es
    induction es with
    | nil => exact fun _ style => ⟨style, rfl⟩
    | cons e es ih =>
      intro hes style
      obtain ⟨middle, hm⟩ := exists_addProperty (hes e List.mem_cons_self) style
      obtain ⟨style', hs⟩ := ih (fun d hd => hes d (List.mem_cons_of_mem _ hd)) middle
      exact ⟨style', Outcome.bind_eq_ok.mpr ⟨middle, hm, hs⟩⟩

/-- Every compound condition of the chains finds its helpers in the compiled style. -/
theorem provides_compile (h : system.compile chains = .ok style)
    (hd : DistinctConditions (compoundsOfChains chains.entries))
    (hn : ∀ property ∈ chains.keys, property ∉ helperNames (compoundsOfChains chains.entries)) :
    ∀ h ∈ (compoundsOfChains chains.entries).flatMap system.pair, system.Provides style h := by
  refine (provides_addProperties (fun h hh k hk => helper_unique hd hh hk) (fun h hh => hh)
    ?_ ?_ h).1
  · rintro property hp k hk rfl
    exact hn _ hp (mem_helperNames hk)
  · intro k _
    exact Or.inl rfl

/-- What a compiled style has under the name of a helper is that helper. -/
theorem fits_compile (h : system.compile chains = .ok style) {cs : List Condition}
    (hd : DistinctConditions cs) (hsub : ∀ c ∈ compoundsOfChains chains.entries, c ∈ cs)
    (hn : ∀ property ∈ chains.keys, property ∉ helperNames cs) :
    system.Fits (cs.flatMap system.pair) style := by
  refine fits_addProperties (fun h hh k hk => helper_unique hd hh hk) ?_ ?_ ?_ h
  · intro k hk
    obtain ⟨c, hc, hkc⟩ := List.mem_flatMap.mp hk
    exact List.mem_flatMap.mpr ⟨c, hsub c hc, hkc⟩
  · rintro property hp k hk rfl
    exact hn _ hp (mem_helperNames hk)
  · intro k _
    exact Or.inl rfl

/-- A style mentions its properties and helpers only. -/
theorem get?_compile_eq_none (h : system.compile chains = .ok style) {name : String}
    (hk : name ∉ chains.keys) (hn : name ∉ helperNames (compoundsOfChains chains.entries)) :
    style.get? name = none := by
  refine get?_addProperties h hk (Or.inr ?_)
  rintro k hkm rfl
  exact hn (mem_helperNames hkm)

end ToggleSystem

end HookStyle
