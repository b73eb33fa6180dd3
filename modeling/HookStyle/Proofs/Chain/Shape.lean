import HookStyle.Proofs.Chain.References
import HookStyle.Proofs.OrderedMap.Entries

/-!
# The shape of a compiled style

The compiler writes, for every property in turn, the helpers of its conditions and then the
property. A helper whose name has been written is left out, so a style consists of the first
writes. When no property has the prefix of helpers, this gives the order of all keys, also
when the identifiers of different conditions collide.

* `addProperties_eq_foldl`, `entries_compile`: a compiled style consists of first writes.
* `exists_identifiers`: the helpers come in pairs, one for every identifier.
* `arranged_compile`: where properties and helpers stand, and what they refer to.
-/

namespace HookStyle

open Css Evaluation

namespace ToggleSystem

variable {system : ToggleSystem} {chains : List (String × Chain)}

/-! ## The names of helpers -/

/-- Names that are kept for helpers. -/
def IsHelperName (name : String) : Prop := "--cond-".toList <+: name.toList

instance (name : String) : Decidable (IsHelperName name) :=
  inferInstanceAs (Decidable ("--cond-".toList <+: name.toList))

theorem isHelperName_of_mem {cs : List Condition} {name : String} (h : name ∈ helperNames cs) :
    IsHelperName name := by
  obtain ⟨c, -, rfl | rfl⟩ := exists_of_mem_helperNames h
  · exact ⟨(Identifier.hash c.text).toList ++ "-0".toList, by
      simp [Toggle.ofId, Condition.identifier, Identifier.ofCondition]⟩
  · exact ⟨(Identifier.hash c.text).toList ++ "-1".toList, by
      simp [Toggle.ofId, Condition.identifier, Identifier.ofCondition]⟩

theorem nodup_helperNames (c : Condition) : (helperNames [c]).Nodup := by
  simpa [helperNames] using (Toggle.whenTrue_ne_whenFalse c.identifier c.identifier).symm

/-- A condition's names are among those of others when they have its identifier. -/
theorem mem_helperNames_iff {cs : List Condition} {c : Condition} {name : String}
    (h : name ∈ helperNames [c]) :
    name ∈ helperNames cs ↔ ∃ d ∈ cs, d.identifier = c.identifier := by
  constructor
  · intro hcs
    obtain ⟨d, hd, hside⟩ := exists_of_mem_helperNames hcs
    obtain ⟨e, he, hside'⟩ := exists_of_mem_helperNames h
    obtain rfl := List.mem_singleton.mp he
    exact ⟨d, hd, Toggle.eq_of_side hside hside'⟩
  · rintro ⟨d, hd, hid⟩
    refine List.mem_flatMap.mpr ⟨d, hd, ?_⟩
    rw [hid]
    simpa [helperNames] using h

/-! ## Helpers as entries -/

/-- What a helper is written as. -/
def helperEntry (system : ToggleSystem) (h : Helper) : String × Setting :=
  (h.name, some (.text (h.value.render system.layout)))

/-- The helpers of conditions as entries. -/
def helperEntries (system : ToggleSystem) (cs : List Condition) : List (String × Setting) :=
  (cs.flatMap system.pair).map system.helperEntry

theorem helperEntries_append (cs ds : List Condition) : system.helperEntries (cs ++ ds) =
    system.helperEntries cs ++ system.helperEntries ds := by
  simp [helperEntries]

def AllCompound (cs : List Condition) : Prop := ∀ c ∈ cs, c.IsCompound

theorem allCompound_compounds (chain : Chain) : AllCompound chain.compounds := by
  intro c hc
  obtain ⟨l, -, hc⟩ := List.mem_flatMap.mp hc
  exact Condition.isCompound_of_mem_compounds hc

theorem allCompound_compoundsOfChains (chains : List (String × Chain)) :
    AllCompound (compoundsOfChains chains) := by
  intro c hc
  obtain ⟨e, -, hc⟩ := List.mem_flatMap.mp hc
  exact allCompound_compounds e.2 c hc

/-- Every compound condition has exactly two helpers, the false side first. -/
theorem keys_helperEntries {cs : List Condition} (h : AllCompound cs) :
    Entries.keys (system.helperEntries cs) = helperNames cs := by
  induction cs with
  | nil => rfl
  | cons c cs ih =>
    have hc : Entries.keys ((system.pair c).map system.helperEntry) =
        [(Toggle.ofId c.identifier).whenFalse, (Toggle.ofId c.identifier).whenTrue] := by
      obtain ⟨d, e, ds, rfl | rfl⟩ := h c List.mem_cons_self
      · rfl
      · rfl
    have hcs := ih fun d hd => h d (List.mem_cons_of_mem _ hd)
    rw [helperEntries, List.flatMap_cons, List.map_append, Entries.keys_append, hc]
    exact congrArg _ hcs

/-- The first writes of one more condition are its two helpers, unless its identifier has
been used. -/
theorem firstWrites_helperEntries_concat {cs : List Condition} {c : Condition}
    (h : AllCompound (cs ++ [c])) :
    Entries.firstWrites (system.helperEntries (cs ++ [c])) =
      Entries.firstWrites (system.helperEntries cs) ++
        if ∃ d ∈ cs, d.identifier = c.identifier then [] else system.helperEntries [c] := by
  have hcs : Entries.keys (system.helperEntries cs) = helperNames cs :=
    keys_helperEntries fun d hd => h d (List.mem_append_left _ hd)
  have hc : Entries.keys (system.helperEntries [c]) = helperNames [c] :=
    keys_helperEntries fun d hd => h d (List.mem_append_right _ hd)
  have hnodup : (Entries.keys (system.helperEntries [c])).Nodup := hc ▸ nodup_helperNames c
  have hname : ∀ e ∈ system.helperEntries [c],
      e.1 ∈ helperNames cs ↔ ∃ d ∈ cs, d.identifier = c.identifier := fun e he =>
    mem_helperNames_iff (hc ▸ List.mem_map_of_mem he)
  rw [helperEntries_append, Entries.firstWrites_append, Entries.firstWrites_of_nodup hnodup, hcs]
  split
  next hused =>
    rw [List.filter_eq_nil_iff.mpr]
    intro e he
    simpa using (hname e he).mpr hused
  next hused =>
    rw [List.filter_eq_self.mpr]
    intro e he
    exact decide_eq_true fun hn => hused ((hname e he).mp hn)

/-- The helpers come in pairs, one pair for every identifier. -/
theorem exists_identifiers (system : ToggleSystem) {cs : List Condition} (h : AllCompound cs) :
    ∃ ids : List String, ids.Nodup ∧ (∀ id, id ∈ ids ↔ ∃ c ∈ cs, c.identifier = id) ∧
      Entries.keys (Entries.firstWrites (system.helperEntries cs)) =
        ids.flatMap fun id => [(Toggle.ofId id).whenFalse, (Toggle.ofId id).whenTrue] := by
  induction cs using List.reverseRecOn with
  | nil => exact ⟨[], List.nodup_nil, by simp, rfl⟩
  | append_singleton cs c ih =>
    obtain ⟨ids, hnodup, hmem, hkeys⟩ := ih fun d hd => h d (List.mem_append_left _ hd)
    rw [firstWrites_helperEntries_concat h, Entries.keys_append, hkeys]
    by_cases hused : ∃ d ∈ cs, d.identifier = c.identifier
    · refine ⟨ids, hnodup, ?_, by rw [if_pos hused]; simp⟩
      intro id
      rw [hmem]
      constructor
      · rintro ⟨d, hd, rfl⟩
        exact ⟨d, List.mem_append_left _ hd, rfl⟩
      · rintro ⟨d, hd, rfl⟩
        rcases List.mem_append.mp hd with hd | hd
        · exact ⟨d, hd, rfl⟩
        · exact List.mem_singleton.mp hd ▸ hused
    · refine ⟨ids ++ [c.identifier], ?_, ?_, ?_⟩
      · rw [List.nodup_append]
        refine ⟨hnodup, List.nodup_singleton _, ?_⟩
        rintro id hid _ hc rfl
        obtain ⟨d, hd, heq⟩ := (hmem id).mp hid
        exact hused ⟨d, hd, heq.trans (List.mem_singleton.mp hc)⟩
      · intro id
        rw [List.mem_append, hmem, List.mem_singleton]
        simp [or_and_right, exists_or, eq_comm]
      · rw [if_neg hused, List.flatMap_append,
          keys_helperEntries fun d hd => h d (List.mem_append_right _ hd)]
        rfl

/-! ## The writes of a run -/

/-- All that is written for chains, with repetitions. -/
def writes (system : ToggleSystem) (chains : List (String × Chain)) : List (String × Setting) :=
  chains.flatMap fun e =>
    system.helperEntries e.2.compounds ++ [(e.1, system.chainSetting e.1 e.2)]

theorem writes_cons (e : String × Chain) (chains : List (String × Chain)) :
    system.writes (e :: chains) = system.helperEntries e.2.compounds ++
      (e.1, system.chainSetting e.1 e.2) :: system.writes chains := by
  simp [writes]

theorem writes_append (es fs : List (String × Chain)) :
    system.writes (es ++ fs) = system.writes es ++ system.writes fs := List.flatMap_append

/-- What is written is a property of the chains or a helper of their conditions. -/
theorem mem_keys_writes {name : String} : name ∈ Entries.keys (system.writes chains) ↔
    name ∈ helperNames (compoundsOfChains chains) ∨ name ∈ Entries.keys chains := by
  induction chains with
  | nil => simp [writes, helperNames, compoundsOfChains]
  | cons e chains ih =>
    have hnames : helperNames (compoundsOfChains (e :: chains)) =
        helperNames e.2.compounds ++ helperNames (compoundsOfChains chains) :=
      List.flatMap_append
    rw [writes_cons, Entries.keys_append, keys_helperEntries (allCompound_compounds e.2),
      Entries.keys_cons, Entries.keys_cons, hnames, List.mem_append, List.mem_append,
      List.mem_cons, List.mem_cons, ih]
    tauto

theorem mem_keys_writes_append {cs : List Condition} (h : AllCompound cs) {name : String} :
    name ∈ Entries.keys (system.writes chains ++ system.helperEntries cs) ↔
      name ∈ helperNames (compoundsOfChains chains ++ cs) ∨ name ∈ Entries.keys chains := by
  have hnames : helperNames (compoundsOfChains chains ++ cs) =
      helperNames (compoundsOfChains chains) ++ helperNames cs := List.flatMap_append
  rw [Entries.keys_append, List.mem_append, mem_keys_writes, keys_helperEntries h, hnames,
    List.mem_append]
  tauto

theorem isHelperName_of_mem_helperEntries {cs : List Condition} (h : AllCompound cs)
    {name : String} (hn : name ∈ Entries.keys (system.helperEntries cs)) : IsHelperName name :=
  isHelperName_of_mem (keys_helperEntries h ▸ hn)

theorem foldl_addHelper (cs : List Condition) (style : Style) :
    (cs.flatMap system.pair).foldl system.addHelper style =
      (system.helperEntries cs).foldl (fun acc e => acc.insertNew e.1 e.2) style := by
  rw [helperEntries, List.foldl_map]
  rfl

/-- A run writes every property and every helper only if its name is new. -/
theorem addProperties_eq_foldl {style style' : Style}
    (h : system.addProperties chains style = .ok style')
    (hnodup : (Entries.keys chains).Nodup)
    (hnames : ∀ property ∈ Entries.keys chains, ¬ IsHelperName property)
    (hnew : ∀ property ∈ Entries.keys chains, property ∉ style.keys) :
    style' = (system.writes chains).foldl (fun acc e => acc.insertNew e.1 e.2) style := by
  induction chains generalizing style with
  | nil =>
    cases h
    rfl
  | cons e chains ih =>
    obtain ⟨property, chain⟩ := e
    rw [Entries.keys_cons, List.nodup_cons] at hnodup
    rw [addProperties] at h
    obtain ⟨middle, hm, h⟩ := Outcome.bind_eq_ok.mp h
    obtain ⟨-, rfl⟩ := addProperty_eq_ok hm
    -- no helper has been written under the name of a property
    have hkey : ∀ q ∈ Entries.keys ((property, chain) :: chains),
        q ∉ ((system.helperEntries chain.compounds).foldl
          (fun acc e => acc.insertNew e.1 e.2) style).keys := by
      intro q hq hmem
      rcases OrderedMap.mem_keys_foldl_insertNew.mp hmem with hmem | hmem
      · exact hnew q hq hmem
      · exact hnames q hq (isHelperName_of_mem_helperEntries (allCompound_compounds chain) hmem)
    rw [foldl_addHelper] at h
    rw [ih h hnodup.2 fun q hq => hnames q (List.mem_cons_of_mem _ hq)]
    · rw [writes, writes, List.flatMap_cons, List.foldl_append, List.foldl_append, List.foldl_cons,
        List.foldl_nil, OrderedMap.insertNew, if_neg]
      rw [OrderedMap.contains_iff]
      exact hkey property List.mem_cons_self
    · intro q hq hmem
      rw [OrderedMap.keys_insert, if_neg (hkey property List.mem_cons_self), List.mem_append,
        List.mem_singleton] at hmem
      rcases hmem with hmem | rfl
      · exact hkey q (List.mem_cons_of_mem _ hq) hmem
      · exact hnodup.1 hq

/-- Among the writes, those under the names of helpers are the helpers. -/
theorem filter_writes (system : ToggleSystem)
    (hnames : ∀ property ∈ Entries.keys chains, ¬ IsHelperName property) :
    (system.writes chains).filter (fun e => IsHelperName e.1) =
        system.helperEntries (compoundsOfChains chains) ∧
      (system.writes chains).filter (fun e => ¬ IsHelperName e.1) =
        chains.map fun e => (e.1, system.chainSetting e.1 e.2) := by
  induction chains with
  | nil => exact ⟨rfl, rfl⟩
  | cons e chains ih =>
    obtain ⟨hhelpers, hproperties⟩ := ih fun q hq => hnames q (List.mem_cons_of_mem _ hq)
    have he : ¬ IsHelperName e.1 := hnames e.1 List.mem_cons_self
    have hname : ∀ d ∈ system.helperEntries e.2.compounds, IsHelperName d.1 := fun d hd =>
      isHelperName_of_mem_helperEntries (allCompound_compounds e.2) (List.mem_map_of_mem hd)
    have hcompounds : compoundsOfChains (e :: chains) =
        e.2.compounds ++ compoundsOfChains chains := rfl
    rw [writes_cons, hcompounds, helperEntries_append, List.filter_append, List.filter_append]
    constructor
    · rw [List.filter_eq_self.mpr fun d hd => decide_eq_true (hname d hd),
        List.filter_cons_of_neg (by simpa using he), hhelpers]
    · rw [List.filter_eq_nil_iff.mpr fun d hd => by simpa using hname d hd,
        List.filter_cons_of_pos (by simpa using he), hproperties]
      rfl

/-! ## The compiled style -/

/-- Where the keys of a compiled style stand, and what its texts refer to. -/
structure Arranged (system : ToggleSystem) (chains : OrderedMap Chain) (style : Style) : Prop where
  /-- The properties stand in their order. -/
  properties : style.keys.filter (fun name => ¬ IsHelperName name) = chains.keys
  /-- The other keys are the helpers, one pair for each identifier. -/
  helpers : ∃ ids : List String, ids.Nodup ∧
    (∀ id, id ∈ ids ↔ ∃ c ∈ compoundsOfChains chains.entries, c.identifier = id) ∧
      style.keys.filter (fun name => IsHelperName name) =
        ids.flatMap fun id => [(Toggle.ofId id).whenFalse, (Toggle.ofId id).whenTrue]
  /-- A pair stands between the properties that come before the first use of its identifier
  and the property of this use. -/
  placed : ∀ before property chain after, chains.entries = before ++ (property, chain) :: after →
    ∀ c ∈ chain.compounds, (∀ d ∈ compoundsOfChains before, d.identifier ≠ c.identifier) →
      ∃ front middle back, style.keys = front ++ (Toggle.ofId c.identifier).whenFalse ::
          (Toggle.ofId c.identifier).whenTrue :: (middle ++ property :: back) ∧
        ∀ q ∈ Entries.keys before, q ∈ front
  /-- The text of a helper refers to toggles of hooks and to helpers that stand before it. -/
  helpers_known : ∀ front name setting back, style.entries = front ++ (name, setting) :: back →
    IsHelperName name → ∃ text, setting = some (.text text) ∧
      ∀ asked ∈ references text.toList,
        system.Known ((Entries.keys front).filter fun k => IsHelperName k) asked
  /-- The generated links of a property ask for toggles of hooks and for helpers that stand
  before it; whatever else its text refers to stands in the text of one of its settings. -/
  links_known : ∀ front property setting back,
    style.entries = front ++ (property, setting) :: back → ¬ IsHelperName property →
      ∃ chain, chains.get? property = some chain ∧
        setting = system.chainSetting property chain ∧
        (∀ asked ∈ (system.chainExpression property chain).links,
          system.Known ((Entries.keys front).filter fun k => IsHelperName k) asked) ∧
        ∀ asked ∈ references
            ((system.chainExpression property chain).render system.layout).toList,
          asked ∈ (system.chainExpression property chain).links ∨
            ∃ s ∈ chain.settings, asked ∈ references (system.renderSetting property s).toList

variable {chains : OrderedMap Chain} {style : Style}

/-- A compiled style is what its chains write, first writes only. -/
theorem entries_compile (h : system.compile chains = .ok style)
    (hnames : ∀ property ∈ chains.keys, ¬ IsHelperName property) :
    style.entries = Entries.firstWrites (system.writes chains.entries) := by
  rw [addProperties_eq_foldl h chains.keys_nodup hnames fun _ _ => List.not_mem_nil,
    OrderedMap.entries_foldl_insertNew]
  exact List.filter_eq_self.mpr fun _ _ => rfl

/-- Among the conditions with one identifier, one is used first. -/
theorem exists_first_use {cs : List Condition} {c : Condition} (hc : c ∈ cs) :
    ∃ before d after, cs = before ++ d :: after ∧ d.identifier = c.identifier ∧
      ∀ e ∈ before, e.identifier ≠ c.identifier := by
  obtain ⟨ids, ids', hids, hnot⟩ := List.eq_append_cons_of_mem (List.mem_map_of_mem hc)
  obtain ⟨before, rest, hcs, rfl, hrest⟩ := List.map_eq_append_iff.mp hids
  obtain ⟨d, after, rfl, hid, -⟩ := List.map_eq_cons_iff.mp hrest
  exact ⟨before, d, after, hcs, hid, fun e he heq => hnot (heq ▸ List.mem_map_of_mem he)⟩

/-- The first use of an identifier in a chain writes its pair between what has been written
before and the property. -/
theorem exists_placed (hnames : ∀ property ∈ chains.keys, ¬ IsHelperName property)
    {before after : List (String × Chain)} {property : String} {chain : Chain}
    (hsplit : chains.entries = before ++ (property, chain) :: after) {c : Condition}
    (hc : c ∈ chain.compounds)
    (hfresh : ∀ d ∈ compoundsOfChains before, d.identifier ≠ c.identifier) :
    ∃ front middle back, Entries.keys (Entries.firstWrites (system.writes chains.entries)) =
        front ++ (Toggle.ofId c.identifier).whenFalse :: (Toggle.ofId c.identifier).whenTrue ::
          (middle ++ property :: back) ∧
      ∀ q ∈ Entries.keys before, q ∈ front := by
  obtain ⟨cs, d, ds, hcompounds, hid, hcs⟩ := exists_first_use hc
  have hall : AllCompound (cs ++ ([d] ++ ds)) := hcompounds ▸ allCompound_compounds chain
  have hpair : Entries.keys (system.helperEntries [d]) = helperNames [d] :=
    keys_helperEntries fun e he => hall e (by simp_all)
  have hwrites : system.writes chains.entries =
      (system.writes before ++ system.helperEntries cs) ++ (system.helperEntries [d] ++
        (system.helperEntries ds ++
          (property, system.chainSetting property chain) :: system.writes after)) := by
    rw [hsplit, writes_append, writes_cons, hcompounds, ← List.singleton_append (l := ds),
      helperEntries_append, helperEntries_append]
    simp
  have hkeys : chains.keys = Entries.keys before ++ property :: Entries.keys after := by
    rw [OrderedMap.keys, hsplit, Entries.keys_append, Entries.keys_cons]
  -- what has been written before the pair
  have hfront : ∀ {name}, name ∈ Entries.keys (system.writes before ++ system.helperEntries cs) ↔
      name ∈ helperNames (compoundsOfChains before ++ cs) ∨ name ∈ Entries.keys before :=
    mem_keys_writes_append fun e he => hall e (List.mem_append_left _ he)
  have hnew : ∀ name ∈ Entries.keys (system.helperEntries [d]),
      name ∉ Entries.keys (system.writes before ++ system.helperEntries cs) := by
    intro name hn hbefore
    rw [hpair] at hn
    rcases hfront.mp hbefore with hmem | hmem
    · obtain ⟨e, he, heq⟩ := (mem_helperNames_iff hn).mp hmem
      rcases List.mem_append.mp he with he | he
      · exact hfresh e he (heq.trans hid)
      · exact hcs e he (heq.trans hid)
    · exact hnames name (by simp [hkeys, hmem]) (isHelperName_of_mem hn)
  obtain ⟨rest, hfirst, hrest⟩ := Entries.exists_firstWrites_append
    (hpair ▸ nodup_helperNames d) hnew (system.helperEntries ds ++
      (property, system.chainSetting property chain) :: system.writes after)
  have hproperty : property ∈ Entries.keys rest := by
    have hmem : property ∈ chains.keys := by simp [hkeys]
    refine hrest property (by simp) (fun hn => ?_)
      fun hn => hnames property hmem (isHelperName_of_mem (hpair ▸ hn))
    rcases hfront.mp hn with hn | hn
    · exact hnames property hmem (isHelperName_of_mem hn)
    · have hnodup : (Entries.keys before ++ property :: Entries.keys after).Nodup :=
        hkeys ▸ chains.keys_nodup
      exact List.disjoint_of_nodup_append hnodup hn List.mem_cons_self
  obtain ⟨middle, back, hmiddle⟩ := List.append_of_mem hproperty
  refine ⟨Entries.keys (Entries.firstWrites (system.writes before ++ system.helperEntries cs)),
    middle, back, ?_, ?_⟩
  · rw [hwrites, hfirst, Entries.keys_append, Entries.keys_append, hpair, hmiddle]
    simp [helperNames, hid]
  · exact fun q hq => Entries.mem_keys_firstWrites.mpr (hfront.mpr (Or.inr hq))

/-- Every write is a property behind all of its helpers, or a helper behind those of the
conditions before its own. -/
theorem exists_of_writes_eq_append {chains : List (String × Chain)}
    {before after : List (String × Setting)} {write : String × Setting}
    (h : system.writes chains = before ++ write :: after) :
    ∃ e ∈ chains,
      (write = (e.1, system.chainSetting e.1 e.2) ∧
        ∀ name ∈ helperNames e.2.compounds, name ∈ Entries.keys before) ∨
      ∃ cs c ds helper, e.2.compounds = cs ++ c :: ds ∧ helper ∈ system.pair c ∧
        write = system.helperEntry helper ∧
          ∀ name ∈ helperNames cs, name ∈ Entries.keys before := by
  obtain ⟨es, e, fs, inner, outer, rfl, hblock, rfl⟩ := exists_of_flatMap_eq_append h
  refine ⟨e, by simp, ?_⟩
  rcases eq_or_exists_of_concat_eq hblock with ⟨rfl, rfl⟩ | ⟨rest, hrest⟩
  · refine Or.inl ⟨rfl, fun name hn => ?_⟩
    rw [Entries.keys_append, keys_helperEntries (allCompound_compounds e.2)]
    exact List.mem_append_right _ hn
  · obtain ⟨helpers, rest', hflat, rfl, hrest'⟩ := List.map_eq_append_iff.mp hrest
    obtain ⟨helper, helpers', rfl, rfl, -⟩ := List.map_eq_cons_iff.mp hrest'
    obtain ⟨cs, c, ds, inner, outer, hcompounds, hpair, rfl⟩ := exists_of_flatMap_eq_append hflat
    refine Or.inr ⟨cs, c, ds, helper, hcompounds, by simp [hpair], rfl, fun name hn => ?_⟩
    have hcs : Entries.keys (system.helperEntries cs) = helperNames cs :=
      keys_helperEntries fun d hd => allCompound_compounds e.2 d (by simp [hcompounds, hd])
    rw [Entries.keys_append, List.map_append, Entries.keys_append]
    exact List.mem_append_right _ (List.mem_append_left _ (hcs.symm ▸ hn))

theorem resolves_of_mem_chain (h : system.compile chains = .ok style) {e : String × Chain}
    (he : e ∈ chains.entries) {c : Condition} (hc : c ∈ e.2.compounds) : system.Resolves c := by
  obtain ⟨l, hl, hc⟩ := List.mem_flatMap.mp hc
  exact resolves_of_mem_compounds (compile_succeeds_iff.mp ⟨style, h⟩ e he l hl) hc

/-- Helpers that have been written stand in front, under names of helpers. -/
theorem mem_front {cs : List Condition} {before : List (String × Setting)} {name : String}
    (hmem : name ∈ Entries.keys before) (hn : name ∈ helperNames cs) :
    name ∈ (Entries.keys (Entries.firstWrites before)).filter fun k => IsHelperName k :=
  List.mem_filter.mpr
    ⟨Entries.mem_keys_firstWrites.mpr hmem, decide_eq_true (isHelperName_of_mem hn)⟩

/-- Chains whose properties have no helper's name compile to a style that is arranged. -/
theorem arranged_compile (h : system.compile chains = .ok style)
    (hnames : ∀ property ∈ chains.keys, ¬ IsHelperName property) :
    system.Arranged chains style := by
  have hentries := entries_compile h hnames
  have hkeys : style.keys = Entries.keys (Entries.firstWrites (system.writes chains.entries)) :=
    congrArg Entries.keys hentries
  obtain ⟨hhelpers, hproperties⟩ := filter_writes system hnames
  refine ⟨?_, ?_, ?_, ?_, ?_⟩
  · have hproperty : Entries.keys (chains.entries.map fun e =>
        (e.1, system.chainSetting e.1 e.2)) = chains.keys := by
      simp [Entries.keys, OrderedMap.keys, Function.comp_def]
    have hnodup : (Entries.keys (chains.entries.map fun e =>
        (e.1, system.chainSetting e.1 e.2))).Nodup := by
      rw [hproperty]
      exact chains.keys_nodup
    rw [hkeys, ← Entries.keys_filter, Entries.filter_firstWrites fun k => ¬ IsHelperName k,
      hproperties, Entries.firstWrites_of_nodup hnodup, hproperty]
  · obtain ⟨ids, hnodup, hmem, hids⟩ :=
      exists_identifiers system (allCompound_compoundsOfChains chains.entries)
    refine ⟨ids, hnodup, hmem, ?_⟩
    rw [hkeys, ← Entries.keys_filter, Entries.filter_firstWrites fun k => IsHelperName k,
      hhelpers, hids]
  · intro before property chain after hsplit c hc hfresh
    rw [hkeys]
    exact exists_placed hnames hsplit hc hfresh
  · intro front name setting back hsplit hname
    obtain ⟨before, after, hwrites, rfl⟩ :=
      Entries.exists_of_firstWrites_eq_append (hentries ▸ hsplit)
    obtain ⟨e, he, ⟨hw, -⟩ | ⟨cs, c, ds, helper, hcompounds, hm, hw, hbefore⟩⟩ :=
      exists_of_writes_eq_append hwrites
    · obtain ⟨rfl, -⟩ := Prod.mk.inj hw
      exact absurd hname (hnames e.1 (List.mem_map_of_mem he))
    · obtain ⟨rfl, rfl⟩ := Prod.mk.inj hw
      refine ⟨_, rfl, fun asked hasked => ?_⟩
      have hknown := known_of_mem_pair (hcompounds ▸ e.2.layered_compounds)
        (resolves_of_mem_chain h he (by simp [hcompounds])) hm hasked
      exact hknown.mono fun n hn => mem_front (hbefore n hn) hn
  · intro front property setting back hsplit hname
    obtain ⟨before, after, hwrites, rfl⟩ :=
      Entries.exists_of_firstWrites_eq_append (hentries ▸ hsplit)
    obtain ⟨e, he, ⟨hw, hbefore⟩ | ⟨cs, c, ds, helper, hcompounds, hm, hw, -⟩⟩ :=
      exists_of_writes_eq_append hwrites
    · obtain ⟨rfl, rfl⟩ := Prod.mk.inj hw
      have hres := compile_succeeds_iff.mp ⟨style, h⟩ e he
      refine ⟨e.2, OrderedMap.get?_of_mem he, rfl, fun asked hasked => ?_,
        fun asked => (mem_references_chainExpression hres).mp⟩
      exact (known_of_mem_links hres hasked).mono fun n hn => mem_front (hbefore n hn) hn
    · obtain ⟨rfl, -⟩ := Prod.mk.inj hw
      have hmem : helper.name ∈ helperNames [c] := mem_helperNames (by simpa using hm)
      exact absurd (isHelperName_of_mem hmem) hname

/-- The conjunction inside `hoverFocusChain` alone. -/
def bothChain : Chain := ⟨none, [(.all [.hook ":hover", .hook ":focus"], some (.text "4px"))]⟩

/-- Two properties that share the helpers of a conjunction. -/
def sharingChains : OrderedMap Chain :=
  .ofList [("color", hoverFocusChain), ("margin", bothChain)]

theorem arranged_sharingChains : ∃ style, hoverFocus.compile sharingChains = .ok style ∧
    hoverFocus.Arranged sharingChains style ∧
      style.keys.filter (fun name => ¬ IsHelperName name) = ["color", "margin"] := by
  obtain ⟨style, h⟩ : ∃ style, hoverFocus.compile sharingChains = .ok style := ⟨_, rfl⟩
  have hnames : ∀ property ∈ sharingChains.keys, ¬ IsHelperName property := by decide +kernel
  have harranged := arranged_compile h hnames
  exact ⟨style, h, harranged, harranged.properties⟩

end ToggleSystem

end HookStyle
