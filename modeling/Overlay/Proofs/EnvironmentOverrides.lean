import Mathlib.Data.List.Induction
import Mathlib.Data.List.Pairwise
import Mathlib.Data.List.Perm.Basic
import Overlay.Config
import Overlay.Proofs.Utf8

/-!
# Overrides from the environment

A variable of the environment gives a value to the setting whose key its name spells, and to no
other one. Variables for different keys therefore commute: while no two variables spell one key, the
configuration depends on what the environment holds and not on its order. Only the switch for
failed look-ups has a second variable, which counts if no variable spells its key. All that is said
of environments of texts. A variable that is no text leaves no configuration, also if it is for no
setting.
-/

namespace Overlay

namespace Environment

variable {env : Environment} {vars : List (String × String)}

/-- All variables as texts, if they are. -/
def texts? (env : Environment) : Option (List (String × String)) := env.mapM textsOf?

theorem textsOf?_eq_some_iff {v : ByteArray × ByteArray} {w : String × String} :
    textsOf? v = some w ↔ v = (w.1.toUTF8, w.2.toUTF8) := by
  obtain ⟨name, value⟩ := v
  obtain ⟨s, s'⟩ := w
  rw [Prod.mk.injEq, ← Text.Utf8.decode?_eq_some_iff, ← Text.Utf8.decode?_eq_some_iff, textsOf?]
  cases Text.Utf8.decode? name <;> cases Text.Utf8.decode? value <;> simp

/-- The environments of texts are those that can be gone over as texts. -/
theorem texts?_eq_some_iff : env.texts? = some vars ↔ env = ofTexts vars := by
  rw [texts?, mapM_eq_some_iff, ofTexts]
  induction env generalizing vars with
  | nil => cases vars <;> simp
  | cons v env ih => cases vars <;> simp [textsOf?_eq_some_iff, ih]

theorem texts?_eq_none_iff : env.texts? = none ↔ ∃ v ∈ env, textsOf? v = none := by
  rw [texts?]
  induction env with
  | nil => simp
  | cons v env ih =>
    simp only [List.mapM_cons, List.mem_cons, exists_eq_or_imp, ← ih]
    cases textsOf? v <;> cases env.mapM textsOf? <;> simp

/-- An environment of texts has the variables whose names are among these. -/
theorem isSome_get?_ofTexts (vars : List (String × String)) (name : String) :
    ((ofTexts vars).get? name).isSome = vars.any (·.1 == name) := by
  have hname (s : String) : s.toUTF8 = name.toUTF8 ↔ s = name := by
    rw [← Text.Utf8.decode?_eq_some_iff, Text.Utf8.decode?_toUTF8, Option.some.injEq]
  rw [get?, ofTexts, Option.isSome_map, Bool.eq_iff_iff, List.find?_isSome, List.any_eq_true]
  simp only [List.mem_map, exists_exists_and_eq_and, decide_eq_true_eq, hname, beq_iff_eq]

/-- The key that a variable gives a value to, its name being a text. -/
def keyOf? (v : ByteArray × ByteArray) : Option String :=
  (Text.Utf8.decode? v.1).bind Config.variableKey?

/-- No two variables of an environment spell the same key. -/
def SpellsOnce (env : Environment) : Prop := (env.filterMap keyOf?).Nodup

theorem spellsOnce_ofTexts_iff : (ofTexts vars).SpellsOnce ↔
    (vars.filterMap fun v => Config.variableKey? v.1).Nodup := by
  have hkey (v : String × String) :
      keyOf? (v.1.toUTF8, v.2.toUTF8) = Config.variableKey? v.1 := by
    rw [keyOf?, Text.Utf8.decode?_toUTF8, Option.bind_some]
  rw [SpellsOnce, ofTexts, List.filterMap_map]
  simp only [Function.comp_def, hkey]

/-- The order of an environment does not matter to whether its variables are texts. -/
theorem exists_texts?_of_perm {env' : Environment} (henv : env.texts? = some vars)
    (h : env'.Perm env) : ∃ vars', env'.texts? = some vars' ∧ vars'.Perm vars := by
  cases henv' : env'.texts? with
  | none =>
    obtain ⟨v, hv, hnone⟩ := texts?_eq_none_iff.1 henv'
    rw [texts?_eq_none_iff.2 ⟨v, h.mem_iff.1 hv, hnone⟩] at henv
    cases henv
  | some vars' =>
    have hmapped := h.map textsOf?
    rw [mapM_eq_some_iff.1 henv, mapM_eq_some_iff.1 henv',
      List.map_perm_map_iff fun _ _ => Option.some.inj] at hmapped
    exact ⟨vars', rfl, hmapped⟩

end Environment

namespace Config

/-- The value of a setting. -/
inductive Value where
  /-- A list of texts. -/
  | texts (items : List String)
  /-- A text. -/
  | text (s : String)
  /-- On or off. -/
  | switch (on : Bool)
  deriving DecidableEq, Repr

/-- The value that a setting has. -/
def value (c : Config) : Field → Value
  | .bootstrapPrefixes => .texts c.bootstrapPrefixes
  | .supportPrefixes => .texts c.supportPrefixes
  | .selfName => .text c.selfName
  | .resourceSuffix => .text c.resourceSuffix
  | .descriptorPath => .text c.descriptorPath
  | .signerSuffix => .text c.signerSuffix
  | .reservedResources => .texts c.reservedResources
  | .transformExclusions => .texts c.transformExclusions
  | .debugLookups => .switch c.debugLookups

/-- The value that a text stands for. -/
def Field.read : Field → String → Value
  | .bootstrapPrefixes, s | .supportPrefixes, s | .reservedResources, s
  | .transformExclusions, s => .texts (items s)
  | .selfName, s | .resourceSuffix, s | .descriptorPath, s | .signerSuffix, s => .text s
  | .debugLookups, s => .switch (isOn s)

variable {c c' : Config} {f g : Field} {env env' : Environment}
  {vars vars' : List (String × String)} {v w : String × String}

/-- Configurations with the same settings are the same. -/
theorem eq_of_value (h : ∀ f, c.value f = c'.value f) : c = c' := by
  have h₁ := Value.texts.inj (h .bootstrapPrefixes)
  have h₂ := Value.texts.inj (h .supportPrefixes)
  have h₃ := Value.text.inj (h .selfName)
  have h₄ := Value.text.inj (h .resourceSuffix)
  have h₅ := Value.text.inj (h .descriptorPath)
  have h₆ := Value.text.inj (h .signerSuffix)
  have h₇ := Value.texts.inj (h .reservedResources)
  have h₈ := Value.texts.inj (h .transformExclusions)
  have h₉ := Value.switch.inj (h .debugLookups)
  cases c
  cases c'
  simp_all

theorem value_setField_self (c : Config) (f : Field) (s : String) :
    (c.setField f s).value f = f.read s := by
  cases f <;> rfl

/-- A text given to one setting leaves the others alone. -/
theorem value_setField_of_ne (c : Config) (h : f ≠ g) (s : String) :
    (c.setField g s).value f = c.value f := by
  cases g <;> cases f <;> first | rfl | exact absurd rfl h

/-- The setting with a key is the one that has it. -/
theorem Field.ofKey?_eq_some_iff {s : String} : ofKey? s = some f ↔ f.key = s := by
  constructor
  · intro h
    unfold ofKey? at h
    simpa using List.find?_some h
  · rintro rfl
    exact ofKey?_key f

/-- A text given to another key leaves a setting alone. -/
theorem value_set_of_ne (c : Config) {key : String} (h : f.key ≠ key) (s : String) :
    (c.set key s).value f = c.value f := by
  unfold set
  cases hg : Field.ofKey? key with
  | none => rfl
  | some g =>
    have hne : f ≠ g := by
      rintro rfl
      exact h (Field.ofKey?_eq_some_iff.1 hg)
    exact value_setField_of_ne c hne s

/-- The variables that give a value to a setting. -/
def Field.IsGivenBy (f : Field) (v : String × String) : Prop := variableKey? v.1 = some f.key

instance : Decidable (f.IsGivenBy v) := inferInstanceAs (Decidable (_ = _))

theorem value_withVariable_of_given (c : Config) (h : f.IsGivenBy v) :
    (c.withVariable v).value f = f.read v.2 := by
  rw [withVariable, h]
  dsimp only
  rw [set, Field.ofKey?_key]
  exact value_setField_self c f v.2

theorem value_withVariable_of_not_given (c : Config) (h : ¬f.IsGivenBy v) :
    (c.withVariable v).value f = c.value f := by
  unfold withVariable
  cases hkey : variableKey? v.1 with
  | none => rfl
  | some key =>
    refine value_set_of_ne c ?_ v.2
    rintro rfl
    exact h hkey

/-- A setting that no variable gives a value to stays as it is. -/
theorem value_foldl_of_not_given (c : Config) (h : ∀ v ∈ vars, ¬f.IsGivenBy v) :
    (vars.foldl withVariable c).value f = c.value f := by
  induction vars generalizing c with
  | nil => rfl
  | cons v vars ih =>
    rw [List.foldl_cons, ih _ fun w hw => h w (List.mem_cons_of_mem v hw)]
    exact value_withVariable_of_not_given c (h v List.mem_cons_self)

/-- A setting has the value that the variables for it give to it, if they agree. -/
theorem value_foldl_of_given (c : Config) (hv : v ∈ vars) (hgiven : f.IsGivenBy v)
    (hagree : ∀ w ∈ vars, f.IsGivenBy w → w.2 = v.2) :
    (vars.foldl withVariable c).value f = f.read v.2 := by
  induction vars using List.reverseRecOn with
  | nil => cases hv
  | append_singleton vars w ih =>
    rw [List.foldl_append, List.foldl_cons, List.foldl_nil]
    -- The last variable for the setting counts, and it has the value of all of them.
    by_cases hw : f.IsGivenBy w
    · rw [value_withVariable_of_given _ hw, hagree w (by simp) hw]
    · rw [value_withVariable_of_not_given _ hw]
      refine ih ?_ fun u hu => hagree u (List.mem_append_left _ hu)
      rcases List.mem_append.1 hv with hv | hv
      · exact hv
      · rw [List.mem_singleton.1 hv] at hgiven
        exact absurd hgiven hw

/-- Variables give a text to a setting: one of them, whose name spells the key of the setting, has
it as its value. -/
def Gives (vars : List (String × String)) (f : Field) (s : String) : Prop :=
  ∃ name, (name, s) ∈ vars ∧ f.IsGivenBy (name, s)

theorem not_gives_iff : (¬∃ s, Gives vars f s) ↔ ∀ v ∈ vars, ¬f.IsGivenBy v :=
  ⟨fun h v hv hgiven => h ⟨v.2, v.1, hv, hgiven⟩, fun h ⟨_, _, hv, hgiven⟩ => h _ hv hgiven⟩

/-- The variable that has the key of a setting in capitals gives its value to it. -/
theorem Gives.of_variableName {s : String} (h : (f.variableName, s) ∈ vars) : Gives vars f s :=
  ⟨f.variableName, h, variableKey?_variableName f⟩

/-- Variables that spell every key at most once give one text to a setting. -/
theorem Gives.unique {s s' : String} (hkeys : (Environment.ofTexts vars).SpellsOnce)
    (h : Gives vars f s) (h' : Gives vars f s') : s' = s := by
  obtain ⟨name, hv, hgiven⟩ := h
  obtain ⟨name', hv', hgiven'⟩ := h'
  rw [Environment.spellsOnce_ofTexts_iff, List.Nodup, List.pairwise_filterMap] at hkeys
  have hsymm : Std.Symm fun x y : String × String => ∀ key, variableKey? x.1 = some key →
      ∀ key', variableKey? y.1 = some key' → key ≠ key' :=
    ⟨fun _ _ hxy key hx key' hy => (hxy key' hy key hx).symm⟩
  by_contra hne
  exact hkeys.forall hv' hv (fun he => hne (congrArg Prod.snd he)) f.key hgiven' f.key hgiven rfl

/-- A configuration with its switch for failed look-ups on, if the environment has the variable for
that. -/
def withDebug (c : Config) (env : Environment) : Config :=
  if (env.get? debugVariable).isSome then { c with debugLookups := true } else c

/-- The variables are applied one after the other, if all of them are texts. -/
theorem foldlM_withVariable (c : Config) (env : Environment) :
    env.foldlM (fun c v => (Environment.textsOf? v).map c.withVariable) c =
      env.texts?.map fun vars => vars.foldl withVariable c := by
  induction env generalizing c with
  | nil => rfl
  | cons v env ih =>
    rw [List.foldlM_cons, Environment.texts?, List.mapM_cons]
    cases Environment.textsOf? v with
    | none => rfl
    | some w =>
      refine (ih (c.withVariable w)).trans ?_
      rw [Environment.texts?]
      cases env.mapM Environment.textsOf? <;> rfl

theorem withEnvironment_eq (c : Config) (env : Environment) : c.withEnvironment env =
    env.texts?.map fun vars => vars.foldl withVariable (c.withDebug env) :=
  foldlM_withVariable (c.withDebug env) env

/-- There is no configuration exactly if some variable is no text. -/
theorem withEnvironment_eq_none_iff :
    c.withEnvironment env = none ↔ ∃ v ∈ env, Environment.textsOf? v = none := by
  rw [withEnvironment_eq, Option.map_eq_none_iff, Environment.texts?_eq_none_iff]

theorem debugLookups_withDebug (c : Config) (env : Environment) :
    (c.withDebug env).debugLookups = (c.debugLookups || (env.get? debugVariable).isSome) := by
  unfold withDebug
  cases (env.get? debugVariable).isSome <;> simp

theorem value_withDebug_of_ne (c : Config) (env : Environment) (h : f ≠ .debugLookups) :
    (c.withDebug env).value f = c.value f := by
  unfold withDebug
  split
  · cases f <;> first | rfl | exact absurd rfl h
  · rfl

/-- A configuration has the settings that the variables of an environment give to it. -/
structure Overridden (c : Config) (vars : List (String × String)) (c' : Config) : Prop where
  /-- A setting has the value that its variable gives to it. -/
  given : ∀ f s, Gives vars f s → c'.value f = f.read s
  /-- Otherwise it stays as it is; the switch for failed look-ups is the exception. -/
  kept : ∀ f, f ≠ .debugLookups → (¬∃ s, Gives vars f s) → c'.value f = c.value f
  /-- A variable that spells the key of the switch decides it, also if the second one is there. -/
  switched : ∀ s, Gives vars .debugLookups s → c'.debugLookups = (s == "true" || s == "1")
  /-- Otherwise the second one turns the switch on, and without that it stays as it is. -/
  unswitched : (¬∃ s, Gives vars .debugLookups s) →
    c'.debugLookups = (c.debugLookups || vars.any (·.1 == "STRATA_DEBUG_LOADER"))

/-- Whether a variable can make a difference. -/
def isEffective (name : String) : Bool :=
  name == debugVariable || ((variableKey? name).bind Field.ofKey?).isSome

theorem isEffective_of_given (h : f.IsGivenBy v) : isEffective v.1 = true := by
  rw [isEffective, h, Option.bind_some, Field.ofKey?_key, Option.isSome_some, Bool.or_true]

/-- Variables of which the same are effective. -/
def Alike (vars vars' : List (String × String)) : Prop :=
  (vars.filter (isEffective ·.1)).Perm (vars'.filter (isEffective ·.1))

namespace Alike

theorem mem_iff (h : Alike vars vars') (hv : isEffective v.1 = true) : v ∈ vars ↔ v ∈ vars' := by
  have hfiltered := List.Perm.mem_iff h (a := v)
  rwa [List.mem_filter, List.mem_filter, and_iff_left hv, and_iff_left hv] at hfiltered

theorem gives_iff (h : Alike vars vars') {s : String} : Gives vars f s ↔ Gives vars' f s :=
  exists_congr fun _ => and_congr_left fun hgiven => h.mem_iff (isEffective_of_given hgiven)

theorem any_eq (h : Alike vars vars') :
    vars.any (·.1 == debugVariable) = vars'.any (·.1 == debugVariable) := by
  rw [Bool.eq_iff_iff, List.any_eq_true, List.any_eq_true]
  refine exists_congr fun v => and_congr_left fun hv => h.mem_iff ?_
  rw [isEffective, hv, Bool.true_or]

end Alike

/-- Variables that do not contradict each other override the settings, one after the other. -/
theorem overridden_foldl (c : Config)
    (hunique : ∀ f s s', Gives vars f s → Gives vars f s' → s' = s) :
    Overridden c vars (vars.foldl withVariable (c.withDebug (.ofTexts vars))) := by
  have hgiven : ∀ f s, Gives vars f s →
      (vars.foldl withVariable (c.withDebug (.ofTexts vars))).value f = f.read s := by
    intro f s h
    obtain ⟨name, hv, hgiven⟩ := h
    exact value_foldl_of_given _ hv hgiven fun w hw hw' =>
      hunique f s w.2 ⟨name, hv, hgiven⟩ ⟨w.1, hw, hw'⟩
  have hkept : ∀ f, (¬∃ s, Gives vars f s) →
      (vars.foldl withVariable (c.withDebug (.ofTexts vars))).value f =
        (c.withDebug (.ofTexts vars)).value f := fun f h =>
    value_foldl_of_not_given _ (not_gives_iff.1 h)
  refine ⟨hgiven, ?_, ?_, ?_⟩
  · intro f hf h
    rw [hkept f h, value_withDebug_of_ne c _ hf]
  · intro s h
    exact Value.switch.inj (hgiven .debugLookups s h)
  · intro h
    refine (Value.switch.inj (hkept .debugLookups h)).trans ?_
    rw [debugLookups_withDebug, Environment.isSome_get?_ofTexts]
    rfl

namespace Overridden

/-- The variables decide every setting. -/
theorem unique {c'' : Config} (h : Overridden c vars c') (h' : Overridden c vars c'') :
    c'' = c' := by
  apply eq_of_value
  intro f
  by_cases hgives : ∃ s, Gives vars f s
  · obtain ⟨s, hs⟩ := hgives
    rw [h.given f s hs, h'.given f s hs]
  · by_cases hf : f = .debugLookups
    · subst hf
      exact congrArg Value.switch ((h'.unswitched hgives).trans (h.unswitched hgives).symm)
    · rw [h.kept f hf hgives, h'.kept f hf hgives]

/-- Only the effective variables decide. -/
theorem of_alike (h : Overridden c vars c') (halike : Alike vars vars') :
    Overridden c vars' c' where
  given f s hs := h.given f s (halike.gives_iff.2 hs)
  kept f hf hnone := h.kept f hf fun ⟨s, hs⟩ => hnone ⟨s, halike.gives_iff.1 hs⟩
  switched s hs := h.switched s (halike.gives_iff.2 hs)
  unswitched hnone := by
    rw [h.unswitched fun ⟨s, hs⟩ => hnone ⟨s, halike.gives_iff.1 hs⟩]
    exact congrArg (c.debugLookups || ·) halike.any_eq

end Overridden

/-- An environment of texts overrides each setting that one of its variables spells the key of and no
other one. Neither the order of the variables nor any other variable that is a text makes a
difference. -/
theorem overridden_withEnvironment (c : Config) (henv : env.texts? = some vars)
    (hkeys : env.SpellsOnce) :
    ∃ c', c.withEnvironment env = some c' ∧ Overridden c vars c' ∧
      (∀ env', env'.Perm env → c.withEnvironment env' = some c') ∧
      ∀ env' vars', env'.texts? = some vars' → Alike vars vars' →
        c.withEnvironment env' = some c' := by
  obtain rfl := Environment.texts?_eq_some_iff.1 henv
  have happlied {vars' : List (String × String)} {env' : Environment}
      (henv' : env'.texts? = some vars') :
      c.withEnvironment env' = some (vars'.foldl withVariable (c.withDebug (.ofTexts vars'))) := by
    rw [withEnvironment_eq, henv', Environment.texts?_eq_some_iff.1 henv', Option.map_some]
  have hunique : ∀ f s s', Gives vars f s → Gives vars f s' → s' = s :=
    fun _ _ _ => Gives.unique hkeys
  have hover := overridden_foldl c hunique
  have halike : ∀ env' vars', env'.texts? = some vars' → Alike vars vars' →
      c.withEnvironment env' =
        some (vars.foldl withVariable (c.withDebug (.ofTexts vars))) := by
    intro env' vars' henv' h
    have hunique' : ∀ f s s', Gives vars' f s → Gives vars' f s' → s' = s := fun f s s' hs hs' =>
      hunique f s s' (h.gives_iff.2 hs) (h.gives_iff.2 hs')
    rw [happlied henv', (hover.of_alike h).unique (overridden_foldl c hunique')]
  refine ⟨_, happlied henv, hover, ?_, halike⟩
  intro env' hperm
  obtain ⟨vars', henv', hvars⟩ := Environment.exists_texts?_of_perm henv hperm
  exact halike env' vars' henv' (hvars.symm.filter _)

namespace MixedSpellings

/-- Both variables of the switch, a key in lower case, an unknown key and a foreign variable. -/
def mixed : List (String × String) :=
  [(Field.debugLookups.variableName, "0"), (debugVariable, ""),
    ("STRATA_LOADER_support_prefixes", " a., ,b."), ("STRATA_LOADER_COLOR", "red"), ("HOME", "/")]

/-- The variable of the switch counts, and the environment may be listed backwards. -/
theorem overridden_mixed :
    let env := Environment.ofTexts mixed
    env.texts? = some mixed ∧ env.SpellsOnce ∧
      ∃ c, withEnvironment {} env = some c ∧ withEnvironment {} env.reverse = some c ∧
        c.debugLookups = false ∧ c.supportPrefixes = ["a.", "b."] ∧
        c.selfName = "strata.loader.LayeredLoader" := by
  intro env
  have htexts : env.texts? = some mixed := Environment.texts?_eq_some_iff.2 rfl
  have hkeys : env.SpellsOnce := by
    rw [Environment.spellsOnce_ofTexts_iff]
    decide
  obtain ⟨c, happlied, hover, hperm, -⟩ := overridden_withEnvironment {} htexts hkeys
  have hswitch := hover.switched "0" (.of_variableName (by decide))
  have hsupport := hover.given .supportPrefixes " a., ,b."
    ⟨"STRATA_LOADER_support_prefixes", by decide, rfl⟩
  have hname := hover.kept .selfName (by decide) (not_gives_iff.2 (by decide))
  exact ⟨htexts, hkeys, c, happlied, hperm _ env.reverse_perm, hswitch, Value.texts.inj hsupport,
    Value.text.inj hname⟩

end MixedSpellings

/-- Three environments in which no key is spelled twice. A foreign variable and the second variable of
the switch leave no configuration if they are no texts, and a variable that is neither of the two
turns the switch on, because it spells the key in lower case. -/
theorem foreign_undecodable_and_lower_case :
    let foreign : Environment := [("FOO".toUTF8, ⟨#[0xFF]⟩)]
    let second : Environment := [("STRATA_DEBUG_LOADER".toUTF8, ⟨#[0xFF]⟩)]
    let lower := Environment.ofTexts [("STRATA_LOADER_debug_lookups", "true")]
    foreign.SpellsOnce ∧ second.SpellsOnce ∧ lower.SpellsOnce ∧
      withEnvironment {} foreign = none ∧ withEnvironment {} second = none ∧
      lower.get? "STRATA_LOADER_DEBUG_LOOKUPS" = none ∧ lower.get? "STRATA_DEBUG_LOADER" = none ∧
      (withEnvironment {} lower).map (·.debugLookups) = some true ∧
      withEnvironment {} [] = some {} ∧ ({} : Config).debugLookups = false := by
  intro foreign second lower
  refine ⟨?_, ?_, ?_, ?_, ?_, ?_, ?_, ?_, rfl, rfl⟩
  · unfold Environment.SpellsOnce
    decide +kernel
  · unfold Environment.SpellsOnce
    decide +kernel
  · unfold Environment.SpellsOnce
    decide +kernel
  · exact withEnvironment_eq_none_iff.2 ⟨_, List.mem_cons_self, by decide +kernel⟩
  · exact withEnvironment_eq_none_iff.2 ⟨_, List.mem_cons_self, by decide +kernel⟩
  · decide +kernel
  · decide +kernel
  · decide +kernel

end Config

end Overlay
