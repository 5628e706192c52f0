import Overlay.Proofs.EnvironmentOverrides
import Overlay.Proofs.Trimming

/-!
# List values

A setting that is a list is written as its items with commas between them. Around an item there may
be blanks, and between two commas there may be blanks only. Reading gives the items back, whatever
blanks there are. Every text is read as some items, none of which is empty, has a comma or has a
blank at an end, and these may be written instead of the text.
-/

namespace Overlay.Config

/-- Whether a setting is a list of texts. -/
def Field.isList : Field → Bool
  | .bootstrapPrefixes | .supportPrefixes | .reservedResources | .transformExclusions => true
  | .selfName | .resourceSuffix | .descriptorPath | .signerSuffix | .debugLookups => false

theorem Field.read_of_isList {f : Field} (h : f.isList = true) (value : String) :
    f.read value = .texts (items value) := by
  cases f <;> first | rfl | cases h

/-- What can be an item of a list. -/
structure IsItem (s : String) : Prop where
  /-- It is not empty. -/
  nonempty : s ≠ ""
  /-- It has no comma. -/
  commaless : ',' ∉ s.toList
  /-- It has no blanks at its ends. -/
  trimmed : Text.trimmed s = s

/-- A text of blanks. -/
def IsPadding (s : String) : Prop := ∀ c ∈ s.toList, Text.isBlank c = true

instance (s : String) : Decidable (IsPadding s) := List.decidableBAll _ _

/-- What stands between two commas of a written list. -/
inductive Slot where
  /-- An item, and what stands around it. -/
  | item (before s after : String)
  /-- No item. -/
  | gap (s : String)

namespace Slot

/-- The text of a slot. -/
def text : Slot → String
  | item before s after => before ++ s ++ after
  | gap s => s

/-- The item of a slot. -/
def item? : Slot → Option String
  | item _ s _ => some s
  | gap _ => none

/-- Besides its item, a slot has blanks only. -/
def Padded : Slot → Prop
  | item before _ after => IsPadding before ∧ IsPadding after
  | gap s => IsPadding s

instance : (x : Slot) → Decidable x.Padded
  | item before _ after => inferInstanceAs (Decidable (IsPadding before ∧ IsPadding after))
  | gap s => inferInstanceAs (Decidable (IsPadding s))

end Slot

/-- A written list. -/
def written (slots : List Slot) : String := ",".intercalate (slots.map Slot.text)

variable {x : Slot} {slots : List Slot} {s : String} {l : List String}

theorem IsItem.trim_toList (h : IsItem s) : Text.trim s.toList = s.toList := by
  have htrimmed := h.trimmed
  rwa [← String.toList_inj, Text.trimmed, String.toList_ofList] at htrimmed

/-- A text of blanks has no comma. -/
theorem IsPadding.commaless (h : IsPadding s) : ',' ∉ s.toList :=
  fun hmem => absurd (h ',' hmem) (by decide)

/-- No slot has a comma. -/
theorem Slot.Padded.commaless (h : x.Padded) (hitem : ∀ s ∈ x.item?, IsItem s) :
    ',' ∉ x.text.toList := by
  cases x with
  | gap s => exact IsPadding.commaless h
  | item before s after =>
    rw [text, String.toList_append, String.toList_append]
    simp [h.1.commaless, (hitem s rfl).commaless, h.2.commaless]

/-- Trimming a slot leaves its item, or nothing if it has none. -/
theorem Slot.Padded.trim_text (h : x.Padded) (hitem : ∀ s ∈ x.item?, IsItem s) :
    Text.trim x.text.toList = (x.item?.getD "").toList := by
  cases x with
  | gap s => exact Text.trim_of_blank h
  | item before s after =>
    rw [text, String.toList_append, String.toList_append]
    exact Text.trim_padded (hitem s rfl).trim_toList h.1 h.2

/-- The items of texts between commas: trimmed, blank ones left out. -/
def itemsOf (texts : List (List Char)) : List String :=
  ((texts.map Text.trim).filter (· != [])).map String.ofList

theorem items_eq (value : String) :
    items value = itemsOf (Text.pieces (· == ',') value.toList) := rfl

/-- The items of slots are read from their texts. -/
theorem itemsOf_slots (hpadded : ∀ x ∈ slots, x.Padded)
    (hitems : ∀ x ∈ slots, ∀ s ∈ x.item?, IsItem s) :
    itemsOf (slots.map (·.text.toList)) = slots.filterMap Slot.item? := by
  induction slots with
  | nil => rfl
  | cons x slots ih =>
    have htrim := (hpadded x List.mem_cons_self).trim_text (hitems x List.mem_cons_self)
    have hrest := ih (fun y hy => hpadded y (List.mem_cons_of_mem x hy))
      fun y hy => hitems y (List.mem_cons_of_mem x hy)
    rw [itemsOf] at hrest ⊢
    rw [List.map_cons, List.map_cons, htrim, List.filterMap_cons]
    cases hx : x.item? with
    | none => exact hrest
    | some s =>
      have hne : s.toList ≠ [] := fun hnil =>
        (hitems x List.mem_cons_self s hx).nonempty (String.toList_eq_nil_iff.1 hnil)
      rw [Option.getD_some, List.filter_cons_of_pos (by simpa using hne), List.map_cons,
        String.ofList_toList]
      exact congrArg (s :: ·) hrest

/-- A written list is read as its items. -/
theorem items_written (hpadded : ∀ x ∈ slots, x.Padded)
    (hitems : ∀ s ∈ slots.filterMap Slot.item?, IsItem s) :
    items (written slots) = slots.filterMap Slot.item? := by
  have hslots : ∀ x ∈ slots, ∀ s ∈ x.item?, IsItem s := fun x hx s hs =>
    hitems s (List.mem_filterMap.2 ⟨x, hx, hs⟩)
  by_cases hne : slots = []
  · rw [hne]
    decide
  · have hcommas : ∀ q ∈ slots.map (·.text.toList), ',' ∉ q := by
      intro q hq
      obtain ⟨x, hx, rfl⟩ := List.mem_map.1 hq
      exact (hpadded x hx).commaless (hslots x hx)
    have hjoined : (written slots).toList = Text.joined ',' (slots.map (·.text.toList)) := by
      rw [written, String.toList_intercalate, Text.joined_eq_intercalate, List.map_map]
      rfl
    rw [items_eq, hjoined, Text.pieces_joined (by simpa using hne) hcommas]
    exact itemsOf_slots hpadded hslots

/-- A slot with an item and nothing around it. -/
def Slot.bare (s : String) : Slot := item "" s ""

/-- Items joined by commas are read back. -/
theorem items_intercalate (h : ∀ s ∈ l, IsItem s) : items (",".intercalate l) = l := by
  have htexts : (l.map Slot.bare).map Slot.text = l := by
    simp [Function.comp_def, Slot.bare, Slot.text]
  have hbare : (l.map Slot.bare).filterMap Slot.item? = l := by
    simp [Function.comp_def, Slot.bare, Slot.item?]
  have hpadded : ∀ x ∈ l.map Slot.bare, x.Padded := by
    intro x hx
    obtain ⟨s, -, rfl⟩ := List.mem_map.1 hx
    exact ⟨nofun, nofun⟩
  have hread := items_written hpadded (by rwa [hbare])
  rwa [written, htexts, hbare] at hread

/-- Every text is read as items. -/
theorem isItem_of_mem_items {value : String} (h : s ∈ items value) : IsItem s := by
  obtain ⟨q, hq, rfl⟩ := List.mem_map.1 h
  obtain ⟨hmem, hne⟩ := List.mem_filter.1 hq
  obtain ⟨piece, hpiece, rfl⟩ := List.mem_map.1 hmem
  refine ⟨by simpa using hne, ?_, ?_⟩
  · rw [String.toList_ofList]
    intro hcomma
    have := Text.not_of_mem_pieces hpiece (Text.mem_of_mem_trim hcomma)
    simp at this
  · rw [Text.trimmed, String.toList_ofList, Text.trim_trim]

/-- A list survives being written into a setting. -/
structure RoundTrips (c : Config) (f : Field) : Prop where
  /-- Items written with any blanks around them, and with blanks alone between some commas, are what
  the setting has. -/
  stores : ∀ l, (∀ s ∈ l, IsItem s) →
    ∀ slots, (∀ x ∈ slots, x.Padded) → slots.filterMap Slot.item? = l →
      (c.set f.key (written slots)).value f = .texts l
  /-- Whatever is written, the setting has items only, and writing these joined by commas changes
  nothing more. -/
  settles : ∀ value, ∃ l, (c.set f.key value).value f = .texts l ∧ (∀ s ∈ l, IsItem s) ∧
    (c.set f.key value).set f.key (",".intercalate l) = c.set f.key value
  /-- No other setting changes. -/
  alone : ∀ value g, g ≠ f → (c.set f.key value).value g = c.value g

/-- Every setting that is a list reads its items back from every way to write them. -/
theorem roundTrips_of_isList (c : Config) {f : Field} (hf : f.isList = true) :
    RoundTrips c f := by
  have hvalue (c : Config) (value : String) :
      (c.set f.key value).value f = .texts (items value) := by
    rw [set, Field.ofKey?_key]
    exact (value_setField_self c f value).trans (Field.read_of_isList hf value)
  have hother (c : Config) (value : String) (g : Field) (hg : g ≠ f) :
      (c.set f.key value).value g = c.value g := by
    rw [set, Field.ofKey?_key]
    exact value_setField_of_ne c hg value
  refine ⟨fun l hl slots hpadded hslots => ?_, fun value => ?_, hother c⟩
  · subst hslots
    rw [hvalue, items_written hpadded hl]
  · have hitems : ∀ s ∈ items value, IsItem s := fun s => isItem_of_mem_items
    refine ⟨items value, hvalue c value, hitems, eq_of_value fun g => ?_⟩
    by_cases hg : g = f
    · rw [hg, hvalue, hvalue, items_intercalate hitems]
    · rw [hother _ _ g hg]

namespace SpacedList

/-- Two items with blanks around them, and blanks alone between other commas. -/
def spaced : List Slot :=
  [.gap "", .item " " "a." "\u00a0", .gap "\u3000", .item "\t" "b c" "", .gap " \n"]

/-- Both items are read, and nothing else. -/
theorem roundTrips_spaced :
    Field.supportPrefixes.isList = true ∧ RoundTrips {} .supportPrefixes ∧
      written spaced = ", a.\u00a0,\u3000,\tb c, \n" ∧
      (set {} "support-prefixes" ", a.\u00a0,\u3000,\tb c, \n").supportPrefixes =
        ["a.", "b c"] := by
  have hlist : Field.supportPrefixes.isList = true := rfl
  have hitems : ∀ s ∈ ["a.", "b c"], IsItem s :=
    List.forall_mem_cons.2 ⟨⟨by decide, by decide, by decide⟩,
      List.forall_mem_singleton.2 ⟨by decide, by decide, by decide⟩⟩
  have hwritten : written spaced = ", a.\u00a0,\u3000,\tb c, \n" := by decide
  have hpadded : ∀ x ∈ spaced, x.Padded := by decide
  have htrips := roundTrips_of_isList {} hlist
  refine ⟨hlist, htrips, hwritten, ?_⟩
  rw [← hwritten]
  exact Value.texts.inj (htrips.stores _ hitems spaced hpadded rfl)

end SpacedList

end Overlay.Config
