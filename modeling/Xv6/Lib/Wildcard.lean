import Mathlib

/-!
# `Wildcard` — patterns of single-character classes, plain or starred

An item stands for one character of its class, or, if it is starred, for any number of them. A list of items denotes
the product of the languages of its items. `Here items atEnd text` says that some word of that language stands at the
beginning of `text` (and is all of it if `atEnd`); its lemmas take one item off at a time, as a matcher does.
-/

namespace Wildcard

open Computability

variable {α : Type*}

/-- A class of characters, with or without a star. -/
structure Item (α : Type*) where
  cls : α → Bool
  starred : Bool

/-- The words of one character of the class. -/
def single (cls : α → Bool) : Language α := {w | ∃ c, cls c = true ∧ w = [c]}

/-- The words that an item stands for. -/
def Item.lang (i : Item α) : Language α := if i.starred then (single i.cls)∗ else single i.cls

/-- The words that a list of items stands for. -/
def lang (items : List (Item α)) : Language α := (items.map Item.lang).prod

/-- A word of the items stands at the beginning of the text and, if `atEnd`, reaches its end. -/
def Here (items : List (Item α)) (atEnd : Bool) (text : List α) : Prop :=
  ∃ w rest, text = w ++ rest ∧ w ∈ lang items ∧ (atEnd = true → rest = [])

variable {cls : α → Bool} {items : List (Item α)} {atEnd : Bool} {w text : List α} {c : α}

/-! ## Membership -/

theorem mem_kstar_single : w ∈ (single cls)∗ ↔ ∀ c ∈ w, cls c = true := by
  rw [Language.mem_kstar]
  constructor
  · rintro ⟨ws, rfl, hws⟩ c hc
    obtain ⟨u, hu, hcu⟩ := List.mem_flatten.mp hc
    obtain ⟨d, hd, rfl⟩ := hws u hu
    rwa [List.mem_singleton.mp hcu]
  · intro h
    refine ⟨w.map ([·]), ?_, fun u hu => ?_⟩
    · rw [← List.flatMap_def, List.flatMap_singleton']
    · obtain ⟨d, hd, rfl⟩ := List.mem_map.mp hu
      exact ⟨d, h d hd, rfl⟩

theorem mem_lang_nil : w ∈ lang ([] : List (Item α)) ↔ w = [] := Language.mem_one _

theorem mem_lang_cons (i : Item α) : w ∈ lang (i :: items) ↔ ∃ u ∈ i.lang, ∃ v ∈ lang items, u ++ v = w := by
  rw [lang, List.map_cons, List.prod_cons, Language.mem_mul]
  rfl

/-! ## One item at a time -/

theorem here_nil : Here ([] : List (Item α)) false text := ⟨[], text, rfl, mem_lang_nil.mpr rfl, nofun⟩

theorem here_nil_atEnd : Here ([] : List (Item α)) true text ↔ text = [] := by
  constructor
  · rintro ⟨w, rest, rfl, hw, hrest⟩
    rw [mem_lang_nil.mp hw, hrest rfl, List.append_nil]
  · rintro rfl
    exact ⟨[], [], rfl, mem_lang_nil.mpr rfl, fun _ => rfl⟩

/-- A plain item needs a character of its class. -/
theorem here_plain_nil : ¬ Here (⟨cls, false⟩ :: items) atEnd ([] : List α) := by
  rintro ⟨w, rest, htext, hw, -⟩
  obtain ⟨u, ⟨c, -, rfl⟩, v, -, rfl⟩ := (mem_lang_cons _).mp hw
  exact absurd htext.symm (List.cons_ne_nil _ _)

theorem here_plain_cons : Here (⟨cls, false⟩ :: items) atEnd (c :: text) ↔ cls c = true ∧ Here items atEnd text := by
  constructor
  · rintro ⟨w, rest, htext, hw, hrest⟩
    obtain ⟨u, ⟨d, hd, rfl⟩, v, hv, rfl⟩ := (mem_lang_cons _).mp hw
    obtain ⟨rfl, rfl⟩ := List.cons.inj htext
    exact ⟨hd, v, rest, rfl, hv, hrest⟩
  · rintro ⟨hc, v, rest, rfl, hv, hrest⟩
    exact ⟨c :: v, rest, rfl, (mem_lang_cons _).mpr ⟨[c], ⟨c, hc, rfl⟩, v, hv, rfl⟩, hrest⟩

/-- A starred item takes any number of characters of its class. -/
theorem here_starred :
    Here (⟨cls, true⟩ :: items) atEnd text ↔ ∃ u v, text = u ++ v ∧ (∀ c ∈ u, cls c = true) ∧ Here items atEnd v := by
  constructor
  · rintro ⟨w, rest, rfl, hw, hrest⟩
    obtain ⟨u, hu, v, hv, rfl⟩ := (mem_lang_cons _).mp hw
    exact ⟨u, v ++ rest, List.append_assoc u v rest, mem_kstar_single.mp hu, v, rest, rfl, hv, hrest⟩
  · rintro ⟨u, v, rfl, hu, w, rest, rfl, hw, hrest⟩
    exact ⟨u ++ w, rest, (List.append_assoc u w rest).symm,
      (mem_lang_cons _).mpr ⟨u, mem_kstar_single.mpr hu, w, hw, rfl⟩, hrest⟩

end Wildcard
