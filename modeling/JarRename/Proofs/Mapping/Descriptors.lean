import Mathlib
import JarRename.Proofs.Descriptor
import JarRename.Proofs.Mapping.NestedClasses

/-!
# Mapped descriptors

A descriptor that is read becomes the text of the mapped type. This is also so if it has no `L` and
is not read at all, as its type then has no class. Every class has its new name there, and all else
stays.
-/
namespace JarRename

section Classes

variable {α : Type}

def RefType.classes : RefType α → List α
  | object _ name => [name]
  | primitiveArray _ _ => []

def FieldType.classes : FieldType α → List α
  | base _ => []
  | ref type => type.classes

/-- The classes of the parameters, and then that of the result. -/
def MethodType.classes (type : MethodType α) : List α :=
  type.parameters.flatMap FieldType.classes ++ type.result.elim [] FieldType.classes

section Functor

variable {β γ : Type} (f : α → β)

theorem RefType.render_map (spell : β → List Char) (type : RefType α) :
    (type.map f).render spell = type.render fun name => spell (f name) := by
  cases type <;> rfl

theorem FieldType.render_map (spell : β → List Char) (type : FieldType α) :
    (type.map f).render spell = type.render fun name => spell (f name) := by
  cases type with
  | base type => rfl
  | ref type => exact type.render_map f spell

theorem MethodType.render_map (spell : β → List Char) (type : MethodType α) :
    (type.map f).render spell = type.render fun name => spell (f name) := by
  obtain ⟨types, result⟩ := type
  have htypes : (types.map (FieldType.map f)).flatMap (FieldType.render spell) =
      types.flatMap (FieldType.render fun name => spell (f name)) := by
    simp only [List.flatMap_map, FieldType.render_map]
  have hlast : renderResult spell (result.map (FieldType.map f)) =
      renderResult (fun name => spell (f name)) result := by
    cases result with
    | none => rfl
    | some type => exact type.render_map f spell
  simp only [MethodType.map, render, htypes, hlast]

theorem FieldType.map_map (g : β → γ) (type : FieldType α) :
    (type.map f).map g = type.map fun name => g (f name) := by
  rcases type with type | ⟨dims, name⟩ | ⟨extra, element⟩ <;> rfl

theorem MethodType.map_map (g : β → γ) (type : MethodType α) :
    (type.map f).map g = type.map fun name => g (f name) := by
  obtain ⟨types, result⟩ := type
  simp [MethodType.map, Function.comp_def, FieldType.map_map]

/-- The type with its classes left out: its dimensions and its primitive type. -/
def FieldType.shape (type : FieldType α) : FieldType Unit := type.map fun _ => ()

/-- The type with its classes left out: the number of its parameters, and what is left of each
type. -/
def MethodType.shape (type : MethodType α) : MethodType Unit := type.map fun _ => ()

@[simp] theorem FieldType.shape_map (type : FieldType α) : (type.map f).shape = type.shape :=
  type.map_map f _

@[simp] theorem MethodType.shape_map (type : MethodType α) : (type.map f).shape = type.shape :=
  type.map_map f _

end Functor

variable {spell : α → List Char} {f : α → α}

theorem FieldType.map_eq_self_of_no_class {type : FieldType α} (h : 'L' ∉ type.render spell) :
    type.map f = type := by
  cases type with
  | base type => rfl
  | ref type =>
    cases type with
    | object dims name => simp [FieldType.render, RefType.render] at h
    | primitiveArray extra element => rfl

theorem MethodType.map_eq_self_of_no_class {type : MethodType α} (h : 'L' ∉ type.render spell) :
    type.map f = type := by
  obtain ⟨types, result⟩ := type
  simp only [MethodType.render, List.mem_cons, List.mem_append, not_or] at h
  obtain ⟨-, hparameters, -, hresult⟩ := h
  have htypes : types.map (FieldType.map f) = types := by
    refine (List.map_congr_left fun type ht => ?_).trans (List.map_id types)
    exact FieldType.map_eq_self_of_no_class fun hl =>
      hparameters (List.mem_flatMap.2 ⟨type, ht, hl⟩)
  have hlast : result.map (FieldType.map f) = result := by
    cases result with
    | none => rfl
    | some type => exact congrArg some (FieldType.map_eq_self_of_no_class hresult)
  simp only [MethodType.map, htypes, hlast]

/-- The letters of a class stand in the type. -/
theorem FieldType.mem_render {type : FieldType α} {name : α} (h : name ∈ type.classes) {c : Char}
    (hc : c ∈ spell name) : c ∈ type.render spell := by
  rcases type with type | ⟨dims, other⟩ | ⟨extra, element⟩
  · cases h
  · obtain rfl := List.mem_singleton.1 h
    simp [FieldType.render, RefType.render, hc]
  · cases h

theorem MethodType.mem_render {type : MethodType α} {name : α} (h : name ∈ type.classes) {c : Char}
    (hc : c ∈ spell name) : c ∈ type.render spell := by
  obtain ⟨types, result⟩ := type
  simp only [MethodType.render, List.mem_cons, List.mem_append]
  obtain h | h := List.mem_append.1 h
  · obtain ⟨type, ht, hn⟩ := List.mem_flatMap.1 h
    exact .inr (.inl (List.mem_flatMap.2 ⟨type, ht, FieldType.mem_render hn hc⟩))
  · cases result with
    | none => cases h
    | some type => exact .inr (.inr (.inr (FieldType.mem_render h hc)))

/-- The letters of a mapped type are those of the type and of the new names. -/
theorem FieldType.mem_render_map {type : FieldType α} {c : Char}
    (h : c ∈ (type.map f).render spell) :
    c ∈ type.render spell ∨ ∃ name ∈ type.classes, c ∈ spell (f name) := by
  rcases type with type | ⟨dims, name⟩ | ⟨extra, element⟩
  · exact .inl h
  · simp only [FieldType.map, RefType.map, FieldType.render, RefType.render, List.mem_append,
      List.mem_cons] at h ⊢
    obtain h | h | h | h := h
    · exact .inl (.inl h)
    · exact .inl (.inr (.inl h))
    · exact .inr ⟨name, List.mem_singleton.2 rfl, h⟩
    · exact .inl (.inr (.inr (.inr h)))
  · exact .inl h

theorem MethodType.mem_render_map {type : MethodType α} {c : Char}
    (h : c ∈ (type.map f).render spell) :
    c ∈ type.render spell ∨ ∃ name ∈ type.classes, c ∈ spell (f name) := by
  obtain ⟨types, result⟩ := type
  simp only [MethodType.map, MethodType.render, List.mem_cons, List.mem_append] at h ⊢
  obtain h | h | h | h := h
  · exact .inl (.inl h)
  · obtain ⟨mapped, hm, hc⟩ := List.mem_flatMap.1 h
    obtain ⟨type, ht, rfl⟩ := List.mem_map.1 hm
    obtain hc | ⟨name, hn, hc⟩ := FieldType.mem_render_map hc
    · exact .inl (.inr (.inl (List.mem_flatMap.2 ⟨type, ht, hc⟩)))
    · exact .inr ⟨name, List.mem_append_left _ (List.mem_flatMap.2 ⟨type, ht, hn⟩), hc⟩
  · exact .inl (.inr (.inr (.inl h)))
  · cases result with
    | none => exact .inl (.inr (.inr (.inr h)))
    | some type =>
      obtain hc | ⟨name, hn, hc⟩ := FieldType.mem_render_map h
      · exact .inl (.inr (.inr (.inr hc)))
      · exact .inr ⟨name, List.mem_append_right _ hn, hc⟩

end Classes

section Text

variable {descriptor : String} {f : BinaryName → BinaryName}

/-- Without an `L` there is no class to replace. -/
theorem FieldType.text_map_of_parse {type : FieldType BinaryName}
    (h : FieldType.parse descriptor = .ok type) (hl : 'L' ∉ descriptor.toList) :
    (type.map f).text = descriptor := by
  rw [← FieldType.text_of_parse h, FieldType.text, String.toList_ofList] at hl
  rw [FieldType.map_eq_self_of_no_class hl, FieldType.text_of_parse h]

theorem MethodType.text_map_of_parse {type : MethodType BinaryName}
    (h : MethodType.parse descriptor = .ok type) (hl : 'L' ∉ descriptor.toList) :
    (type.map f).text = descriptor := by
  rw [← MethodType.text_of_parse h, MethodType.text, String.toList_ofList] at hl
  rw [MethodType.map_eq_self_of_no_class hl, MethodType.text_of_parse h]

end Text

namespace MappingSet

variable (set : MappingSet) {descriptor : String}

theorem mapFieldDescriptor_of_parse {type : FieldType BinaryName}
    (h : FieldType.parse descriptor = .ok type) :
    set.mapFieldDescriptor descriptor = .ok (type.map set.mapBinaryName).text := by
  rw [mapFieldDescriptor, h]
  split
  · rename_i hl
    rw [FieldType.text_map_of_parse h hl]
  · rfl

theorem mapMethodDescriptor_of_parse {type : MethodType BinaryName}
    (h : MethodType.parse descriptor = .ok type) :
    set.mapMethodDescriptor descriptor = .ok (type.map set.mapBinaryName).text := by
  rw [mapMethodDescriptor, h]
  split
  · rename_i hl
    rw [MethodType.text_map_of_parse h hl]
  · rfl

/-- In the text of the mapped type every class has its new name. -/
theorem spell_mapBinaryName (name : BinaryName) :
    (set.mapBinaryName name).spell = (set.mapClass name.text).toList := by
  rw [BinaryName.spell, mapBinaryName_text]

/-- Mapping a descriptor replaces every class and nothing else. The new name of a class is the name
of a class, so that it is never left out. A descriptor that is read becomes the text of its type
with the new name in place of each class, this text is read as the mapped type, which has the shape
of the old one, and a descriptor without an `L` is the text of its mapped type already. -/
theorem mapDescriptor_replaces_classes (set : MappingSet) :
    (∀ name : BinaryName,
      BinaryName.ofString? (set.mapClass name.text) = some (set.mapBinaryName name)) ∧
    (∀ (descriptor : String) (type : FieldType BinaryName),
      FieldType.parse descriptor = .ok type → ∃ result,
        set.mapFieldDescriptor descriptor = .ok result ∧
        result = String.ofList (type.render fun name => (set.mapClass name.text).toList) ∧
        FieldType.parse result = .ok (type.map set.mapBinaryName) ∧
        (type.map set.mapBinaryName).shape = type.shape ∧
        ('L' ∉ descriptor.toList → (type.map set.mapBinaryName).text = descriptor)) ∧
    ∀ (descriptor : String) (type : MethodType BinaryName),
      MethodType.parse descriptor = .ok type → ∃ result,
        set.mapMethodDescriptor descriptor = .ok result ∧
        result = String.ofList (type.render fun name => (set.mapClass name.text).toList) ∧
        MethodType.parse result = .ok (type.map set.mapBinaryName) ∧
        (type.map set.mapBinaryName).shape = type.shape ∧
        ('L' ∉ descriptor.toList → (type.map set.mapBinaryName).text = descriptor) := by
  refine ⟨fun name => ?_, fun descriptor type h => ?_, fun descriptor type h => ?_⟩
  · rw [← mapBinaryName_text, BinaryName.ofString?_text]
  · refine ⟨_, set.mapFieldDescriptor_of_parse h, ?_, FieldType.parse_ok_iff.2 rfl,
      type.shape_map _, FieldType.text_map_of_parse h⟩
    simp only [FieldType.text, FieldType.render_map, spell_mapBinaryName]
  · refine ⟨_, set.mapMethodDescriptor_of_parse h, ?_, MethodType.parse_ok_iff.2 rfl,
      type.shape_map _, MethodType.text_map_of_parse h⟩
    simp only [MethodType.text, MethodType.render_map, spell_mapBinaryName]

/-- One class has an entry, and one is nested in it. -/
theorem mapDescriptor_packageSet :
    packageSet.mapFieldDescriptor "[Llib$io;" = .ok "[Lcore$io;" ∧
      packageSet.mapMethodDescriptor "([[Llib$io;I)Llib;" = .ok "([[Lcore$io;I)Lcore;" := by
  have hentry : packageSet.class? "lib" = some ⟨"core", by decide +kernel⟩ := by
    simp [class?_packageSet]
  have hlib : packageSet.mapClass "lib" = "core" := mapClass_of_class? hentry
  have hnested : packageSet.mapClass "lib$io" = "core$io" := by
    have hmap : packageSet.mapClass ("lib" ++ "$" ++ "io") =
        packageSet.mapClass "lib" ++ "$" ++ "io" :=
      mapClass_append (by simp [class?_packageSet]) (by decide) (by decide) (by decide)
        (by decide +kernel)
    rw [hlib] at hmap
    exact hmap
  obtain ⟨-, hfield, hmethod⟩ := mapDescriptor_replaces_classes packageSet
  constructor
  · obtain ⟨result, hresult, htext, -⟩ := hfield "[Llib$io;"
      (.ref (.object 1 ⟨"lib$io", by decide +kernel⟩)) (by decide +kernel)
    rw [hresult, htext]
    simp only [FieldType.render, RefType.render, hnested]
    decide +kernel
  · obtain ⟨result, hresult, htext, -⟩ := hmethod "([[Llib$io;I)Llib;"
      ⟨[.ref (.object 2 ⟨"lib$io", by decide +kernel⟩), .base .int],
        some (.object ⟨"lib", by decide +kernel⟩)⟩ (by decide +kernel)
    rw [hresult, htext]
    simp only [MethodType.render, MethodType.renderResult, FieldType.render, RefType.render,
      FieldType.object, List.flatMap_cons, List.flatMap_nil, hnested, hlib]
    decide +kernel

end MappingSet

end JarRename
