import Mathlib
import JarRename.Proofs.Descriptor
import JarRename.Proofs.Renaming.Members
import JarRename.Proofs.Signature.Composition

/-!
# Mappings of symbols to themselves

A class can have an entry that gives it its own name, or none. Either way it keeps its name, also if
it is nested in a class that has an entry. So do all texts that are put together from names of
classes, and so do fields and methods.
-/
namespace JarRename

open Descriptor

section Types

variable {α : Type} {f : α → α} (hf : ∀ name, f name = name)
include hf

theorem FieldType.map_eq_self (type : FieldType α) : type.map f = type := by
  cases type with
  | base => rfl
  | ref type => cases type <;> simp [FieldType.map, RefType.map, hf]

theorem MethodType.map_eq_self (type : MethodType α) : type.map f = type := by
  have hmap : FieldType.map f = id := funext (FieldType.map_eq_self hf)
  simp [MethodType.map, hmap]

end Types

namespace MappingSet

/-- Every entry gives a class or a member the name that it has. -/
structure IsIdentity (set : MappingSet) : Prop where
  classes : ∀ (name mapped : BinaryName), set.classes.names[name]? = some mapped → mapped = name
  fields : ∀ (key : FieldKey) mapped, set.fields[key]? = some mapped → mapped = key.name
  methods : ∀ (key : MethodKey) mapped, set.methods[key]? = some mapped → mapped = key.name

theorem isIdentity_empty : empty.IsIdentity :=
  ⟨by simp [empty, ClassTable.empty], by simp [empty], by simp [empty]⟩

variable {set : MappingSet} (h : set.IsIdentity)
include h

theorem IsIdentity.insertClass (name : BinaryName) : (set.insertClass name name).IsIdentity := by
  refine ⟨fun other mapped hm => ?_, h.fields, h.methods⟩
  simp only [MappingSet.insertClass, ClassTable.insert, Std.HashMap.getElem?_insert] at hm
  split at hm
  · rename_i heq
    rw [← eq_of_beq heq, Option.some.inj hm]
  · exact h.classes other mapped hm

theorem IsIdentity.insertField (key : FieldKey) : (set.insertField key key.name).IsIdentity := by
  refine ⟨h.classes, fun other mapped hm => ?_, h.methods⟩
  simp only [MappingSet.insertField, Std.HashMap.getElem?_insert] at hm
  split at hm
  · rename_i heq
    rw [← eq_of_beq heq, Option.some.inj hm]
  · exact h.fields other mapped hm

theorem IsIdentity.insertMethod (key : MethodKey) : (set.insertMethod key key.name).IsIdentity := by
  refine ⟨h.classes, h.fields, fun other mapped hm => ?_⟩
  simp only [MappingSet.insertMethod, Std.HashMap.getElem?_insert] at hm
  split at hm
  · rename_i heq
    rw [← eq_of_beq heq, Option.some.inj hm]
  · exact h.methods other mapped hm

theorem text_of_class? {name : String} {mapped : BinaryName} (hm : set.class? name = some mapped) :
    mapped.text = name := by
  obtain ⟨own, ho, hg⟩ := Option.bind_eq_some_iff.1 hm
  rw [h.classes own mapped hg]
  exact BinaryName.text_of_ofString? ho

theorem mapName_eq_self (name : List Char) : set.classes.mapName name = name := by
  induction name using set.classes.mapName_induct with
  | entry name mapped ho hmap => rw [hmap, text_of_class? h ho, String.toList_ofList]
  | alone name _ _ hmap => exact hmap
  | nested outer part _ _ hmap ih => rw [hmap, ih]

theorem mapClass_eq_self (name : String) : set.mapClass name = name := by
  rw [mapClass, mapName_eq_self h, String.ofList_toList]

theorem mapBinaryName_eq_self (name : BinaryName) : set.mapBinaryName name = name := by
  rw [mapBinaryName, mapClass_eq_self h, BinaryName.ofString?_text, Option.getD_some]

theorem eq_of_mapFieldDescriptor {descriptor mapped : String}
    (hm : set.mapFieldDescriptor descriptor = .ok mapped) : mapped = descriptor := by
  unfold mapFieldDescriptor at hm
  split at hm
  · cases hm
    rfl
  · split at hm
    · rename_i type hp
      cases hm
      rw [FieldType.map_eq_self (mapBinaryName_eq_self h), FieldType.text_of_parse hp]
    · cases hm

theorem eq_of_mapMethodDescriptor {descriptor mapped : String}
    (hm : set.mapMethodDescriptor descriptor = .ok mapped) : mapped = descriptor := by
  unfold mapMethodDescriptor at hm
  split at hm
  · cases hm
    rfl
  · split at hm
    · rename_i type hp
      cases hm
      rw [MethodType.map_eq_self (mapBinaryName_eq_self h), MethodType.text_of_parse hp]
    · cases hm

theorem text_of_field? {owner name descriptor : String} {mapped : UnqualifiedName}
    (hm : set.field? owner name descriptor = some mapped) : mapped.text = name := by
  obtain ⟨own, -, hm⟩ := Option.bind_eq_some_iff.1 hm
  obtain ⟨field, hn, hm⟩ := Option.bind_eq_some_iff.1 hm
  rcases Option.or_eq_some_iff.1 hm with hm | ⟨-, hm⟩
  · rw [h.fields _ _ hm]
    exact UnqualifiedName.text_of_ofString? hn
  · rw [h.fields _ _ hm]
    exact UnqualifiedName.text_of_ofString? hn

theorem text_of_method? {owner name descriptor : String} {mapped : UnqualifiedName}
    (hm : set.method? owner name descriptor = some mapped) : mapped.text = name := by
  obtain ⟨own, -, hm⟩ := Option.bind_eq_some_iff.1 hm
  obtain ⟨method, hn, hm⟩ := Option.bind_eq_some_iff.1 hm
  rw [h.methods _ _ hm]
  exact UnqualifiedName.text_of_ofString? hn

end MappingSet

namespace Remapper

open MappingSet

variable {r : Remapper} (h : r.mappings.IsIdentity)
include h

theorem eq_of_mapClassConstant {name mapped : String} (hm : r.mapClassConstant name = .ok mapped) :
    mapped = name := by
  unfold mapClassConstant at hm
  split at hm
  · exact eq_of_mapFieldDescriptor h hm
  · cases hm
    exact mapClass_eq_self h name

theorem eq_of_mapSignature {signature mapped : String} (hm : r.mapSignature signature = .ok mapped) :
    mapped = signature := by
  unfold mapSignature at hm
  split at hm
  · cases hm
    rfl
  · split at hm
    · rename_i found hr
      cases hm
      exact Signature.eq_of_rename (mapClass_eq_self h) hr
    · cases hm

/-- A name that is inherited from a supertype is the name of the method, too. -/
theorem text_of_memberMapping? {kind : MemberKind} {declaring : String} {key : MemberKey}
    {mapped : UnqualifiedName} (hm : r.memberMapping? kind declaring key = some mapped) :
    mapped.text = key.name.text := by
  cases kind with
  | field => exact text_of_field? h hm
  | method =>
    simp only [memberMapping?] at hm
    split at hm
    · cases hm
    · rcases Option.or_eq_some_iff.1 hm with hm | ⟨-, hm⟩
      · exact text_of_method? h hm
      · split at hm
        · obtain ⟨ancestor, -, hm⟩ := List.exists_of_findSome?_eq_some hm
          split at hm
          · exact text_of_method? h hm
          · cases hm
        · cases hm

theorem eq_of_mapMemberName {kind : MemberKind} {owner name descriptor mapped : String}
    (hm : Renaming.mapMemberName r kind owner name descriptor = .ok mapped) : mapped = name := by
  obtain ⟨key, rfl, -, rfl⟩ := Renaming.exists_key_of_mapMemberName hm
  unfold newName
  cases hk : r.memberMapping? kind (r.declaringClass owner kind key) key with
  | none => rfl
  | some mapped => exact text_of_memberMapping? h hk

theorem eq_of_mapText {kind : Renaming.TextKind} {text mapped : String}
    (hm : Renaming.mapText r kind text = .ok mapped) : mapped = text := by
  cases kind with
  | fieldDescriptor => exact eq_of_mapFieldDescriptor h hm
  | methodDescriptor => exact eq_of_mapMethodDescriptor h hm
  | resultDescriptor =>
    simp only [Renaming.mapText] at hm
    split at hm
    · cases hm
      rfl
    · exact eq_of_mapFieldDescriptor h hm
  | signature => exact eq_of_mapSignature h hm

end Remapper

end JarRename
