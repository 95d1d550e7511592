import Mathlib
import JarRename.Proofs.Hierarchy.Owners
import JarRename.Proofs.Mapping.ClassNames
import JarRename.Renaming.Text

/-!
# New names of members

The new name of a member depends on the class that declares it, and not on the class through which
it is reached. It is the name that a mapping gives, or else the old one, and so the name of a member
again.
-/
namespace JarRename

open ClassIndex

/-- The mapping of a member that `owner` declares. -/
def MappingSet.member? (set : MappingSet) (kind : MemberKind) (owner : String) (key : MemberKey) :
    Option UnqualifiedName :=
  match kind with
  | .field => set.field? owner key.name.text key.descriptor
  | .method => set.method? owner key.name.text key.descriptor

namespace MappingSet

variable {set : MappingSet} {owner : BinaryName} {key : MemberKey} {mapped : UnqualifiedName}

theorem member?_empty (kind : MemberKind) : empty.member? kind owner.text key = none := by
  cases kind <;> simp [member?, field?, method?, empty]

theorem member?_insertMethod (entry : MethodKey) :
    (set.insertMethod entry mapped).member? .method owner.text key =
      if entry = ⟨owner, key.name, key.descriptor⟩ then some mapped
      else set.member? .method owner.text key := by
  simp [member?, method?, insertMethod, Std.HashMap.getElem?_insert]

theorem member?_insertField_of_ne {entry : FieldKey} (h : entry.owner ≠ owner) :
    (set.insertField entry mapped).member? .field owner.text key =
      set.member? .field owner.text key := by
  have hne : ∀ descriptor, entry ≠ ⟨owner, key.name, descriptor⟩ := by
    rintro descriptor rfl
    exact h rfl
  simp [member?, field?, insertField, Std.HashMap.getElem?_insert, hne]

end MappingSet

namespace Remapper

/-- A class with a valid name is no array. -/
theorem mapClassConstant_text (r : Remapper) (name : BinaryName) :
    r.mapClassConstant name.text = .ok (r.mappings.mapBinaryName name).text := by
  rw [mapClassConstant, if_neg (Name.head?_ne_bracket name.valid), mapClass,
    MappingSet.mapBinaryName_text]

theorem declaringClass_eq {r : Remapper} {owner declaring : BinaryName} {kind : MemberKind}
    {key : MemberKey} (hk : r.index.Keyed)
    (h : r.index.findOwner owner.text kind key = some declaring) :
    r.declaringClass owner.text kind key = r.declaringClass declaring.text kind key := by
  obtain ⟨summary, hg, hd, -⟩ := declares_of_findOwner hk h
  rw [declaringClass, declaringClass, h, findOwner_self hk hg hd]

/-- The mapping that counts for a member of `declaring`. A method that has none and can be overridden
inherits one; an initializer has none. -/
def memberMapping? (r : Remapper) (kind : MemberKind) (declaring : String) (key : MemberKey) :
    Option UnqualifiedName :=
  match kind with
  | .field => r.mappings.member? .field declaring key
  | .method =>
    if key.name.isInitializer then none
    else (r.mappings.member? .method declaring key).or
      (if r.index.isInheritable declaring key then r.inheritedMapping? declaring key else none)

/-- The new name of a member that is reached through `owner`. -/
def newName (r : Remapper) (kind : MemberKind) (owner : String) (key : MemberKey) :
    UnqualifiedName :=
  (r.memberMapping? kind (r.declaringClass owner kind key) key).getD key.name

theorem mapField_key (r : Remapper) (owner : String) (key : MemberKey) :
    r.mapField owner key.name.text key.descriptor = .ok (r.newName .field owner key).text := by
  have hkey : MemberKey.ofTexts key.name.text key.descriptor = .ok key :=
    MemberKey.ofTexts_ok_iff.2 ⟨rfl, rfl⟩
  simp only [mapField, hkey, bind, Except.bind, MappingSet.mapField, newName, memberMapping?,
    MappingSet.member?]
  cases r.mappings.field? (r.declaringClass owner .field key) key.name.text key.descriptor <;> rfl

theorem mapMethod_key (r : Remapper) (owner : String) (key : MemberKey) :
    r.mapMethod owner key.name.text key.descriptor = .ok (r.newName .method owner key).text := by
  have hkey : MemberKey.ofTexts key.name.text key.descriptor = .ok key :=
    MemberKey.ofTexts_ok_iff.2 ⟨rfl, rfl⟩
  simp only [mapMethod, hkey, bind, Except.bind, newName, memberMapping?, MappingSet.member?]
  by_cases hi : key.name.isInitializer = true
  · rw [if_pos hi, if_pos hi]
    rfl
  rw [if_neg hi, if_neg hi]
  generalize r.declaringClass owner .method key = declaring
  cases r.mappings.method? declaring key.name.text key.descriptor with
  | some mapped => rfl
  | none =>
    by_cases ho : r.index.isInheritable declaring key = true
    · simp only [ho, if_true]
      cases r.inheritedMapping? declaring key <;> rfl
    · simp only [ho]
      rfl

end Remapper

namespace Renaming

variable {r : Remapper} {kind : MemberKind}

theorem mapMemberName_key (r : Remapper) (kind : MemberKind) (owner : String) (key : MemberKey) :
    mapMemberName r kind owner key.name.text key.descriptor =
      .ok (r.newName kind owner key).text := by
  cases kind with
  | field => exact r.mapField_key owner key
  | method => exact r.mapMethod_key owner key

/-- Only texts that spell a member are given a new name. -/
theorem exists_key_of_mapMemberName {owner name descriptor mapped : String}
    (h : mapMemberName r kind owner name descriptor = .ok mapped) :
    ∃ key : MemberKey, key.name.text = name ∧ key.descriptor = descriptor ∧
      (r.newName kind owner key).text = mapped := by
  have hkey : ∃ key, MemberKey.ofTexts name descriptor = .ok key := by
    cases kind with
    | field => exact (Fallible.bind_ok_iff.1 h).imp fun _ hk => hk.1
    | method => exact (Fallible.bind_ok_iff.1 h).imp fun _ hk => hk.1
  obtain ⟨key, hk⟩ := hkey
  obtain ⟨rfl, rfl⟩ := MemberKey.ofTexts_ok_iff.1 hk
  rw [mapMemberName_key] at h
  exact ⟨key, rfl, rfl, Except.ok.inj h⟩

/-- What becomes of the key of a member that is reached through `owner`. -/
structure KeyRenamed (r : Remapper) (kind : MemberKind) (owner : BinaryName)
    (key key' : MemberKey) : Prop where
  name : mapMemberName r kind owner.text key.name.text key.descriptor = .ok key'.name.text
  descriptor : mapText r (descriptorKind kind) key.descriptor = .ok key'.descriptor

theorem KeyRenamed.unique {owner : BinaryName} {key first second : MemberKey}
    (h : KeyRenamed r kind owner key first) (h' : KeyRenamed r kind owner key second) :
    first = second := by
  obtain ⟨⟨name, hv⟩, descriptor⟩ := first
  obtain ⟨⟨name', hv'⟩, descriptor'⟩ := second
  obtain rfl : name = name' := Except.ok.inj (h.name.symm.trans h'.name)
  obtain rfl : descriptor = descriptor' := Except.ok.inj (h.descriptor.symm.trans h'.descriptor)
  rfl

theorem mapMemberName_congr {owner owner' : String} {key : MemberKey}
    (h : r.declaringClass owner kind key = r.declaringClass owner' kind key) :
    mapMemberName r kind owner key.name.text key.descriptor =
      mapMemberName r kind owner' key.name.text key.descriptor := by
  rw [mapMemberName_key, mapMemberName_key, Remapper.newName, Remapper.newName, h]

/-- A reference and the declaration that it leads to get the same name. -/
theorem KeyRenamed.of_findOwner {owner declaring : BinaryName} {key key' : MemberKey}
    (hk : r.index.Keyed) (hf : r.index.findOwner owner.text kind key = some declaring)
    (h : KeyRenamed r kind declaring key key') : KeyRenamed r kind owner key key' :=
  ⟨(mapMemberName_congr (r.declaringClass_eq hk hf)).trans h.name, h.descriptor⟩

section Sample

/-- The name of a class `A`. -/
def sampleName : BinaryName := ⟨"A", by decide +kernel⟩

/-- Its new name, `B`. -/
def mappedName : BinaryName := ⟨"B", by decide +kernel⟩

/-- The key of a field `f` of the class. -/
def sampleKey : MemberKey := ⟨⟨"f", by decide +kernel⟩, "I"⟩

/-- The key of a method `m` of the class. -/
def methodKey : MemberKey := ⟨⟨"m", by decide +kernel⟩, "(LA;)V"⟩

/-- Gives the class `A` the name `B`, its field `f` the name `g` and its method `m` the name `n`. -/
def sampleRemapper (index : ClassIndex) : Remapper :=
  ⟨index, ((MappingSet.empty.insertClass sampleName mappedName).insertField
    ⟨sampleName, sampleKey.name, none⟩ ⟨"g", by decide +kernel⟩).insertMethod
      ⟨sampleName, methodKey.name, methodKey.descriptor⟩ ⟨"n", by decide +kernel⟩⟩

theorem ofString?_sample : BinaryName.ofString? "A" = some sampleName :=
  BinaryName.ofString?_text sampleName

theorem mapClass_sample (index : ClassIndex) : (sampleRemapper index).mapClass "A" = "B" := by
  have hg : (sampleRemapper index).mappings.classes.get? "A" = some mappedName := by
    simp [sampleRemapper, MappingSet.insertMethod, MappingSet.insertField, MappingSet.insertClass,
      ClassTable.get?, ClassTable.insert, ofString?_sample]
  show String.ofList ((sampleRemapper index).mappings.classes.mapName "A".toList) = "B"
  rw [ClassTable.mapName_eq, String.ofList_toList, hg]
  rfl

/-- Only the members of `A` are mapped, its field whatever its type is. -/
theorem member?_sample (index : ClassIndex) (owner : BinaryName) (descriptor : String) :
    (sampleRemapper index).mappings.member? .field owner.text ⟨sampleKey.name, descriptor⟩ =
        (if owner = sampleName then some ⟨"g", by decide +kernel⟩ else none) ∧
      (sampleRemapper index).mappings.member? .method owner.text methodKey =
        if owner = sampleName then some ⟨"n", by decide +kernel⟩ else none := by
  by_cases ho : sampleName = owner
  · subst ho
    simp [sampleRemapper, MappingSet.member?, MappingSet.field?, MappingSet.method?,
      MappingSet.insertMethod, MappingSet.insertField, MappingSet.insertClass, MappingSet.empty,
      Std.HashMap.getElem?_insert]
  · simp [sampleRemapper, MappingSet.member?, MappingSet.field?, MappingSet.method?,
      MappingSet.insertMethod, MappingSet.insertField, MappingSet.insertClass, MappingSet.empty,
      Std.HashMap.getElem?_insert, ho, Ne.symm ho]

variable {index : ClassIndex} {owner : String}

theorem mapField_sample {descriptor : String}
    (h : (sampleRemapper index).declaringClass owner .field ⟨sampleKey.name, descriptor⟩ = "A") :
    mapMemberName (sampleRemapper index) .field owner "f" descriptor = .ok "g" := by
  have hname := mapMemberName_key (sampleRemapper index) .field owner ⟨sampleKey.name, descriptor⟩
  have hmember := (member?_sample index sampleName descriptor).1
  rw [if_pos rfl] at hmember
  rw [Remapper.newName, h, Remapper.memberMapping?] at hname
  exact hname.trans (by rw [show "A" = sampleName.text from rfl, hmember]; rfl)

theorem mapMethod_sample
    (h : (sampleRemapper index).declaringClass owner .method methodKey = "A") :
    mapMemberName (sampleRemapper index) .method owner "m" "(LA;)V" = .ok "n" := by
  have hname := mapMemberName_key (sampleRemapper index) .method owner methodKey
  have hmember := (member?_sample index sampleName "").2
  rw [if_pos rfl] at hmember
  rw [Remapper.newName, h, Remapper.memberMapping?] at hname
  exact hname.trans (by rw [show "A" = sampleName.text from rfl, hmember]; rfl)

/-- A class that is not indexed is taken for the one that declares the member. -/
theorem declaringClass_empty (kind : MemberKind) (key : MemberKey) :
    (sampleRemapper .empty).declaringClass "A" kind key = "A" := by
  have hnone : ClassIndex.empty.find? sampleName.text = none := by
    rw [find?_text, get?_empty]
  have howner : ClassIndex.empty.findOwner sampleName.text kind key = none := by
    rw [findOwner, hnone]
  show (sampleRemapper .empty).declaringClass sampleName.text kind key = "A"
  rw [Remapper.declaringClass, sampleRemapper, howner]
  rfl

end Sample

end Renaming

end JarRename
