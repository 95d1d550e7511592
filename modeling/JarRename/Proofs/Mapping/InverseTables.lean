import Mathlib
import JarRename.Proofs.Mapping.Inverse
import JarRename.Proofs.Mapping.Descriptors

/-!
# What stands in an inverse

An inverse holds every entry turned around, under the key that has the new names in it, and nothing
else, if no two entries come to stand under one key. It then has as many entries as the set, and the
order in which they are turned around does not show.
-/
namespace JarRename

namespace MappingSet

section Keys

variable (set : MappingSet)

/-- A descriptor with new names, or the same one if it cannot be parsed. -/
def DescriptorTranslated (mapped : Except ClassError String) (before after : String) : Prop :=
  mapped = .ok after ∨ (∃ e, mapped = .error e) ∧ after = before

/-- `after` is the key of a field after renaming, `mapped` its new name. -/
structure FieldTranslated (before : FieldKey) (mapped : UnqualifiedName) (after : FieldKey) :
    Prop where
  owner : after.owner.text = set.mapClass before.owner.text
  name : after.name = mapped
  descriptor : Option.Rel (fun d d' => DescriptorTranslated (set.mapFieldDescriptor d) d d')
    before.descriptor after.descriptor

/-- `after` is the key of a method after renaming, `mapped` its new name. -/
structure MethodTranslated (before : MethodKey) (mapped : UnqualifiedName) (after : MethodKey) :
    Prop where
  owner : after.owner.text = set.mapClass before.owner.text
  name : after.name = mapped
  descriptor : DescriptorTranslated (set.mapMethodDescriptor before.descriptor) before.descriptor
    after.descriptor

/-- No two fields come to stand under one key. -/
def DistinctFields : Prop :=
  ∀ key other mapped mapped' after, set.fields[key]? = some mapped →
    set.fields[other]? = some mapped' → set.FieldTranslated key mapped after →
      set.FieldTranslated other mapped' after → key = other

/-- No two methods come to stand under one key. -/
def DistinctMethods : Prop :=
  ∀ key other mapped mapped' after, set.methods[key]? = some mapped →
    set.methods[other]? = some mapped' → set.MethodTranslated key mapped after →
      set.MethodTranslated other mapped' after → key = other

end Keys

variable {set : MappingSet}

theorem descriptorTranslated_iff {mapped : Except ClassError String} {before after : String} :
    DescriptorTranslated mapped before after ↔ after = inverseDescriptor mapped before := by
  cases mapped <;> simp [DescriptorTranslated, inverseDescriptor, eq_comm]

theorem owner_iff {before after : BinaryName} :
    after.text = set.mapClass before.text ↔ after = set.mapBinaryName before := by
  rw [← BinaryName.text_injective.eq_iff, mapBinaryName_text]

theorem fieldTranslated_iff {before after : FieldKey} {mapped : UnqualifiedName} :
    set.FieldTranslated before mapped after ↔ after = set.inverseFieldKey before mapped := by
  obtain ⟨owner, name, descriptor⟩ := before
  obtain ⟨owner', name', descriptor'⟩ := after
  have hd : Option.Rel (fun d d' => DescriptorTranslated (set.mapFieldDescriptor d) d d')
      descriptor descriptor' ↔
      descriptor' = descriptor.map fun d => inverseDescriptor (set.mapFieldDescriptor d) d := by
    cases descriptor <;> cases descriptor' <;> simp [descriptorTranslated_iff]
  rw [inverseFieldKey, FieldKey.mk.injEq, ← owner_iff, ← hd]
  exact ⟨fun h => ⟨h.owner, h.name, h.descriptor⟩, fun h => ⟨h.1, h.2.1, h.2.2⟩⟩

theorem methodTranslated_iff {before after : MethodKey} {mapped : UnqualifiedName} :
    set.MethodTranslated before mapped after ↔ after = set.inverseMethodKey before mapped := by
  obtain ⟨owner', name', descriptor'⟩ := after
  rw [inverseMethodKey, MethodKey.mk.injEq, ← owner_iff, ← descriptorTranslated_iff]
  exact ⟨fun h => ⟨h.owner, h.name, h.descriptor⟩, fun h => ⟨h.1, h.2.1, h.2.2⟩⟩

section Table

variable {κ κ' α β : Type} [BEq κ] [Hashable κ] [LawfulBEq κ] [LawfulHashable κ] [BEq κ']
  [Hashable κ'] [LawfulBEq κ'] [LawfulHashable κ'] {table : Std.HashMap κ α}
  {entries : List (κ × α)}

omit [BEq κ'] [Hashable κ'] [LawfulBEq κ'] [LawfulHashable κ'] in
/-- Entries of a table that are put under new keys have different ones if no two new keys are the
same. -/
theorem nodup_newKeys {newKey : κ → α → κ'} (all : entries.Perm table.toList)
    (apart : ∀ key other value value', table[key]? = some value → table[other]? = some value' →
      newKey key value = newKey other value' → key = other) :
    (entries.map fun entry => newKey entry.1 entry.2).Nodup := by
  have hmem : ∀ entry ∈ entries, table[entry.1]? = some entry.2 := fun entry he =>
    Std.HashMap.mem_toList_iff_getElem?_eq_some.1 (all.mem_iff.1 he)
  have hnodup : entries.Nodup := by
    rw [all.nodup_iff]
    refine Std.HashMap.distinct_keys_toList.imp ?_
    rintro a _ hne rfl
    simp at hne
  refine hnodup.map_on fun first hf second hs heq => ?_
  have hkey : first.1 = second.1 := apart _ _ _ _ (hmem first hf) (hmem second hs) heq
  have hvalue := hmem first hf
  rw [hkey, hmem second hs, Option.some.injEq] at hvalue
  exact Prod.ext hkey hvalue.symm

/-- The table that holds the entries of another one under new keys. -/
theorem getElem?_newKeys {newKey : κ → α → κ'} {value : κ → β} (all : entries.Perm table.toList)
    (apart : ∀ key other value value', table[key]? = some value → table[other]? = some value' →
      newKey key value = newKey other value' → key = other) (key' : κ') (v : β) :
    ((entries.map fun entry => (newKey entry.1 entry.2, value entry.1)).foldl
        (fun table entry => table.insert entry.1 entry.2) (∅ : Std.HashMap κ' β))[key']? = some v ↔
      ∃ key old, table[key]? = some old ∧ newKey key old = key' ∧ value key = v := by
  have hnodup := nodup_newKeys all apart
  rw [getElem?_foldl_insert_iff (by simpa [Function.comp_def] using hnodup)]
  simp [all.mem_iff, Std.HashMap.mem_toList_iff_getElem?_eq_some]

theorem size_newKeys {newKey : κ → α → κ'} {value : κ → β} (all : entries.Perm table.toList)
    (apart : ∀ key other value value', table[key]? = some value → table[other]? = some value' →
      newKey key value = newKey other value' → key = other) :
    ((entries.map fun entry => (newKey entry.1 entry.2, value entry.1)).foldl
      (fun table entry => table.insert entry.1 entry.2) (∅ : Std.HashMap κ' β)).size =
        table.size := by
  have hnodup := nodup_newKeys all apart
  rw [size_foldl_insert (by simpa [Function.comp_def] using hnodup), List.length_map,
    all.length_eq, Std.HashMap.length_toList]

end Table

variable {classes : List (BinaryName × BinaryName)}
  {fields : List (FieldKey × UnqualifiedName)} {methods : List (MethodKey × UnqualifiedName)}

theorem fields_inverseOf (set : MappingSet) (classes : List (BinaryName × BinaryName))
    (fields : List (FieldKey × UnqualifiedName)) (methods : List (MethodKey × UnqualifiedName)) :
    (set.inverseOf classes fields methods).fields =
      (fields.map fun entry => (set.inverseFieldKey entry.1 entry.2, entry.1.name)).foldl
        (fun table entry => table.insert entry.1 entry.2) ∅ := by
  rw [inverseOf, view_foldl MappingSet.fields, List.foldl_map]
  · generalize hstart : classes.foldl _ empty = start
    have hnone : start.fields = ∅ := by
      rw [← hstart, view_foldl MappingSet.fields]
      · rfl
      · exact fun _ _ => rfl
    rw [← hnone]
    exact (List.foldl_hom MappingSet.fields fun _ _ => rfl).symm
  · exact fun _ _ => rfl

theorem methods_inverseOf (set : MappingSet) (classes : List (BinaryName × BinaryName))
    (fields : List (FieldKey × UnqualifiedName)) (methods : List (MethodKey × UnqualifiedName)) :
    (set.inverseOf classes fields methods).methods =
      (methods.map fun entry => (set.inverseMethodKey entry.1 entry.2, entry.1.name)).foldl
        (fun table entry => table.insert entry.1 entry.2) ∅ := by
  rw [inverseOf, List.foldl_map]
  generalize hstart : fields.foldl _ _ = start
  have hnone : start.methods = ∅ := by
    rw [← hstart, view_foldl MappingSet.methods, view_foldl MappingSet.methods]
    · rfl
    · exact fun _ _ => rfl
    · exact fun _ _ => rfl
  rw [← hnone]
  exact (List.foldl_hom MappingSet.methods fun _ _ => rfl).symm

theorem classCount_inverseOf (classNames : set.DistinctNames)
    (all : classes.Perm set.classes.toList) :
    (set.inverseOf classes fields methods).classCount = set.classCount := by
  have happart : ∀ name other mapped mapped' : BinaryName, set.classes.names[name]? = some mapped →
      set.classes.names[other]? = some mapped' → mapped = mapped' → name = other := by
    rintro name other mapped _ hn ho rfl
    apply classNames name other mapped <;> simpa [class?]
  have hsize := @size_newKeys _ _ _ BinaryName _ _ _ _ _ _ _ _ _ _ (fun _ mapped => mapped) id all
    happart
  rw [classCount, ClassTable.size, classes_inverseOf, ClassTable.names_foldl_insert]
  exact hsize

/-- The inverse of a set whose entries come to stand under different keys: each entry is turned
around, there are no others, and none is lost. -/
theorem inverseOf_exact (classNames : set.DistinctNames) (fieldKeys : set.DistinctFields)
    (methodKeys : set.DistinctMethods) (allClasses : classes.Perm set.classes.toList)
    (allFields : fields.Perm set.fields.toList) (allMethods : methods.Perm set.methods.toList) :
    (∀ name mapped : BinaryName, (set.inverseOf classes fields methods).class? mapped.text =
        some name ↔ set.class? name.text = some mapped) ∧
    (∀ after name, (set.inverseOf classes fields methods).fields[after]? = some name ↔
      ∃ key mapped, set.fields[key]? = some mapped ∧ set.FieldTranslated key mapped after ∧
        key.name = name) ∧
    (∀ after name, (set.inverseOf classes fields methods).methods[after]? = some name ↔
      ∃ key mapped, set.methods[key]? = some mapped ∧ set.MethodTranslated key mapped after ∧
        key.name = name) ∧
    (set.inverseOf classes fields methods).classCount = set.classCount ∧
    (set.inverseOf classes fields methods).fieldCount = set.fieldCount ∧
    (set.inverseOf classes fields methods).methodCount = set.methodCount := by
  have hfields : ∀ key other mapped mapped', set.fields[key]? = some mapped →
      set.fields[other]? = some mapped' →
        set.inverseFieldKey key mapped = set.inverseFieldKey other mapped' → key = other :=
    fun key other mapped mapped' hk ho heq => fieldKeys key other mapped mapped' _ hk ho
      (fieldTranslated_iff.2 rfl) (fieldTranslated_iff.2 heq)
  have hmethods : ∀ key other mapped mapped', set.methods[key]? = some mapped →
      set.methods[other]? = some mapped' →
        set.inverseMethodKey key mapped = set.inverseMethodKey other mapped' → key = other :=
    fun key other mapped mapped' hk ho heq => methodKeys key other mapped mapped' _ hk ho
      (methodTranslated_iff.2 rfl) (methodTranslated_iff.2 heq)
  refine ⟨class?_inverseOf_iff classNames allClasses, fun after name => ?_, fun after name => ?_,
    ?_, ?_, ?_⟩
  · rw [fields_inverseOf, getElem?_newKeys allFields hfields]
    simp only [fieldTranslated_iff, eq_comm]
  · rw [methods_inverseOf, getElem?_newKeys allMethods hmethods]
    simp only [methodTranslated_iff, eq_comm]
  · exact classCount_inverseOf classNames allClasses
  · rw [fieldCount, fields_inverseOf, size_newKeys allFields hfields, fieldCount]
  · rw [methodCount, methods_inverseOf, size_newKeys allMethods hmethods, methodCount]

section Sample

/-- A field of a nested class that has no entry. -/
def nestedField (descriptor : Option String) : FieldKey :=
  ⟨⟨"lib$A", by decide +kernel⟩, ⟨"size", by decide +kernel⟩, descriptor⟩

/-- A method that takes the class it is in. -/
def nestedMethod : MethodKey :=
  ⟨(nestedField none).owner, ⟨"copy", by decide +kernel⟩, "(Llib$A;)V"⟩

/-- The new name of a field and of a method. -/
def memberNames : UnqualifiedName × UnqualifiedName :=
  (⟨"length", by decide +kernel⟩, ⟨"clone", by decide +kernel⟩)

/-- One field for a descriptor that cannot be parsed, one for all types, and a method. -/
def memberSet : MappingSet :=
  ((packageSet.insertField (nestedField (some "L")) memberNames.1).insertField
    (nestedField none) memberNames.1).insertMethod nestedMethod memberNames.2

theorem class?_memberSet (name : String) : memberSet.class? name = packageSet.class? name := rfl

theorem distinctNames_memberSet : memberSet.DistinctNames :=
  distinctNames_empty.insertClass (by simp)

theorem mapClass_memberSet : memberSet.mapClass "lib$A" = "core$A" := by
  have hlib : memberSet.class? "lib" = some ⟨"core", by decide +kernel⟩ := by
    simp [class?_memberSet, class?_packageSet]
  have hmap : memberSet.mapClass ("lib" ++ "$" ++ "A") = memberSet.mapClass "lib" ++ "$" ++ "A" :=
    mapClass_append (by simp [class?_memberSet, class?_packageSet]) (by decide) (by decide)
      (by decide) (by decide +kernel)
  rw [mapClass_of_class? hlib] at hmap
  exact hmap

theorem mapMethodDescriptor_memberSet :
    memberSet.mapMethodDescriptor "(Llib$A;)V" = .ok "(Lcore$A;)V" := by
  have hparse : MethodType.parse "(Llib$A;)V" =
      .ok ⟨[.ref (.object 0 ⟨"lib$A", by decide +kernel⟩)], none⟩ := by decide +kernel
  rw [memberSet.mapMethodDescriptor_of_parse hparse]
  have hname : memberSet.mapBinaryName ⟨"lib$A", by decide +kernel⟩ =
      ⟨"core$A", by decide +kernel⟩ :=
    BinaryName.text_injective ((mapBinaryName_text _ _).trans mapClass_memberSet)
  simp only [MethodType.map, List.map_cons, List.map_nil, FieldType.map, RefType.map, hname]
  decide +kernel

theorem fields_memberSet {key : FieldKey} {mapped : UnqualifiedName}
    (h : memberSet.fields[key]? = some mapped) :
    key = nestedField (some "L") ∨ key = nestedField none := by
  simp only [memberSet, insertMethod, insertField, packageSet, insertClass, empty,
    Std.HashMap.getElem?_insert, Std.HashMap.getElem?_empty] at h
  split_ifs at h with hnone hsome
  · exact .inr (eq_of_beq hnone).symm
  · exact .inl (eq_of_beq hsome).symm

theorem methods_memberSet {key : MethodKey} {mapped : UnqualifiedName}
    (h : memberSet.methods[key]? = some mapped) : key = nestedMethod := by
  simp only [memberSet, insertMethod, insertField, packageSet, insertClass, empty,
    Std.HashMap.getElem?_insert, Std.HashMap.getElem?_empty] at h
  split_ifs at h with hkey
  exact (eq_of_beq hkey).symm

/-- The new keys of the two fields differ in whether they have a descriptor. -/
theorem distinctFields_memberSet : memberSet.DistinctFields := by
  intro key other mapped mapped' after hk ho ht ht'
  have heq := (fieldTranslated_iff.1 ht).symm.trans (fieldTranslated_iff.1 ht')
  have hsome : key.descriptor.isSome = other.descriptor.isSome := by
    simpa [inverseFieldKey] using congrArg (·.descriptor.isSome) heq
  obtain rfl | rfl := fields_memberSet hk <;> obtain rfl | rfl := fields_memberSet ho
  · rfl
  · cases hsome
  · cases hsome
  · rfl

theorem distinctMethods_memberSet : memberSet.DistinctMethods := by
  intro key other mapped mapped' after hk ho _ _
  rw [methods_memberSet hk, methods_memberSet ho]

/-- The owner and the descriptor of the method get new names, and the descriptor that cannot be
parsed stays. -/
theorem inverseOf_exact_members :
    memberSet.DistinctNames ∧ memberSet.DistinctFields ∧ memberSet.DistinctMethods ∧
      ∃ lib core owner : BinaryName, lib.text = "lib" ∧ core.text = "core" ∧
        owner.text = "core$A" ∧ memberSet.inverse.class? core.text = some lib ∧
        memberSet.inverse.fields[FieldKey.mk owner memberNames.1 (some "L")]? =
          some (nestedField none).name ∧
        memberSet.inverse.methods[MethodKey.mk owner memberNames.2 "(Lcore$A;)V"]? =
          some nestedMethod.name ∧
        memberSet.inverse.fieldCount = 2 := by
  obtain ⟨hclass, hfield, hmethod, -, hcount, -⟩ := inverseOf_exact distinctNames_memberSet
    distinctFields_memberSet distinctMethods_memberSet (List.Perm.refl _) (List.Perm.refl _)
    (List.Perm.refl _)
  have hlib : memberSet.class? "lib" = some ⟨"core", by decide +kernel⟩ := by
    simp [class?_memberSet, class?_packageSet]
  have hfieldEntry : memberSet.fields[nestedField (some "L")]? = some memberNames.1 := by
    rw [memberSet, insertMethod, insertField, Std.HashMap.getElem?_insert,
      if_neg (by simp [nestedField])]
    simp [insertField]
  have hmethodEntry : memberSet.methods[nestedMethod]? = some memberNames.2 := by
    simp [memberSet, insertMethod]
  have hbad : DescriptorTranslated (memberSet.mapFieldDescriptor "L") "L" "L" :=
    .inr ⟨⟨_, rfl⟩, rfl⟩
  refine ⟨distinctNames_memberSet, distinctFields_memberSet, distinctMethods_memberSet,
    ⟨"lib", by decide +kernel⟩, ⟨"core", by decide +kernel⟩, ⟨"core$A", by decide +kernel⟩,
    rfl, rfl, rfl, (hclass _ _).2 hlib, (hfield _ _).2 ?_, (hmethod _ _).2 ?_, hcount.trans ?_⟩
  · exact ⟨_, _, hfieldEntry, ⟨mapClass_memberSet.symm, rfl, .some hbad⟩, rfl⟩
  · exact ⟨_, _, hmethodEntry, ⟨mapClass_memberSet.symm, rfl, .inl mapMethodDescriptor_memberSet⟩,
      rfl⟩
  · simp [fieldCount, memberSet, insertMethod, insertField, packageSet, insertClass, empty,
      nestedField, Std.HashMap.size_insert]

end Sample

end MappingSet

end JarRename
