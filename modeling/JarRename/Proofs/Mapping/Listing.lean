import Mathlib
import JarRename.Descriptor.Parser
import JarRename.Proofs.Mapping.Entries

/-!
# Listings

A listing names classes with their new names and members. Its mappings are looked up as in the list
itself, from its end.
-/
namespace JarRename.Mapping

/-- A descriptor of a method, with the type that it spells. -/
structure MethodDescriptor where
  text : String
  type : MethodType BinaryName
  parse_eq : MethodType.parse text = .ok type

/-- A member and its new name. The field may have any type. -/
inductive ListedMember where
  | field (name mapped : UnqualifiedName)
  | method (name : UnqualifiedName) (descriptor : MethodDescriptor) (mapped : UnqualifiedName)

/-- A class, its new name and its members. -/
structure ListedClass where
  name : BinaryName
  mapped : BinaryName
  members : List ListedMember

abbrev Listing := List ListedClass

namespace ListedMember

def addTo (owner : BinaryName) (set : MappingSet) : ListedMember → MappingSet
  | field name mapped => set.insertField ⟨owner, name, none⟩ mapped
  | method name descriptor mapped => set.insertMethod ⟨owner, name, descriptor.text⟩ mapped

/-- The field mapping of a member that is a field, by its owner and name. -/
def fields (owner : BinaryName) : ListedMember → List ((String × String) × UnqualifiedName)
  | field name mapped => [((owner.text, name.text), mapped)]
  | method .. => []

/-- The method mapping of a member that is a method, by its owner, name and descriptor. -/
def methods (owner : BinaryName) :
    ListedMember → List ((String × String × String) × UnqualifiedName)
  | field .. => []
  | method name descriptor mapped => [((owner.text, name.text, descriptor.text), mapped)]

def texts : ListedMember → List String
  | field name mapped => [name.text, mapped.text]
  | method name descriptor mapped => [name.text, descriptor.text, mapped.text]

end ListedMember

namespace ListedClass

def addTo (set : MappingSet) (block : ListedClass) : MappingSet :=
  block.members.foldl (ListedMember.addTo block.name) (set.insertClass block.name block.mapped)

def texts (block : ListedClass) : List String :=
  block.name.text :: block.mapped.text :: block.members.flatMap ListedMember.texts

end ListedClass

namespace Listing

/-- The mappings of a listing. -/
def set (listing : Listing) : MappingSet := listing.foldl ListedClass.addTo .empty

def classes (listing : Listing) : List (String × BinaryName) :=
  listing.flatMap fun block => [(block.name.text, block.mapped)]

def fields (listing : Listing) : List ((String × String) × UnqualifiedName) :=
  listing.flatMap fun block => block.members.flatMap (ListedMember.fields block.name)

def methods (listing : Listing) : List ((String × String × String) × UnqualifiedName) :=
  listing.flatMap fun block => block.members.flatMap (ListedMember.methods block.name)

end Listing

section Lookups

/-- A lookup finds the last entry listed, where each class and each member adds its entries. -/
theorem lookup_set {κ α : Type} [BEq κ] (find : MappingSet → κ → Option α)
    (classEntries : ListedClass → List (κ × α))
    (memberEntries : BinaryName → ListedMember → List (κ × α))
    (empty : ∀ key, find .empty key = none)
    (class_step : ∀ (set : MappingSet) (block : ListedClass) (key : κ),
      find (set.insertClass block.name block.mapped) key =
        ((classEntries block).reverse.lookup key).or (find set key))
    (member_step : ∀ (owner : BinaryName) (set : MappingSet) (member : ListedMember) (key : κ),
      find (member.addTo owner set) key =
        ((memberEntries owner member).reverse.lookup key).or (find set key))
    (listing : Listing) (key : κ) :
    find listing.set key = (listing.flatMap fun block => classEntries block ++
      block.members.flatMap (memberEntries block.name)).reverse.lookup key := by
  have hstep (set : MappingSet) (block : ListedClass) (key : κ) :
      find (block.addTo set) key = ((classEntries block ++
        block.members.flatMap (memberEntries block.name)).reverse.lookup key).or (find set key) := by
    rw [ListedClass.addTo, lookup_foldl find (member_step block.name), class_step,
      List.reverse_append, List.lookup_append, Option.or_assoc]
  rw [Listing.set, lookup_foldl find hstep, empty, Option.or_none]

/-- The last entry of a list with one entry. -/
theorem lookup_reverse_singleton {κ α : Type} [BEq κ] [LawfulBEq κ] [DecidableEq κ]
    (entry : κ × α) (key : κ) (other : Option α) :
    ([entry].reverse.lookup key).or other = if entry.1 = key then some entry.2 else other := by
  rw [List.reverse_singleton, List.lookup_cons]
  by_cases h : entry.1 = key
  · simp [h]
  · simp [beq_eq_false_iff_ne.2 (Ne.symm h), h]

theorem flatMap_nil {α β : Type} (l : List α) : l.flatMap (fun _ => ([] : List β)) = [] := by
  simp

variable (listing : Listing)

theorem class?_set (name : String) :
    listing.set.class? name = listing.classes.reverse.lookup name := by
  have hlookup := lookup_set MappingSet.class? (fun block => [(block.name.text, block.mapped)])
    (fun _ _ => []) MappingSet.class?_empty
    (fun set block key => by rw [MappingSet.class?_insertClass, lookup_reverse_singleton])
    (fun owner set member key => by cases member <;> rfl) listing name
  simpa only [Listing.classes, flatMap_nil, List.append_nil] using hlookup

/-- Listed fields may have any type. -/
theorem exactField?_set_some (owner name descriptor : String) :
    listing.set.exactField? owner name (some descriptor) = none := by
  have hlookup := lookup_set (κ := String × String)
    (fun set key => set.exactField? key.1 key.2 (some descriptor)) (fun _ => []) (fun _ _ => [])
    (fun key => MappingSet.exactField?_empty _ _ _) (fun _ _ _ => rfl)
    (fun owner set member key => by
      cases member with
      | field name mapped => simp [ListedMember.addTo, MappingSet.exactField?_insertField]
      | method => rfl) listing (owner, name)
  simpa only [flatMap_nil, List.append_nil, List.reverse_nil, List.lookup_nil] using hlookup

theorem field?_set (owner name descriptor : String) :
    listing.set.field? owner name descriptor = listing.fields.reverse.lookup (owner, name) := by
  rw [MappingSet.field?_eq, exactField?_set_some, Option.none_or]
  exact lookup_set (fun set (key : String × String) => set.exactField? key.1 key.2 none)
    (fun _ => []) ListedMember.fields (fun key => MappingSet.exactField?_empty _ _ _)
    (fun _ _ _ => rfl)
    (fun owner set member key => by
      cases member with
      | field name mapped =>
        rw [ListedMember.addTo, MappingSet.exactField?_insertField, ListedMember.fields,
          lookup_reverse_singleton]
        simp [Prod.ext_iff]
      | method => rfl) listing (owner, name)

theorem method?_set (owner name descriptor : String) :
    listing.set.method? owner name descriptor =
      listing.methods.reverse.lookup (owner, name, descriptor) :=
  lookup_set (fun set (key : String × String × String) => set.method? key.1 key.2.1 key.2.2)
    (fun _ => []) ListedMember.methods (fun key => MappingSet.method?_empty _ _ _)
    (fun _ _ _ => rfl)
    (fun owner set member key => by
      cases member with
      | field => rfl
      | method name type mapped =>
        rw [ListedMember.addTo, MappingSet.method?_insertMethod, ListedMember.methods,
          lookup_reverse_singleton]) listing (owner, name, descriptor)

end Lookups

end JarRename.Mapping
