import Mathlib
import JarRename.Proofs.Hierarchy.Ancestors
import JarRename.Proofs.Renaming.Members

/-!
# Which mappings name a member

A method is named by its class and by those supertypes of it that do not declare it private or
static. Methods that override each other therefore get one name if their mappings do not contradict
each other, and the mappings of all other classes make no difference. A field is named by the class
that declares it.
-/
namespace JarRename

open Relation

namespace ClassIndex

def Declares (index : ClassIndex) (owner : BinaryName) (kind : MemberKind) (key : MemberKey) :
    Prop :=
  ∃ summary, index.get? owner = some summary ∧ summary.declares kind key = true

/-- The class declares the method private or static, so subclasses cannot override it. -/
def DeclaresClosed (index : ClassIndex) (owner : BinaryName) (key : MemberKey) : Prop :=
  ∃ summary flags, index.get? owner = some summary ∧ summary.methods[key]? = some flags ∧
    (AccessFlags.isPrivate flags = true ∨ AccessFlags.isStatic flags = true)

variable {index : ClassIndex} {owner : BinaryName} {key : MemberKey}

theorem DeclaresClosed.declares (h : index.DeclaresClosed owner key) :
    index.Declares owner .method key := by
  obtain ⟨summary, flags, hg, hm, -⟩ := h
  refine ⟨summary, hg, ?_⟩
  rw [ClassSummary.declares, ← Std.HashMap.isSome_getElem?_eq_contains, hm]
  rfl

theorem isInheritable_iff : index.isInheritable owner.text key = true ↔
    key.name.isInitializer = false ∧ ¬index.DeclaresClosed owner key := by
  unfold isInheritable
  rw [find?_text]
  split
  · rename_i hi
    simp [hi]
  · rename_i hi
    have hi : key.name.isInitializer = false := by simpa using hi
    split
    · rename_i flags hf
      obtain ⟨summary, hg, hm⟩ := Option.bind_eq_some_iff.1 hf
      simp [hi, DeclaresClosed, hg, hm]
    · rename_i hf
      simp only [true_iff]
      refine ⟨hi, ?_⟩
      rintro ⟨summary, flags, hg, hm, -⟩
      simp [hg, hm] at hf

end ClassIndex

namespace Remapper

open ClassIndex

variable {r : Remapper} {key : MemberKey} {x y : BinaryName} {kind : MemberKind}
  {resolver : Resolver}

/-- A class that declares the member is where it is looked up, and so is a class that is not
indexed. -/
theorem declaringClass_self (hk : r.index.Keyed)
    (h : r.index.Declares x kind key ∨ r.index.get? x = none) :
    r.declaringClass x.text kind key = x.text := by
  rcases h with ⟨summary, hg, hd⟩ | hn
  · rw [declaringClass, findOwner_self hk hg hd]
  · rw [declaringClass, findOwner, find?_text, hn]

theorem declaringClass_resolve (hk : r.index.Keyed) (ha : Resolver.Asked r.index resolver)
    (owner : String) : r.declaringClass owner kind key =
      match (resolver.resolve owner kind key).1 with
      | some declaring => declaring.text
      | none => owner := by
  rw [ha.resolve_eq hk]
  rfl

theorem exists_of_inheritedMapping? (hk : r.index.Keyed) {w : UnqualifiedName}
    (h : r.inheritedMapping? x.text key = some w) :
    ∃ z, TransGen r.index.Extends x z ∧ ¬r.index.DeclaresClosed z key ∧
      r.mappings.member? .method z.text key = some w := by
  obtain ⟨z, hz, hw⟩ := List.exists_of_findSome?_eq_some h
  split at hw
  · rename_i ho
    exact ⟨z, ((mem_ancestors_iff hk).1 hz).1, (isInheritable_iff.1 ho).2, hw⟩
  · cases hw

theorem inheritedMapping?_ne_none (hk : r.index.Keyed) {w : UnqualifiedName}
    (hi : key.name.isInitializer = false) (hxy : TransGen r.index.Extends x y) (hne : y ≠ x)
    (ho : ¬r.index.DeclaresClosed y key)
    (hw : r.mappings.member? .method y.text key = some w) :
    r.inheritedMapping? x.text key ≠ none := by
  intro hn
  have hy : (if r.index.isInheritable y.text key then r.mappings.member? .method y.text key
      else none) = none :=
    List.findSome?_eq_none_iff.1 hn y ((mem_ancestors_iff hk).2 ⟨hxy, hne⟩)
  rw [if_pos (isInheritable_iff.2 ⟨hi, ho⟩), hw] at hy
  cases hy

/-- If no class whose mapping counts contradicts `w`, and one has it, then `w` is what counts. -/
theorem memberMapping?_of_forall (hk : r.index.Keyed) {w : UnqualifiedName}
    (hi : key.name.isInitializer = false) (hox : ¬r.index.DeclaresClosed x key)
    (hxy : TransGen r.index.Extends x y) (hoy : ¬r.index.DeclaresClosed y key)
    (hy : r.mappings.member? .method y.text key = some w)
    (hall : ∀ z v, ReflTransGen r.index.Extends x z → ¬r.index.DeclaresClosed z key →
      r.mappings.member? .method z.text key = some v → v = w) :
    r.memberMapping? .method x.text key = some w := by
  simp only [memberMapping?, hi]
  cases hx : r.mappings.member? .method x.text key with
  | some v =>
    rw [hall x v .refl hox hx]
    rfl
  | none =>
    have hne : y ≠ x := by
      rintro rfl
      rw [hx] at hy
      cases hy
    obtain ⟨v, hv⟩ := Option.ne_none_iff_exists'.1 (inheritedMapping?_ne_none hk hi hxy hne hoy hy)
    obtain ⟨z, hz, hoz, hm⟩ := exists_of_inheritedMapping? hk hv
    rw [if_pos (isInheritable_iff.2 ⟨hi, hox⟩), hv, hall z v hz.to_reflTransGen hoz hm]
    rfl

theorem findSome?_congr {α β : Type} {f g : α → Option β} {items : List α}
    (h : ∀ x ∈ items, f x = g x) : items.findSome? f = items.findSome? g := by
  induction items with
  | nil => rfl
  | cons x items ih =>
    rw [List.findSome?_cons, List.findSome?_cons, h x (by simp), ih fun z hz => h z (by simp [hz])]

section Agreement

variable {index : ClassIndex} {set set' : MappingSet}

/-- Only those supertypes count from which a method can be inherited. -/
theorem inheritedMapping?_congr (hk : index.Keyed)
    (h : ∀ z, TransGen index.Extends x z → ¬index.DeclaresClosed z key →
      set.member? .method z.text key =
        set'.member? .method z.text key) :
    inheritedMapping? ⟨index, set⟩ x.text key = inheritedMapping? ⟨index, set'⟩ x.text key := by
  apply findSome?_congr
  intro z hz
  by_cases ho : index.isInheritable z.text key = true
  · rw [if_pos ho, if_pos ho]
    exact h z ((mem_ancestors_iff hk).1 hz).1 (isInheritable_iff.1 ho).2
  · rw [if_neg ho, if_neg ho]

/-- A method that can be overridden depends on these supertypes besides its class, any other method
on its class alone. -/
theorem memberMapping?_congr (hk : index.Keyed)
    (hx : set.member? .method x.text key =
      set'.member? .method x.text key)
    (hsuper : ¬index.DeclaresClosed x key → ∀ z, TransGen index.Extends x z →
      ¬index.DeclaresClosed z key → set.member? .method z.text key =
        set'.member? .method z.text key) :
    memberMapping? ⟨index, set⟩ .method x.text key =
      memberMapping? ⟨index, set'⟩ .method x.text key := by
  simp only [memberMapping?, hx]
  by_cases ho : index.isInheritable x.text key = true
  · rw [inheritedMapping?_congr hk (hsuper (isInheritable_iff.1 ho).2)]
  · rw [if_neg ho, if_neg ho]

theorem memberMapping?_of_closed (ho : index.DeclaresClosed x key)
    (hn : set.member? .method x.text key = none) :
    memberMapping? ⟨index, set⟩ .method x.text key = none := by
  have hno : ¬index.isInheritable x.text key = true := fun h => (isInheritable_iff.1 h).2 ho
  simp [memberMapping?, hn, hno]

end Agreement

section Sample

def baseName : BinaryName := ⟨"Base", by decide +kernel⟩

def subName : BinaryName := ⟨"Sub", by decide +kernel⟩

/-- A public method. -/
def runKey : MemberKey := ⟨⟨"run", by decide +kernel⟩, "()V"⟩

/-- A private method. -/
def hiddenKey : MemberKey := ⟨⟨"hidden", by decide +kernel⟩, "()V"⟩

def countKey : MemberKey := ⟨⟨"count", by decide +kernel⟩, "I"⟩

def baseSummary : ClassSummary :=
  ⟨baseName, 0x21, none, [], Std.HashMap.emptyWithCapacity.insert countKey 0,
    Std.HashMap.emptyWithCapacity.insert runKey 1⟩

def subSummary : ClassSummary :=
  ⟨subName, 0x21, some baseName, [], ∅,
    (Std.HashMap.emptyWithCapacity.insert runKey 1).insert hiddenKey 2⟩

/-- The class `Sub` extends `Base` and overrides its method. -/
def overridingIndex : ClassIndex := (ClassIndex.empty.insert baseSummary).insert subSummary

/-- Names the method of `Base`. -/
def overridingMappings : MappingSet :=
  MappingSet.empty.insertMethod ⟨baseName, runKey.name, "()V"⟩ ⟨"go", by decide +kernel⟩

/-- Adds names that lead nowhere: a method of `Base` with the name of the private method of `Sub`,
and a field of `Base` below `Sub`. -/
def strayMappings : MappingSet :=
  (overridingMappings.insertMethod ⟨baseName, hiddenKey.name, "()V"⟩ runKey.name).insertField
    ⟨subName, countKey.name, none⟩ runKey.name

theorem made_overriding : ClassIndex.Made overridingIndex := .insert (.insert .empty _) _

theorem get?_overriding {name : BinaryName} {summary : ClassSummary} :
    overridingIndex.get? name = some summary ↔
      name = baseName ∧ summary = baseSummary ∨ name = subName ∧ summary = subSummary := by
  have hne : baseName ≠ subName := by decide
  simp only [overridingIndex, get?_insert, get?_empty, Option.none_or, baseSummary, subSummary]
  by_cases hb : baseName = name
  · subst hb
    simp [hne, eq_comm]
  · by_cases hs : subName = name
    · subst hs
      simp [hb, eq_comm]
    · simp [hb, hs, Ne.symm hb, Ne.symm hs]

theorem extends_overriding {sub super : BinaryName} :
    overridingIndex.Extends sub super ↔ sub = subName ∧ super = baseName := by
  constructor
  · rintro ⟨summary, hg, hm⟩
    rcases get?_overriding.1 hg with ⟨rfl, rfl⟩ | ⟨rfl, rfl⟩
    · simp [ClassSummary.supertypes, baseSummary] at hm
    · exact ⟨rfl, by simpa [ClassSummary.supertypes, subSummary] using hm⟩
  · rintro ⟨rfl, rfl⟩
    exact ⟨_, get?_overriding.2 (.inr ⟨rfl, rfl⟩), by simp [ClassSummary.supertypes, subSummary]⟩

theorem findCycle?_overriding : overridingIndex.findCycle? = none := by
  cases hc : overridingIndex.findCycle? with
  | none => rfl
  | some name =>
    have hloop := transGen_of_findCycle? hc
    obtain ⟨_, hfirst, -⟩ := TransGen.head'_iff.1 hloop
    obtain ⟨_, -, hlast⟩ := TransGen.tail'_iff.1 hloop
    have hsub := (extends_overriding.1 hfirst).1
    have hbase := (extends_overriding.1 hlast).2
    exact absurd (hbase.symm.trans hsub) (by decide)

theorem asked_overriding : Resolver.Asked overridingIndex ⟨overridingIndex, ∅⟩ :=
  .fresh (Resolver.ofIndex_ok_iff.2 ⟨findCycle?_overriding, rfl⟩)

theorem declares_overriding : overridingIndex.Declares subName .method runKey ∧
    overridingIndex.Declares baseName .method runKey ∧
    overridingIndex.Declares baseName .field countKey := by
  have hb := get?_overriding.2 (.inl ⟨rfl, rfl⟩)
  have hs := get?_overriding.2 (.inr ⟨rfl, rfl⟩)
  exact ⟨⟨_, hs, by simp [ClassSummary.declares, subSummary]⟩,
    ⟨_, hb, by simp [ClassSummary.declares, baseSummary]⟩,
    ⟨_, hb, by simp [ClassSummary.declares, baseSummary]⟩⟩

theorem not_closed_overriding (owner : BinaryName) :
    ¬overridingIndex.DeclaresClosed owner runKey := by
  have hne : hiddenKey ≠ runKey := by decide
  rintro ⟨summary, flags, hg, hm, hc⟩
  have hflags : flags = 1 := by
    rcases get?_overriding.1 hg with ⟨-, rfl⟩ | ⟨-, rfl⟩
    · exact Option.some.inj (hm.symm.trans (by simp [baseSummary]))
    · have hrun : subSummary.methods[runKey]? = some 1 := by
        rw [subSummary, Std.HashMap.getElem?_insert, if_neg (by simpa using hne)]
        simp
      exact Option.some.inj (hm.symm.trans hrun)
  subst hflags
  revert hc
  decide

theorem closed_overriding : overridingIndex.DeclaresClosed subName hiddenKey :=
  ⟨_, 2, get?_overriding.2 (.inr ⟨rfl, rfl⟩), by simp [subSummary], .inl (by decide)⟩

end Sample

/-- Overriding methods are renamed together. If `x` declares a method that overrides one of its
supertype `y`, and no mapping on the way up gives the method another name than the `w` of `y`, then
the method is named `w` in `x`, through every class through which that declaration is reached, and
in `y`. -/
theorem overrides_renamed_together (hm : ClassIndex.Made r.index)
    (ha : Resolver.Asked r.index resolver) {w : UnqualifiedName}
    (hi : key.name.isInitializer = false) (hx : r.index.Declares x .method key)
    (hox : ¬r.index.DeclaresClosed x key) (hxy : TransGen r.index.Extends x y)
    (hoy : ¬r.index.DeclaresClosed y key)
    (hy : r.mappings.member? .method y.text key = some w)
    (hall : ∀ z v, ReflTransGen r.index.Extends x z → ¬r.index.DeclaresClosed z key →
      r.mappings.member? .method z.text key = some v → v = w) :
    r.mapMethod x.text key.name.text key.descriptor = .ok w.text ∧
      (∀ owner, (resolver.resolve owner .method key).1 = some x →
        r.mapMethod owner key.name.text key.descriptor = .ok w.text) ∧
      (r.index.Declares y .method key ∨ r.index.get? y = none →
        r.mapMethod y.text key.name.text key.descriptor = .ok w.text) := by
  have hk := hm.keyed
  have hw := memberMapping?_of_forall hk hi hox hxy hoy hy hall
  refine ⟨?_, fun owner ho => ?_, fun hself => ?_⟩
  · rw [mapMethod_key, newName, declaringClass_self hk (.inl hx), hw]
    rfl
  · rw [mapMethod_key, newName, declaringClass_resolve hk ha, ho]
    dsimp only
    rw [hw]
    rfl
  · rw [mapMethod_key, newName, declaringClass_self hk hself]
    simp [memberMapping?, hi, hy]

theorem overrides_renamed_together_sample :
    mapMethod ⟨overridingIndex, overridingMappings⟩ "Sub" "run" "()V" = .ok "go" ∧
      (Resolver.resolve ⟨overridingIndex, ∅⟩ "Sub" .method runKey).1 = some subName ∧
      mapMethod ⟨overridingIndex, overridingMappings⟩ "Base" "run" "()V" = .ok "go" := by
  obtain ⟨hsub, hbase, -⟩ := declares_overriding
  have hxy : TransGen overridingIndex.Extends subName baseName :=
    .single (extends_overriding.2 ⟨rfl, rfl⟩)
  have hmap : ∀ owner : BinaryName, overridingMappings.member? .method owner.text runKey =
      if baseName = owner then some ⟨"go", by decide +kernel⟩ else none := by
    intro owner
    simp [overridingMappings, MappingSet.member?_insertMethod, MappingSet.member?_empty, runKey]
  have hall := @overrides_renamed_together ⟨overridingIndex, overridingMappings⟩ runKey subName
    baseName _ made_overriding asked_overriding ⟨"go", by decide +kernel⟩ (by decide) hsub
    (not_closed_overriding _) hxy (not_closed_overriding _) (by rw [hmap, if_pos rfl]) (by
      intro z v _ _ hv
      rw [hmap] at hv
      split at hv
      · exact (Option.some.inj hv).symm
      · cases hv)
  refine ⟨hall.1, ?_, hall.2.2 (.inl hbase)⟩
  obtain ⟨summary, hg, hd⟩ := hsub
  rw [asked_overriding.resolve_eq made_overriding.keyed]
  exact findOwner_self made_overriding.keyed hg hd

/-- No mapping of a class that has nothing to do with a member makes a difference to its name. Two
sets give a method of `x` one name if they agree on `x` and on those supertypes that do not declare
it private or static, or on `x` alone if `x` declares it so. They give a field one name if they
agree on the class in which the field is found, or on the class asked about if there is none. -/
theorem member_mappings_local {index : ClassIndex} {set set' : MappingSet}
    (hm : ClassIndex.Made index) (ha : Resolver.Asked index resolver) (key : MemberKey) :
    (∀ x, index.Declares x .method key →
      set.member? .method x.text key = set'.member? .method x.text key →
      (∀ y, TransGen index.Extends x y → ¬index.DeclaresClosed y key →
        set.member? .method y.text key = set'.member? .method y.text key) →
      mapMethod ⟨index, set⟩ x.text key.name.text key.descriptor =
        mapMethod ⟨index, set'⟩ x.text key.name.text key.descriptor) ∧
    (∀ x, index.DeclaresClosed x key →
      (set.member? .method x.text key = set'.member? .method x.text key →
        mapMethod ⟨index, set⟩ x.text key.name.text key.descriptor =
          mapMethod ⟨index, set'⟩ x.text key.name.text key.descriptor) ∧
      (set.member? .method x.text key = none →
        mapMethod ⟨index, set⟩ x.text key.name.text key.descriptor = .ok key.name.text)) ∧
    ∀ owner,
      (∀ declaring, (resolver.resolve owner .field key).1 = some declaring →
        set.member? .field declaring.text key = set'.member? .field declaring.text key) →
      ((resolver.resolve owner .field key).1 = none →
        set.member? .field owner key = set'.member? .field owner key) →
      mapField ⟨index, set⟩ owner key.name.text key.descriptor =
        mapField ⟨index, set'⟩ owner key.name.text key.descriptor := by
  have hk := hm.keyed
  have hself : ∀ (s : MappingSet) x, index.Declares x .method key →
      mapMethod ⟨index, s⟩ x.text key.name.text key.descriptor =
        .ok ((memberMapping? ⟨index, s⟩ .method x.text key).getD key.name).text := by
    intro s x hx
    rw [mapMethod_key, newName, declaringClass_self hk (.inl hx)]
  refine ⟨?_, ?_, ?_⟩
  · intro x hx hown hsuper
    rw [hself set x hx, hself set' x hx, memberMapping?_congr hk hown fun _ => hsuper]
  · intro x hx
    rw [hself set x hx.declares, hself set' x hx.declares]
    constructor
    · intro hown
      rw [memberMapping?_congr hk hown fun hno => absurd hx hno]
    · intro hnone
      rw [memberMapping?_of_closed hx hnone]
      rfl
  · intro owner hfound hnone
    have hd : ∀ s, declaringClass ⟨index, s⟩ owner .field key = _ :=
      fun s => @declaringClass_resolve ⟨index, s⟩ key .field resolver hk ha owner
    simp only [mapField_key, newName, hd, memberMapping?]
    cases hr : (resolver.resolve owner .field key).1 with
    | some declaring => rw [hfound declaring hr]
    | none => rw [hnone hr]

theorem member_mappings_local_sample :
    mapMethod ⟨overridingIndex, strayMappings⟩ "Sub" "run" "()V" =
        mapMethod ⟨overridingIndex, overridingMappings⟩ "Sub" "run" "()V" ∧
      mapMethod ⟨overridingIndex, strayMappings⟩ "Sub" "hidden" "()V" = .ok "hidden" ∧
      mapField ⟨overridingIndex, strayMappings⟩ "Base" "count" "I" =
        mapField ⟨overridingIndex, overridingMappings⟩ "Base" "count" "I" := by
  obtain ⟨hsub, -, hcount⟩ := declares_overriding
  have hagree : ∀ owner : BinaryName, strayMappings.member? .method owner.text runKey =
      overridingMappings.member? .method owner.text runKey := by
    intro owner
    have hne : hiddenKey.name ≠ runKey.name := by decide
    exact (MappingSet.member?_insertMethod _).trans (if_neg (by simp [hne]))
  have hhidden : strayMappings.member? .method subName.text hiddenKey = none := by
    have hne : baseName ≠ subName := by decide
    have hstray := @MappingSet.member?_insertMethod overridingMappings subName hiddenKey
      runKey.name ⟨baseName, hiddenKey.name, "()V"⟩
    rw [if_neg (by simp [hne])] at hstray
    refine hstray.trans ?_
    simp [overridingMappings, MappingSet.member?_insertMethod, MappingSet.member?_empty, hne]
  have hfield : ∀ owner : String, owner = "Base" → strayMappings.member? .field owner countKey =
      overridingMappings.member? .field owner countKey := by
    rintro owner rfl
    exact @MappingSet.member?_insertField_of_ne _ baseName countKey _ ⟨subName, countKey.name, none⟩
      (by decide)
  have hfound : (Resolver.resolve ⟨overridingIndex, ∅⟩ "Base" .field countKey).1 = some baseName := by
    obtain ⟨summary, hg, hd⟩ := hcount
    rw [asked_overriding.resolve_eq made_overriding.keyed]
    exact findOwner_self made_overriding.keyed hg hd
  obtain ⟨hrun, -, -⟩ := @member_mappings_local _ _ strayMappings overridingMappings made_overriding
    asked_overriding runKey
  obtain ⟨-, hclosed, -⟩ := @member_mappings_local _ _ strayMappings overridingMappings
    made_overriding asked_overriding hiddenKey
  obtain ⟨-, -, hfields⟩ := @member_mappings_local _ _ strayMappings overridingMappings
    made_overriding asked_overriding countKey
  refine ⟨hrun subName hsub (hagree _) fun y _ _ => hagree y,
    (hclosed subName closed_overriding).2 hhidden, hfields "Base" ?_ ?_⟩
  · intro declaring hd
    rw [hfound] at hd
    cases hd
    exact hfield _ rfl
  · intro _
    exact hfield _ rfl

end Remapper

end JarRename
