import Mathlib
import JarRename.Proofs.Hierarchy.Owners

/-!
# Images of an index

An image of an index has other names for the classes and other keys for the members. As long as no
two known classes get one name, the two searches for a member go through the same classes in step,
and a cycle in the image is one in the index.
-/
namespace JarRename

open Relation

section

variable (rename : BinaryName → BinaryName)
  (moved : MemberKind → BinaryName → MemberKey → MemberKey → Prop)

/-- What the summary of a class becomes. A key may be `moved` in another way in each class. -/
structure SummaryRenamed (before after : ClassSummary) : Prop where
  name : after.name = rename before.name
  supertypes : after.supertypes = before.supertypes.map rename
  declared : ∀ kind key, before.declares kind key = true →
    ∃ key', moved kind before.name key key' ∧ after.declares kind key' = true
  declares : ∀ kind key', after.declares kind key' = true →
    ∃ key, before.declares kind key = true ∧ moved kind before.name key key'

namespace ClassIndex

/-- The names of the indexed classes and of their supertypes. -/
def Mentions (index : ClassIndex) (name : BinaryName) : Prop :=
  (∃ summary, index.get? name = some summary) ∨ ∃ sub, index.Extends sub name

structure Image (index image : ClassIndex) : Prop where
  injective : Set.InjOn rename {name | index.Mentions name}
  size : image.size = index.size
  get : ∀ name summary, index.get? name = some summary →
    ∃ summary', image.get? (rename name) = some summary' ∧
      SummaryRenamed rename moved summary summary'
  only : ∀ name' summary', image.get? name' = some summary' →
    ∃ name summary, index.get? name = some summary ∧ rename name = name'

/-- The same known classes are marked in both walks. -/
def Alike (index : ClassIndex) (seen seen' : Std.HashSet BinaryName) : Prop :=
  ∀ name, index.Mentions name → seen'.contains (rename name) = seen.contains name

end ClassIndex

end

namespace ClassIndex

variable {rename : BinaryName → BinaryName}
  {moved : MemberKind → BinaryName → MemberKey → MemberKey → Prop} {index image : ClassIndex}

theorem mentions_of_mem {summary : ClassSummary} {name super : BinaryName}
    (h : index.get? name = some summary) (hm : super ∈ summary.supertypes) :
    index.Mentions super :=
  .inr ⟨name, summary, h, hm⟩

theorem Alike.insert (hi : Set.InjOn rename {name | index.Mentions name})
    {seen seen' : Std.HashSet BinaryName} (h : index.Alike rename seen seen') {name : BinaryName}
    (hn : index.Mentions name) :
    index.Alike rename (seen.insert name) (seen'.insert (rename name)) := by
  intro other ho
  have hiff : rename name = rename other ↔ name = other :=
    ⟨fun heq => hi hn ho heq, fun heq => heq ▸ rfl⟩
  rw [Std.HashSet.contains_insert, Std.HashSet.contains_insert, h other ho]
  congr 1
  rw [Bool.eq_iff_iff, beq_iff_eq, beq_iff_eq, hiff]

theorem unseen_map (hi : Set.InjOn rename {name | index.Mentions name})
    {seen seen' : Std.HashSet BinaryName} (h : index.Alike rename seen seen')
    {names : List BinaryName} (hn : ∀ name ∈ names, index.Mentions name) :
    (unseen seen' (names.map rename)).1 = (unseen seen names).1.map rename ∧
      index.Alike rename (unseen seen names).2 (unseen seen' (names.map rename)).2 := by
  induction names generalizing seen seen' with
  | nil => exact ⟨rfl, h⟩
  | cons name names ih =>
    have hname := hn name (by simp)
    have hrest : ∀ other ∈ names, index.Mentions other := fun other ho => hn other (by simp [ho])
    rw [List.map_cons, unseen_cons, unseen_cons, h name hname]
    split
    · exact ih h hrest
    · obtain ⟨hfresh, hseen⟩ := ih (h.insert hi hname) hrest
      exact ⟨by simp [hfresh], hseen⟩

namespace Image

/-- A known class that is not indexed stays out of the image. -/
theorem get?_eq_none (h : Image rename moved index image) {name : BinaryName}
    (hm : index.Mentions name) (hn : index.get? name = none) : image.get? (rename name) = none := by
  rcases hg : image.get? (rename name) with _ | summary'
  · rfl
  · obtain ⟨other, summary, ho, heq⟩ := h.only _ summary' hg
    have hsame : other = name := h.injective (.inl ⟨summary, ho⟩) hm heq
    rw [hsame, hn] at ho
    cases ho

theorem filterMap_get? (h : Image rename moved index image) {names : List BinaryName}
    (hn : ∀ name ∈ names, index.Mentions name) :
    List.Forall₂ (SummaryRenamed rename moved) (names.filterMap index.get?)
      ((names.map rename).filterMap image.get?) := by
  induction names with
  | nil => exact .nil
  | cons name names ih =>
    have hi := ih fun other ho => hn other (by simp [ho])
    rw [List.map_cons, List.filterMap_cons, List.filterMap_cons]
    rcases hg : index.get? name with _ | summary
    · rw [h.get?_eq_none (hn name (by simp)) hg]
      exact hi
    · obtain ⟨summary', hg', hs⟩ := h.get name summary hg
      rw [hg']
      exact .cons hs hi

variable {kind : MemberKind} {member member' : MemberKey} {start owner : BinaryName}

/-- Both searches meet the same classes. The image of a class that does not declare the member does
not declare its image, and the image of the owner does. -/
theorem findOwnerFrom_eq (h : Image rename moved index image) (hk : index.Keyed)
    (hother : ∀ summary summary', index.get? summary.name = some summary →
      ReflTransGen index.Extends start summary.name → SummaryRenamed rename moved summary summary' →
        summary'.declares kind member' = true → summary.declares kind member = true)
    (howner : ∀ summary summary', index.get? owner = some summary →
      SummaryRenamed rename moved summary summary' → summary'.declares kind member' = true)
    {fuel : Nat} {queue queue' : List ClassSummary} {seen seen' : Std.HashSet BinaryName}
    (hreach : index.Reached start queue)
    (hq : List.Forall₂ (SummaryRenamed rename moved) queue queue')
    (hs : index.Alike rename seen seen')
    (hfind : index.findOwnerFrom kind member fuel queue seen = some owner) :
    image.findOwnerFrom kind member' fuel queue' seen' = some (rename owner) := by
  -- One step takes a class and its image off the queues and appends classes with their images.
  induction fuel generalizing queue queue' seen seen' with
  | zero => simp [findOwnerFrom] at hfind
  | succ fuel ih =>
    cases hq with
    | nil => simp [findOwnerFrom] at hfind
    | @cons summary summary' queue queue' hsum hq =>
      obtain ⟨hg, hr⟩ := hreach summary (by simp)
      rw [findOwnerFrom] at hfind
      rw [findOwnerFrom]
      split at hfind
      · cases hfind
        rw [if_pos (howner summary summary' hg hsum), hsum.name]
      · rename_i hd
        have hd' : ¬summary'.declares kind member' = true :=
          fun hd' => hd (hother summary summary' hg hr hsum hd')
        have hsuper : ∀ super ∈ summary.supertypes, index.Mentions super :=
          fun super hm => mentions_of_mem hg hm
        obtain ⟨hfresh, hseen⟩ := unseen_map h.injective hs hsuper
        have hnew : ∀ super ∈ (unseen seen summary.supertypes).1, index.Mentions super :=
          fun super hm => hsuper super (mem_unseen_iff.1 hm).1
        rw [if_neg hd', hsum.supertypes]
        dsimp only at hfind ⊢
        rw [hfresh]
        exact ih (hreach.step hk seen) (List.rel_append hq (h.filterMap_get? hnew)) hseen hfind

/-- The owner of a member becomes the owner of its image. -/
theorem findOwner_eq (h : Image rename moved index image) (hk : index.Keyed)
    (hfun : ∀ key₁ key₂, moved kind owner member key₁ → moved kind owner member key₂ → key₁ = key₂)
    (hdistinct : ∀ name summary key, ReflTransGen index.Extends start name →
      index.get? name = some summary → summary.declares kind key = true →
        moved kind name key member' → key = member)
    (hm : moved kind owner member member')
    (hfind : index.findOwner start.text kind member = some owner) :
    image.findOwner (rename start).text kind member' = some (rename owner) := by
  obtain ⟨declaring, ho, hd, -⟩ := declares_of_findOwner hk hfind
  rw [findOwner, find?_text] at hfind ⊢
  rcases hg : index.get? start with _ | summary
  · simp [hg] at hfind
  · rw [hg] at hfind
    obtain ⟨summary', hg', hs⟩ := h.get start summary hg
    have hname : summary.name = start := hk start summary hg
    rw [hg', h.size]
    dsimp only at hfind ⊢
    refine h.findOwnerFrom_eq hk ?_ ?_ (reached_start hk hg) (.cons hs .nil) ?_ hfind
    · intro other other' hother hreach hrenamed hd'
      obtain ⟨key, hkey, hmoved⟩ := hrenamed.declares kind member' hd'
      rw [← hdistinct other.name other key hreach hother hkey hmoved]
      exact hkey
    · intro other other' hother hrenamed
      rw [ho] at hother
      cases hother
      obtain ⟨key', hmoved, hd'⟩ := hrenamed.declared kind member hd
      rw [hk owner declaring ho] at hmoved
      rw [hfun member' key' hm hmoved]
      exact hd'
    · rw [hs.name]
      refine Alike.insert h.injective (fun _ _ => by simp) (.inl ⟨summary, ?_⟩)
      rw [hname, hg]

theorem exists_extends (h : Image rename moved index image) {name super' : BinaryName}
    (hn : index.Mentions name) (he : image.Extends (rename name) super') :
    ∃ super, index.Extends name super ∧ rename super = super' := by
  obtain ⟨summary', hg', hm⟩ := he
  rcases hg : index.get? name with _ | summary
  · simp [h.get?_eq_none hn hg] at hg'
  · obtain ⟨other, ho, hs⟩ := h.get name summary hg
    rw [ho] at hg'
    cases hg'
    rw [hs.supertypes] at hm
    obtain ⟨super, hsuper, heq⟩ := List.mem_map.1 hm
    exact ⟨super, ⟨summary, hg, hsuper⟩, heq⟩

/-- A way through supertypes of the image is the image of one. -/
theorem exists_transGen (h : Image rename moved index image) {name super' : BinaryName}
    (hn : index.Mentions name) (ht : TransGen image.Extends (rename name) super') :
    ∃ super, TransGen index.Extends name super ∧ rename super = super' := by
  induction ht with
  | single he =>
    obtain ⟨super, hs, heq⟩ := h.exists_extends hn he
    exact ⟨super, .single hs, heq⟩
  | tail _ he ih =>
    obtain ⟨mid, hmid, rfl⟩ := ih
    obtain ⟨sub, -, hlast⟩ := TransGen.tail'_iff.1 hmid
    obtain ⟨super, hs, heq⟩ := h.exists_extends (.inr ⟨sub, hlast⟩) he
    exact ⟨super, .tail hmid hs, heq⟩

theorem findCycle?_eq_none (h : Image rename moved index image) (hc : index.findCycle? = none) :
    image.findCycle? = none := by
  rcases hc' : image.findCycle? with _ | name'
  · rfl
  · have ht := transGen_of_findCycle? hc'
    obtain ⟨_, ⟨summary', hg', -⟩, -⟩ := TransGen.head'_iff.1 ht
    obtain ⟨name, summary, hg, rfl⟩ := h.only name' summary' hg'
    have hn : index.Mentions name := .inl ⟨summary, hg⟩
    -- The way back to the class ends at one of the same new name, so at the class itself.
    obtain ⟨super, hs, heq⟩ := h.exists_transGen hn ht
    obtain ⟨sub, -, hlast⟩ := TransGen.tail'_iff.1 hs
    have hsame : super = name := h.injective (.inr ⟨sub, hlast⟩) hn heq
    exact absurd (hsame ▸ hs) (not_transGen_of_findCycle? hc name)

end Image

end ClassIndex

end JarRename
