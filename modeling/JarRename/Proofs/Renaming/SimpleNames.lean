import Mathlib
import JarRename.Proofs.Mapping.NestedClasses
import JarRename.Proofs.Renaming.InnerClasses

/-!
# Simple names of classes that follow the class around them

A class without an entry follows the nearest class around it that has one. Its simple name is read
off its new name all the same: it is what stands below the outer class that is recorded, or else
what stands behind the last dollar sign and the digits there. The simple name stays where this
finds it again.
-/
namespace JarRename

open Text Name

/-- `nested` stands behind the name of the outer class and a dollar sign. -/
def NamedBelow (inner : String) (outer : Option String) (nested : String) : Prop :=
  ∃ name, outer = some name ∧ inner = name ++ "$" ++ nested ∧ nested ≠ ""

/-- A class name without its package. -/
def classPart (name : List Char) : List Char :=
  match cutLast? '/' name with
  | some (_, className) => className
  | none => name

section SimpleName

variable {inner nested : String} {outer : Option String}

theorem simpleName_of_namedBelow (h : NamedBelow inner outer nested) :
    simpleName inner outer = nested := by
  obtain ⟨name, rfl, rfl, hne⟩ := h
  have hlist : nested.toList ≠ [] := by simpa using hne
  have hbelow := simpleName_below name hlist
  rwa [String.ofList_toList] at hbelow

/-- The outer class does not count where it does not stand in front. -/
theorem simpleName_of_not_namedBelow (h : ∀ nested, ¬NamedBelow inner outer nested) :
    simpleName inner outer = String.ofList (nestedPart (classPart inner.toList)) := by
  cases outer with
  | none => rfl
  | some name =>
    -- with more than a dollar sign behind it, the outer class would stand in front
    have hempty : ∀ nested, dropPrefix? name.toList inner.toList = some ('$' :: nested) →
        nested.isEmpty = true := by
      intro nested hdrop
      by_contra hne
      refine h (String.ofList nested) ⟨name, rfl, ?_, by simpa using hne⟩
      apply String.toList_injective
      simp [eq_append_of_dropPrefix? hdrop]
    simp only [simpleName]
    split
    · rename_i nested hbelow
      split at hbelow
      · rename_i hdrop
        rw [hempty _ hdrop] at hbelow
        cases hbelow
      · cases hbelow
    · rfl

theorem not_mem_of_cutLast? {mark : Char} {cs : List Char} (h : cutLast? mark cs = none) :
    mark ∉ cs := by
  have hnot := not_mem_of_cut? (Option.map_eq_none_iff.1 h)
  simpa using hnot

/-- A dollar sign behind which no slash stands is one of the class name itself. -/
theorem classPart_append {front rest : List Char} (h : '/' ∉ rest) :
    ∃ front', classPart (front ++ '$' :: rest) = front' ++ '$' :: rest := by
  have hrest : '/' ∉ '$' :: rest := by simpa using h
  cases hcut : cutLast? '/' front with
  | none =>
    have hall : cutLast? '/' (front ++ '$' :: rest) = none := by
      rw [Option.eq_none_iff_forall_ne_some]
      rintro ⟨package, className⟩ hsome
      have hmem : '/' ∈ front ++ '$' :: rest := by
        rw [(eq_append_of_cutLast? hsome).1]
        simp
      obtain hm | hm := List.mem_append.1 hmem
      · exact not_mem_of_cutLast? hcut hm
      · exact hrest hm
    exact ⟨front, by rw [classPart, hall]⟩
  | some cut =>
    obtain ⟨package, className⟩ := cut
    obtain ⟨rfl, hc⟩ := eq_append_of_cutLast? hcut
    have hlast : '/' ∉ className ++ '$' :: rest := by
      rw [List.mem_append]
      exact fun hm => hm.elim hc hrest
    have hall := cutLast?_append hlast package
    exact ⟨className, by rw [classPart, List.append_assoc, List.cons_append, hall]⟩

theorem nestedPart_suffix {cs front nested : List Char}
    (h : cutLast? '$' cs = some (front, nested)) : nestedPart cs <:+ nested := by
  simp only [nestedPart, h]
  split
  · exact List.suffix_rfl
  · exact List.dropWhile_suffix _

/-- Behind digits a simple name is found again, unless it has a dollar sign of its own. -/
theorem nestedPart_append_iff {front digits simple : List Char}
    (hd : ∀ c ∈ digits, c.isDigit = true) (hne : simple ≠ [])
    (hletter : ∀ c, simple.head? = some c → c.isDigit = false) :
    nestedPart (front ++ '$' :: (digits ++ simple)) = simple ↔ '$' ∉ simple := by
  constructor
  · intro heq hm
    cases hcut : cutLast? '$' simple with
    | none => exact not_mem_of_cutLast? hcut hm
    | some cut =>
      obtain ⟨before, nested⟩ := cut
      obtain ⟨hsimple, hlast⟩ := eq_append_of_cutLast? hcut
      have hwhole : cutLast? '$' (front ++ '$' :: (digits ++ simple)) =
          some (front ++ '$' :: (digits ++ before), nested) := by
        rw [hsimple, ← cutLast?_append hlast]
        simp
      have hlength := (nestedPart_suffix hwhole).length_le
      rw [heq, hsimple, List.length_append, List.length_cons] at hlength
      omega
  · intro hm
    have hlast : '$' ∉ digits ++ simple := by
      rw [List.mem_append]
      rintro (hdollar | hdollar)
      · exact absurd (hd '$' hdollar) (by decide)
      · exact hm hdollar
    obtain ⟨c, rest, rfl⟩ := List.exists_cons_of_ne_nil hne
    have hdrop : (digits ++ c :: rest).dropWhile Char.isDigit = c :: rest := by
      rw [List.dropWhile_append_of_pos hd, List.dropWhile_cons_of_neg (by simp [hletter c rfl])]
    simp only [nestedPart, cutLast?_append hlast, hdrop]

/-- The last part of a name is empty only if nothing stands behind the slash or dollar sign. -/
theorem nestedPart_classPart_ne_nil {name : List Char} {c : Char} (h : name.getLast? = some c)
    (hslash : c ≠ '/') (hdollar : c ≠ '$') : nestedPart (classPart name) ≠ [] := by
  have hclass : (classPart name).getLast? = some c := by
    rw [classPart]
    split
    · rename_i package className hcut
      rw [(eq_append_of_cutLast? hcut).1, List.getLast?_append, List.getLast?_cons] at h
      cases hlast : className.getLast? with
      | none =>
        rw [hlast] at h
        cases h
        exact absurd rfl hslash
      | some d => simpa [hlast] using h
    · exact h
  cases hcut : cutLast? '$' (classPart name) with
  | none =>
    simp only [nestedPart, hcut]
    rintro hnil
    rw [hnil] at hclass
    cases hclass
  | some cut =>
    obtain ⟨front, nested⟩ := cut
    have hnested : nested ≠ [] := by
      rintro rfl
      have hlast : '$' = c := by
        rw [(eq_append_of_cutLast? hcut).1] at hclass
        simpa using hclass
      exact hdollar hlast.symm
    simp only [nestedPart, hcut]
    split
    · exact hnested
    · rename_i hne
      exact hne

end SimpleName

theorem UnqualifiedName.text_ne_empty (name : UnqualifiedName) : name.text ≠ "" := by
  have hne := (partError?_eq_none_iff.1 name.valid).1
  simpa using hne

/-- The class `inner` is the class `simple` in `around`, behind digits if it is a local one, and
gets its new name from `around` or from a class around that. -/
structure Follows (set : MappingSet) (inner around digits : String) (simple : UnqualifiedName) :
    Prop where
  spelled : inner = around ++ "$" ++ digits ++ simple.text
  digits : ∀ c ∈ digits.toList, c.isDigit = true
  letter : ∀ c, simple.text.toList.head? = some c → c.isDigit = false
  near : ∃ near mapped, ClassTable.Nearest NamesClass set.classes inner.toList near mapped ∧
    near.text.toList <+: around.toList

namespace Follows

variable {set : MappingSet} {inner around digits : String} {simple : UnqualifiedName}

theorem toList_eq (h : Follows set inner around digits simple) :
    inner.toList = around.toList ++ '$' :: (digits.toList ++ simple.text.toList) := by
  rw [h.spelled]
  simp

/-- The new name of the class around stands in front of the same rest. -/
theorem mapClass_eq (h : Follows set inner around digits simple) :
    set.mapClass inner = set.mapClass around ++ "$" ++ digits ++ simple.text := by
  obtain ⟨near, mapped, hnear, between, hb⟩ := h.near
  have hlist := h.toList_eq
  have hleft := hnear.left
  rw [hlist] at hleft
  obtain ⟨haround, hinner⟩ := hleft.split ⟨between, hb⟩
  have hsame : ClassTable.Nearest NamesClass set.classes around.toList near mapped := by
    refine ⟨haround, hnear.entry, fun other own hl hg => hnear.longest other own ?_ hg⟩
    rw [hlist]
    exact hl.trans hinner
  have hwhole : near.text.toList ++ (between ++ '$' :: (digits.toList ++ simple.text.toList)) =
      inner.toList := by
    rw [hlist, ← hb, List.append_assoc]
  apply String.toList_injective
  simp [MappingSet.mapClass, hnear.mapName_append hwhole, hsame.mapName_append hb]

/-- Such a class is no array. -/
theorem mapClassConstant_eq (h : Follows set inner around digits simple) {r : Remapper}
    (hr : r.mappings = set) : r.mapClassConstant inner = .ok (set.mapClass inner) := by
  obtain ⟨near, mapped, hnear, -⟩ := h.near
  obtain ⟨rest, hrest⟩ := hnear.left.isPrefix
  have hhead : inner.toList.head? ≠ some '[' := by
    rw [← hrest, List.head?_append_of_ne_nil _ (ClassTable.ne_nil near)]
    exact head?_ne_bracket near.valid
  rw [Remapper.mapClassConstant, if_neg hhead, Remapper.mapClass, hr]

/-- The outer class that stands in front with the simple name behind it is the one around. -/
theorem eq_simple_iff (h : Follows set inner around digits simple) {name nested : String}
    (hs : set.mapClass inner = name ++ "$" ++ nested) :
    nested = simple.text ↔ name = set.mapClass around ∧ digits = "" := by
  have hlists : (set.mapClass around).toList ++ '$' :: digits.toList ++ simple.text.toList =
      name.toList ++ ['$'] ++ nested.toList := by
    have hboth := congrArg String.toList (h.mapClass_eq.symm.trans hs)
    simpa using hboth
  constructor
  · rintro rfl
    have hfront := List.append_cancel_right hlists
    obtain hnil | ⟨init, c, hlast⟩ := List.eq_nil_or_concat' digits.toList
    · rw [hnil] at hfront
      exact ⟨String.toList_injective (List.append_cancel_right hfront).symm, by simpa using hnil⟩
    · have hdollar : c = '$' := by
        have hend : ((set.mapClass around).toList ++ '$' :: init) ++ [c] =
            name.toList ++ ['$'] := by
          rw [← hfront, hlast]
          simp
        exact List.singleton_inj.1 (List.append_inj' hend rfl).2
      have hdigit := h.digits c (by simp [hlast])
      rw [hdollar] at hdigit
      cases hdigit
  · rintro ⟨rfl, rfl⟩
    exact (String.toList_injective (List.append_cancel_left hlists)).symm

/-- The simple name that is read off the new name is the old one if the recorded outer class is the
one around, or if no recorded one stands in front and the name is in one part. -/
theorem simpleName_eq_iff (h : Follows set inner around digits simple) (outer : Option String) :
    simpleName (set.mapClass inner) outer = simple.text ↔
      (outer = some (set.mapClass around) ∧ digits = "") ∨
        ((∀ nested, ¬NamedBelow (set.mapClass inner) outer nested) ∧
          '$' ∉ simple.text.toList) := by
  by_cases hbelow : ∃ nested, NamedBelow (set.mapClass inner) outer nested
  · obtain ⟨nested, hnested⟩ := hbelow
    rw [simpleName_of_namedBelow hnested]
    have hcount : ¬∀ nested, ¬NamedBelow (set.mapClass inner) outer nested :=
      fun hnone => hnone nested hnested
    obtain ⟨name, rfl, hspelled, -⟩ := hnested
    rw [h.eq_simple_iff hspelled, Option.some.injEq]
    simp only [hcount, false_and, or_false]
  · have hnone : ∀ nested, ¬NamedBelow (set.mapClass inner) outer nested :=
      fun nested hn => hbelow ⟨nested, hn⟩
    have haround : ¬(outer = some (set.mapClass around) ∧ digits = "") := by
      rintro ⟨rfl, rfl⟩
      refine hnone simple.text ⟨_, rfl, ?_, simple.text_ne_empty⟩
      rw [h.mapClass_eq]
      simp
    have hslash : '/' ∉ digits.toList ++ simple.text.toList := by
      rw [List.mem_append]
      rintro (hm | hm)
      · exact absurd (h.digits '/' hm) (by decide)
      · exact absurd ((partError?_eq_none_iff.1 simple.valid).2 '/' hm) (by decide)
    have hlist : (set.mapClass inner).toList =
        (set.mapClass around).toList ++ '$' :: (digits.toList ++ simple.text.toList) := by
      rw [h.mapClass_eq]
      simp
    obtain ⟨front, hfront⟩ := @classPart_append (set.mapClass around).toList _ hslash
    have hiff := @nestedPart_append_iff front _ _ h.digits
      (partError?_eq_none_iff.1 simple.valid).1 h.letter
    rw [simpleName_of_not_namedBelow hnone, hlist, hfront, ← String.toList_inj,
      String.toList_ofList, hiff]
    simp only [haround, hnone, false_or, not_false_eq_true, implies_true, true_and]

end Follows

namespace Renaming

open ConstantPool

/-- When an entry whose class follows the one around it keeps its simple name, and when the simple
name of an entry whose class is renamed cannot be empty. -/
structure SimpleNamesRead (set : MappingSet) (old new : ConstantPool)
    (before after : InnerClass) : Prop where
  kept_iff : ∀ inner around digits simple i, old.className before.inner = .ok inner →
    before.simpleName = some i → old.text i = .ok simple.text →
      Follows set inner around digits simple → set.mapClass inner ≠ inner →
        ∃ outer text, Written new before after outer text ∧
          (text = simple.text ↔ (outer = some (set.mapClass around) ∧ digits = "") ∨
            ((∀ nested, ¬NamedBelow (set.mapClass inner) outer nested) ∧
              '$' ∉ simple.text.toList))
  filled : ∀ inner mapped i, old.className before.inner = .ok inner →
    new.className before.inner = .ok mapped → before.simpleName = some i → mapped ≠ inner →
      ∃ outer text, Written new before after outer text ∧
        ((∃ nested, NamedBelow mapped outer nested) ∨
          (∃ c, mapped.toList.getLast? = some c ∧ c ≠ '/' ∧ c ≠ '$') → text ≠ "")

theorem simpleName_ne_empty {mapped : String} {outer : Option String}
    (h : (∃ nested, NamedBelow mapped outer nested) ∨
      ∃ c, mapped.toList.getLast? = some c ∧ c ≠ '/' ∧ c ≠ '$') :
    simpleName mapped outer ≠ "" := by
  by_cases hbelow : ∃ nested, NamedBelow mapped outer nested
  · obtain ⟨nested, hnested⟩ := hbelow
    rw [simpleName_of_namedBelow hnested]
    obtain ⟨-, -, -, hne⟩ := hnested
    exact hne
  · obtain ⟨c, hc, hslash, hdollar⟩ := h.resolve_left hbelow
    rw [simpleName_of_not_namedBelow fun nested hn => hbelow ⟨nested, hn⟩]
    have hne := nestedPart_classPart_ne_nil hc hslash hdollar
    simpa using hne

theorem InnerClassNamed.simpleNamesRead {r : Remapper} {file renamed : ClassFile}
    {old : ConstantPool} {before after : InnerClass} (hold : OldPool r file renamed old)
    (h : InnerClassNamed old renamed.pool before after) :
    SimpleNamesRead r.mappings old renamed.pool before after := by
  constructor
  · intro inner around digits simple i hclass hi _ hf hne
    obtain ⟨mapped, hmap, hnew⟩ := hold.mapped before.inner inner hclass
    rw [hf.mapClassConstant_eq rfl, Except.ok.injEq] at hmap
    subst hmap
    obtain ⟨outer, hw⟩ := h.written hi hclass hnew hne
    exact ⟨outer, _, hw, hf.simpleName_eq_iff outer⟩
  · intro inner mapped i hclass hnew hi hne
    obtain ⟨outer, hw⟩ := h.written hi hclass hnew hne
    exact ⟨outer, _, hw, simpleName_ne_empty⟩

/-- Where a class follows the one around it, its simple name stays if it is what stands below the
recorded class around, or else what stands behind the last dollar sign and the digits there. A name
that is read is not empty, unless the new name of the class ends with a dollar sign or a slash. -/
theorem simpleNames_read {r : Remapper} {file renamed : ClassFile} {name : String}
    (hp : file.pool.Reachable) (h : r.renameClass file = .ok (name, renamed)) :
    ∃ old, OldPool r file renamed old ∧
      ClassTablesRelated old (SimpleNamesRead r.mappings old renamed.pool) file renamed :=
  @tables_related r file renamed name (SimpleNamesRead r.mappings)
    (fun _ _ _ hold hn => hn.simpleNamesRead hold) hp.sound h

section Sample

variable {name mapped : BinaryName} {simple : UnqualifiedName} {digits : String}

/-- With one mapping, only the class that it is for has an entry to follow. -/
theorem follows_oneClass (hd : ∀ c ∈ digits.toList, c.isDigit = true)
    (hl : ∀ c, simple.text.toList.head? = some c → c.isDigit = false)
    (left : LeftOf NamesClass name.text.toList
      (name.text ++ "$" ++ digits ++ simple.text).toList) :
    Follows (oneClass name mapped).mappings (name.text ++ "$" ++ digits ++ simple.text) name.text
      digits simple := by
  refine ⟨rfl, hd, hl, name, mapped, ⟨left, ?_, fun other own _ hg => ?_⟩, List.prefix_rfl⟩
  · exact (class?_oneClass name mapped name.text).trans (if_pos rfl)
  · have hentry := (class?_oneClass name mapped other.text).symm.trans hg
    split_ifs at hentry with hname
    rw [hname]

theorem mapClass_oneClass_follows {inner : String}
    (h : Follows (oneClass name mapped).mappings inner name.text digits simple) :
    (oneClass name mapped).mappings.mapClass inner =
      mapped.text ++ "$" ++ digits ++ simple.text := by
  have hentry : (oneClass name mapped).mappings.class? name.text = some mapped := by
    rw [class?_oneClass, if_pos rfl]
  rw [h.mapClass_eq, MappingSet.mapClass_of_class? hentry]

/-- The entry of `nestedClass` has the simple name `text` in the class that comes out. -/
def NestedGets (r : Remapper) (inner simple : String) (outer : Option PoolIndex) (text : String) :
    Prop :=
  ∃ name renamed info j, r.renameClass (nestedClass inner simple outer) = .ok (name, renamed) ∧
    renamed.attributes = [⟨3, info⟩] ∧
    AttributeBody.decode .innerClasses "InnerClasses" info =
      .ok (.innerClasses [⟨2, outer, some j, 0⟩]) ∧ renamed.pool.text j = .ok text

theorem nestedGets {r : Remapper} {inner mapped simple : String} (hb : r.mappings.Brief)
    (hr : Renames r inner mapped) (hi : Short inner) (hs : Short simple) {outer : Option PoolIndex}
    (ho : outer = none ∨ outer = some 6) :
    NestedGets r inner simple outer (simpleName mapped (outer.map fun _ => "o")) := by
  obtain ⟨renamed, hrenamed⟩ := renameClass_nested hb hr hi hs ho
  have hsound := (reachable_nestedPool inner simple).sound
  obtain ⟨old, hold, htables⟩ := @tables_related r _ renamed mapped InnerClassNamed
    (fun _ _ _ _ hn => hn) hsound hrenamed
  obtain ⟨hbefore, hafter, htext, -, hother⟩ := hold.nested hr hi hs
  obtain ⟨info, entry, hlist, hdecode, hentry⟩ := entry_nested htables.attributes htext ho
  obtain ⟨around, hread, j, hj, hwritten⟩ := hentry.written rfl hbefore hafter hr.changed
  have haround : around = outer.map fun _ => "o" := by
    obtain rfl | rfl := ho
    · cases hread
      rfl
    · cases hread with
      | @some _ found hfound =>
        rw [hother, Except.ok.injEq] at hfound
        rw [← hfound]
        rfl
  have hframe := hentry.consistent.frame
  rw [hj] at hframe
  rw [hframe] at hdecode
  exact ⟨mapped, renamed, info, j, hrenamed, hlist, hdecode, haround ▸ hwritten⟩

/-- The class of `nestedClass` follows the one that the mapping is for. -/
theorem nestedGets_follows {inner : String}
    (h : Follows (oneClass name mapped).mappings inner name.text digits simple)
    (hne : mapped.text ≠ name.text) (hother : name.text ≠ "o") {outer : Option PoolIndex}
    (ho : outer = none ∨ outer = some 6) (hi : Short inner) (hs : Short simple.text)
    (hm : Short (mapped.text ++ "$" ++ digits ++ simple.text)) :
    NestedGets (oneClass name mapped) inner simple.text outer
      (simpleName (mapped.text ++ "$" ++ digits ++ simple.text) (outer.map fun _ => "o")) := by
  have hmaps := h.mapClassConstant_eq rfl
  have hchanged : mapped.text ++ "$" ++ digits ++ simple.text ≠ inner := by
    rw [h.spelled]
    simpa using hne
  rw [mapClass_oneClass_follows h] at hmaps
  exact nestedGets (brief_oneClass name mapped)
    ⟨hmaps, hchanged, hm, mapClassConstant_oneClass_other hother⟩ hi hs ho

theorem follows_local (hname : name.text = "a") (hsimple : simple.text = "x") :
    Follows (oneClass name mapped).mappings "a$1x" "a" "1" simple := by
  have hleft : LeftOf NamesClass ['a'] (['a'] ++ '$' :: ['1', 'x']) :=
    .drop .self (by decide) (by decide) (by decide)
  have hf := @follows_oneClass name mapped simple "1" (by simp) (by simp [hsimple])
    (by rw [hname, hsimple]; simpa using hleft)
  rw [hname, hsimple] at hf
  exact hf

theorem follows_local_dollar (hname : name.text = "a") (hsimple : simple.text = "x$y") :
    Follows (oneClass name mapped).mappings "a$1x$y" "a" "1" simple := by
  have hfirst : LeftOf NamesClass ['a'] (['a'] ++ '$' :: ['1', 'x']) :=
    .drop .self (by decide) (by decide) (by decide)
  have hleft : LeftOf NamesClass ['a'] (['a', '$', '1', 'x'] ++ '$' :: ['y']) :=
    .drop hfirst (by decide) (by decide) (by decide)
  have hf := @follows_oneClass name mapped simple "1" (by simp) (by simp [hsimple])
    (by rw [hname, hsimple]; simpa using hleft)
  rw [hname, hsimple] at hf
  exact hf

/-- A simple name with a dollar sign is cut off at it, digits below the class around become part of
the name, and where the new name ends with a dollar sign, nothing is left. -/
theorem simpleNames_lost :
    (∃ name mapped simple, name.text = "a" ∧ mapped.text = "o" ∧ simple.text = "x$y" ∧
      (oneClass name mapped).mappings.class? "a$1x$y" = none ∧
      Follows (oneClass name mapped).mappings "a$1x$y" "a" "1" simple ∧
      NestedGets (oneClass name mapped) "a$1x$y" "x$y" none "y") ∧
    (∃ name mapped simple, name.text = "a" ∧ mapped.text = "o" ∧ simple.text = "x" ∧
      (oneClass name mapped).mappings.class? "a$1x" = none ∧
      Follows (oneClass name mapped).mappings "a$1x" "a" "1" simple ∧
      NestedGets (oneClass name mapped) "a$1x" "x" (some 6) "1x") ∧
    ∃ name mapped, name.text = "a" ∧ mapped.text = "o$" ∧
      NestedGets (oneClass name mapped) "a" "a" none "" := by
  obtain ⟨name, hname⟩ : ∃ name : BinaryName, name.text = "a" := ⟨⟨"a", by decide +kernel⟩, rfl⟩
  obtain ⟨mapped, hmapped⟩ : ∃ mapped : BinaryName, mapped.text = "o" :=
    ⟨⟨"o", by decide +kernel⟩, rfl⟩
  obtain ⟨mark, hmark⟩ : ∃ mark : BinaryName, mark.text = "o$" :=
    ⟨⟨"o$", by decide +kernel⟩, rfl⟩
  have hnone : ∀ own, "a" ≠ own → (oneClass name mapped).mappings.class? own = none := by
    intro own hown
    rw [class?_oneClass, hname, if_neg hown]
  have hother : name.text ≠ "o" := by
    rw [hname]
    decide
  have hchanged : mapped.text ≠ name.text ∧ mark.text ≠ name.text := by
    rw [hname, hmapped, hmark]
    decide
  refine ⟨?_, ?_, ?_⟩
  · obtain ⟨simple, hsimple⟩ : ∃ simple : UnqualifiedName, simple.text = "x$y" :=
      ⟨⟨"x$y", by decide +kernel⟩, rfl⟩
    have hf := @follows_local_dollar name mapped simple hname hsimple
    refine ⟨name, mapped, simple, hname, hmapped, hsimple, hnone _ (by decide), hf, ?_⟩
    rw [← hname] at hf
    have hgets := nestedGets_follows hf hchanged.1 hother (.inl rfl)
    rw [hmapped, hsimple] at hgets
    exact hgets (by decide +kernel) (by decide +kernel) (by decide +kernel)
  · obtain ⟨simple, hsimple⟩ : ∃ simple : UnqualifiedName, simple.text = "x" :=
      ⟨⟨"x", by decide +kernel⟩, rfl⟩
    have hf := @follows_local name mapped simple hname hsimple
    refine ⟨name, mapped, simple, hname, hmapped, hsimple, hnone _ (by decide), hf, ?_⟩
    rw [← hname] at hf
    have hgets := nestedGets_follows hf hchanged.1 hother (.inr rfl)
    rw [hmapped, hsimple] at hgets
    exact hgets (by decide +kernel) (by decide +kernel) (by decide +kernel)
  · have hentry : (oneClass name mark).mappings.class? name.text = some mark := by
      rw [class?_oneClass, if_pos rfl]
    have hshort : Short mark.text := by
      rw [hmark]
      decide +kernel
    have hr := renames_oneClass hother (MappingSet.mapClass_of_class? hentry) hchanged.2 hshort
    rw [hname, hmark] at hr
    have hsmall : Short "a" := by decide +kernel
    exact ⟨name, mark, hname, hmark,
      nestedGets (brief_oneClass name mark) hr hsmall hsmall (.inl rfl)⟩

/-- A local class follows the one around it, which is not recorded, and keeps its simple name. -/
theorem simpleNames_read_local : ∃ name mapped simple renamed info entry j,
    name.text = "a" ∧ mapped.text = "o" ∧ simple.text = "x" ∧
      (nestedClass "a$1x" "x" none).pool.Reachable ∧
      (oneClass name mapped).renameClass (nestedClass "a$1x" "x" none) = .ok ("o$1x", renamed) ∧
      Follows (oneClass name mapped).mappings "a$1x" "a" "1" simple ∧
      renamed.attributes = [⟨3, info⟩] ∧
      AttributeBody.decode .innerClasses "InnerClasses" info = .ok (.innerClasses [entry]) ∧
      entry.simpleName = some j ∧ renamed.pool.text j = .ok "x" := by
  obtain ⟨name, hname⟩ : ∃ name : BinaryName, name.text = "a" := ⟨⟨"a", by decide +kernel⟩, rfl⟩
  obtain ⟨mapped, hmapped⟩ : ∃ mapped : BinaryName, mapped.text = "o" :=
    ⟨⟨"o", by decide +kernel⟩, rfl⟩
  obtain ⟨simple, hsimple⟩ : ∃ simple : UnqualifiedName, simple.text = "x" :=
    ⟨⟨"x", by decide +kernel⟩, rfl⟩
  have hshort : Short "a$1x" ∧ Short "x" ∧ Short "o$1x" := by decide +kernel
  have hother : name.text ≠ "o" := by
    rw [hname]
    decide
  have hf := @follows_local name mapped simple hname hsimple
  have hmap : (oneClass name mapped).mappings.mapClass "a$1x" = "o$1x" := by
    rw [mapClass_oneClass_follows (hname.symm ▸ hf), hmapped, hsimple]
    rfl
  have hr : Renames (oneClass name mapped) "a$1x" "o$1x" :=
    ⟨hmap ▸ hf.mapClassConstant_eq rfl, by decide, hshort.2.2,
      mapClassConstant_oneClass_other hother⟩
  have hreach : (nestedClass "a$1x" "x" none).pool.Reachable := reachable_nestedPool "a$1x" "x"
  obtain ⟨renamed, hrenamed⟩ :=
    renameClass_nested (brief_oneClass name mapped) hr hshort.1 hshort.2.1 (.inl rfl)
  obtain ⟨old, hold, htables⟩ := simpleNames_read hreach hrenamed
  obtain ⟨hbefore, -, htext, hsimpleBefore, -⟩ := hold.nested hr hshort.1 hshort.2.1
  obtain ⟨info, entry, hlist, hdecode, hread⟩ :=
    entry_nested htables.attributes htext (.inl rfl)
  rw [← hsimple] at hsimpleBefore
  obtain ⟨outer, text, ⟨hread, j, hj, hwritten⟩, hiff⟩ :=
    hread.kept_iff "a$1x" "a" "1" simple 4 hbefore rfl hsimpleBefore hf (by rw [hmap]; decide)
  cases hread
  have hkept : text = "x" := by
    rw [← hsimple]
    refine hiff.2 (.inr ⟨?_, by simp [hsimple]⟩)
    rintro nested ⟨around, hnone, -⟩
    cases hnone
  exact ⟨name, mapped, simple, renamed, info, entry, j, hname, hmapped, hsimple, hreach, hrenamed,
    hf, hlist, hdecode, hj, hkept ▸ hwritten⟩

end Sample

end Renaming

end JarRename
