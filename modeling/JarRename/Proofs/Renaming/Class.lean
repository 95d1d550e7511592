import Mathlib
import JarRename.Proofs.ClassFormat
import JarRename.Proofs.Hierarchy.Index
import JarRename.Proofs.Renaming.SuccessfulClasses
import JarRename.Proofs.Signature.Descriptors

/-!
# Renamed classes

`ClassRenamed` puts together what becomes of the constants, the members and the attributes of a
class. All of it speaks of the pool `old`, which is the pool of the class before with the added
constants behind it, and of the pool of the class after.
-/
namespace JarRename.Renaming

open ConstantPool Stateful

/-- What the declaration of a field or method becomes. -/
structure DeclarationRenamed (r : Remapper) (kind : MemberKind) (className : String)
    (old new : ConstantPool) (before after : Member) : Prop where
  flags : after.flags = before.flags
  name : NameRenamed r kind className old new before.descriptor before.name after.name
  descriptor : TextRenamed r (descriptorKind kind) old new before.descriptor after.descriptor
  attributes : List.Forall₂ (AttributeRenamed r className old new) before.attributes
    after.attributes

structure ClassRenamed (r : Remapper) (className : String) (old : ConstantPool)
    (before after : ClassFile) : Prop where
  name : before.name = .ok className
  grows : before.pool.Grows old
  sound : after.pool.Sound
  constants : List.Forall₂ (fun entry renamed => renamed.1 = entry.1 ∧
    ConstantRenamed r old after.pool entry.2 renamed.2) old.slots.toList after.pool.slots.toList
  frame : after = { before with
    pool := after.pool, fields := after.fields, methods := after.methods,
    attributes := after.attributes }
  fields : List.Forall₂ (DeclarationRenamed r .field className old after.pool) before.fields
    after.fields
  methods : List.Forall₂ (DeclarationRenamed r .method className old after.pool) before.methods
    after.methods
  attributes : List.Forall₂ (AttributeRenamed r className old after.pool) before.attributes
    after.attributes

variable {names : Std.HashMap PoolIndex String} {ctx : Context}

theorem yields_renameMemberDeclaration (hc : ctx.oldNames = names) (kind : MemberKind)
    (member : Member) :
    Yields names (renameMemberDeclaration ctx kind member) fun old new member' =>
      DeclarationRenamed ctx.remapper kind ctx.className old new member member' := by
  refine (yields_text member.name).bind fun nameText => ?_
  refine (yields_text member.descriptor).bind fun descriptorText => ?_
  refine (yields_lift fun _ _ _ h => h).bind fun newName => ?_
  refine (yields_replaceText member.name nameText newName).bind fun name => ?_
  refine (yields_contextText (descriptorKind kind) member.descriptor).bind fun descriptor => ?_
  refine (yields_mapM member.attributes fun entry _ =>
    yields_renameAttribute hc entry).bind fun attributes => ?_
  exact yields_pure fun _ _ ha hd hn hm ht hnt =>
    ⟨rfl, ⟨nameText, descriptorText, newName, hnt.1, ht.1, hm, hn hnt.2⟩, hd, ha⟩

theorem yields_members (hc : ctx.oldNames = names) (fields methods : List Member)
    (attributes : List Attribute) :
    Yields names (do
      let fields ← fields.mapM (renameMemberDeclaration ctx .field)
      let methods ← methods.mapM (renameMemberDeclaration ctx .method)
      return (fields, methods, ← attributes.mapM (renameAttribute ctx))) fun old new parts =>
        List.Forall₂ (DeclarationRenamed ctx.remapper .field ctx.className old new) fields parts.1 ∧
        List.Forall₂ (DeclarationRenamed ctx.remapper .method ctx.className old new) methods
          parts.2.1 ∧
        List.Forall₂ (AttributeRenamed ctx.remapper ctx.className old new) attributes
          parts.2.2 := by
  refine (yields_mapM fields fun field _ =>
    yields_renameMemberDeclaration hc .field field).bind fun fields' => ?_
  refine (yields_mapM methods fun method _ =>
    yields_renameMemberDeclaration hc .method method).bind fun methods' => ?_
  refine (yields_mapM attributes fun entry _ =>
    yields_renameAttribute hc entry).bind fun attributes' => ?_
  exact yields_pure fun _ _ ha hm hf => ⟨hf, hm, ha⟩

variable {r : Remapper}

/-- The steps of renaming a class: its constants come first, then all that refers to them. -/
theorem renameClass_steps {file renamed : ClassFile} {name : String}
    (h : r.renameClass file = .ok (name, renamed)) :
    ∃ className names mid, file.name = .ok className ∧
      renameConstants r file.pool = (.ok names, mid) ∧
      (do
        let fields ← file.fields.mapM (renameMemberDeclaration ⟨r, className, names⟩ .field)
        let methods ← file.methods.mapM (renameMemberDeclaration ⟨r, className, names⟩ .method)
        return (fields, methods, ← file.attributes.mapM (renameAttribute ⟨r, className, names⟩)) :
          PoolM (List Member × List Member × List Attribute)) mid =
        (.ok (renamed.fields, renamed.methods, renamed.attributes), renamed.pool) ∧
      renamed.name = .ok name ∧ renamed = { file with
        pool := renamed.pool, fields := renamed.fields, methods := renamed.methods,
        attributes := renamed.attributes } := by
  obtain ⟨className, hn, hrun⟩ := Fallible.bind_ok_iff.1 h
  split at hrun
  · cases hrun
  rename_i fields methods attributes pool hr
  obtain ⟨found, hname, hpure⟩ := Fallible.bind_ok_iff.1 hrun
  cases hpure
  obtain ⟨names, mid, hconst, hrest⟩ := bind_ok_iff.1 hr
  exact ⟨className, names, mid, hn, hconst, hrest, hname, rfl⟩

/-- Everything that a class becomes, with the steps that lead there. -/
theorem renameClass_run {file renamed : ClassFile} {name : String} (hs : file.pool.Sound)
    (h : r.renameClass file = .ok (name, renamed)) :
    ∃ className names mid old, renameConstants r file.pool = (.ok names, mid) ∧ mid.Sound ∧
      (do
        let fields ← file.fields.mapM (renameMemberDeclaration ⟨r, className, names⟩ .field)
        let methods ← file.methods.mapM (renameMemberDeclaration ⟨r, className, names⟩ .method)
        return (fields, methods, ← file.attributes.mapM (renameAttribute ⟨r, className, names⟩)) :
          PoolM (List Member × List Member × List Attribute)) mid =
        (.ok (renamed.fields, renamed.methods, renamed.attributes), renamed.pool) ∧
      Between names renamed.pool old renamed.pool ∧ ClassRenamed r className old file renamed := by
  obtain ⟨className, names, mid, hn, hconst, hrest, -, hframe⟩ := renameClass_steps h
  obtain ⟨hms, hall⟩ := renameConstants_ok hs hconst
  obtain ⟨hps, hgrows, hparts⟩ :=
    @yields_members names ⟨r, className, names⟩ rfl _ _ _ mid _ renamed.pool hms hrest
  obtain ⟨old, hold, hbetween, hconstants⟩ := hall renamed.pool hps hgrows
  obtain ⟨hf, hm, ha⟩ := hparts old renamed.pool hbetween
  exact ⟨className, names, mid, old, hconst, hms, hrest, hbetween, hn, hold, hps, hconstants,
    hframe, hf, hm, ha⟩

/-- Everything that a class becomes. -/
theorem renameClass_ok {file renamed : ClassFile} {name : String} (hs : file.pool.Sound)
    (h : r.renameClass file = .ok (name, renamed)) :
    renamed.name = .ok name ∧ ∃ className old, ClassRenamed r className old file renamed := by
  obtain ⟨_, _, _, -, -, -, hname, -⟩ := renameClass_steps h
  obtain ⟨className, -, -, old, -, -, -, -, hr⟩ := renameClass_run hs h
  exact ⟨hname, className, old, hr⟩

namespace ClassRenamed

variable {own : String} {old : ConstantPool} {before after : ClassFile}

/-- What becomes of a constant of the class or an added one. -/
theorem get_old (h : ClassRenamed r own old before after) (hs : before.pool.Sound)
    {index : PoolIndex} {constant : Constant} (hg : old.get index = .ok constant) :
    ∃ constant', after.pool.get index = .ok constant' ∧
      ConstantRenamed r old after.pool constant constant' := by
  obtain ⟨⟨address, constant'⟩, hm, rfl, hc⟩ :=
    Fallible.exists_of_mem_left h.constants ((get_ok_iff_mem (h.grows.laid hs.laid)).1 hg)
  exact ⟨constant', h.sound.get_ok_iff.2 hm, hc⟩

/-- What becomes of the constant at an index. -/
theorem get (h : ClassRenamed r own old before after) (hs : before.pool.Sound)
    {index : PoolIndex} {constant : Constant} (hg : before.pool.get index = .ok constant) :
    ∃ constant', after.pool.get index = .ok constant' ∧
      ConstantRenamed r old after.pool constant constant' :=
  h.get_old hs (h.grows.get hs.laid hg)

theorem text (h : ClassRenamed r own old before after) (hs : before.pool.Sound)
    {index : PoolIndex} {text : String} (ht : before.pool.text index = .ok text) :
    old.text index = .ok text ∧ after.pool.text index = .ok text := by
  obtain ⟨constant, hg, hc⟩ := h.get hs (text_ok_iff.1 ht)
  rw [hc.eq_of_plain rfl] at hg
  exact ⟨h.grows.text hs.laid ht, text_ok_iff.2 hg⟩

theorem className_old (h : ClassRenamed r own old before after) (hs : before.pool.Sound)
    {index : PoolIndex} {name : String} (hn : old.className index = .ok name) :
    ∃ mapped, r.mapClassConstant name = .ok mapped ∧ after.pool.className index = .ok mapped := by
  obtain ⟨i, hg, ht⟩ := className_ok_iff.1 hn
  obtain ⟨constant, hg', hc⟩ := h.get_old hs hg
  cases hc with
  | @classRef _ j found mapped htext hmap hafter =>
    rw [ht] at htext
    cases htext
    exact ⟨mapped, hmap, className_ok_iff.2 ⟨j, hg', hafter⟩⟩
  | same plain => simp [Constant.isSymbolic] at plain

/-- What becomes of the class at an index. -/
theorem className (h : ClassRenamed r own old before after) (hs : before.pool.Sound)
    {index : PoolIndex} {name : String} (hn : before.pool.className index = .ok name) :
    ∃ mapped, r.mapClassConstant name = .ok mapped ∧ after.pool.className index = .ok mapped :=
  h.className_old hs (h.grows.className hs.laid hn)

end ClassRenamed

/-- A class that is ready is renamed, and gets the new name for its name. -/
theorem renameClass_of_ready {file : ClassFile} {name mapped : String}
    {fieldCosts methodCosts attributeCosts : List Nat} (hb : r.mappings.Brief)
    (hs : file.pool.Sound) (hn : file.name = .ok name) (hm : r.mapClassConstant name = .ok mapped)
    (h : ClassReady r file fieldCosts methodCosts attributeCosts) :
    ∃ renamed, r.renameClass file = .ok (mapped, renamed) := by
  obtain ⟨found, renamed, hr⟩ := renameClass_succeeds hb hs h
  obtain ⟨hname, own, old, hrenamed⟩ := renameClass_ok hs hr
  obtain ⟨new, hmap, hafter⟩ := hrenamed.className hs hn
  have hthis : renamed.thisClass = file.thisClass := by rw [hrenamed.frame]
  rw [ClassFile.name, hthis, hafter] at hname
  obtain rfl := Except.ok.inj hname
  obtain rfl := Except.ok.inj (hmap.symm.trans hm)
  exact ⟨renamed, hr⟩

section Sample

open ClassFile

theorem sound_sample : sample.pool.Sound := (reachable_of_parse parse_sample).sound

theorem get_sample {index : PoolIndex} {constant : Constant}
    (h : (index, constant) ∈ sampleConstants) : sample.pool.get index = .ok constant :=
  mem_toList sound_sample (pool_sample.1 ▸ h)

theorem text_sample {index : PoolIndex} {text : String}
    (h : (index, .utf8 text) ∈ sampleConstants) : sample.pool.text index = .ok text :=
  text_ok_iff.2 (get_sample h)

theorem className_sample : sample.pool.className 2 = .ok "A" :=
  className_ok_iff.2 ⟨1, get_sample (by decide), text_sample (by decide)⟩

theorem name_sample : sample.name = .ok "A" := by
  rw [ClassFile.name, header_sample.2.1, className_sample]

theorem mapText_sample (r : Remapper) {kind : TextKind} (hk : kind ≠ .methodDescriptor) :
    mapText r kind "LA;" = .ok (FieldType.object (r.mappings.mapBinaryName sampleName)).text := by
  have hparse : FieldType.parse "LA;" = .ok (.object sampleName) := by decide +kernel
  have hdescriptor := r.mappings.mapFieldDescriptor_of_parse hparse
  cases kind with
  | fieldDescriptor => exact hdescriptor
  | methodDescriptor => exact absurd rfl hk
  | resultDescriptor =>
    show (if "LA;" = "V" then .ok "LA;" else r.mappings.mapFieldDescriptor "LA;") = _
    rw [if_neg (by decide)]
    exact hdescriptor
  | signature =>
    have hplain : sampleName.IsPlain := by simp [BinaryName.IsPlain, sampleName]
    have hsignature := @Remapper.mapSignature_fieldType r _ _ hparse
      (by simp [FieldType.object, FieldType.classes, RefType.classes, hplain])
    exact hsignature

theorem mapText_methodKey (r : Remapper) : mapText r .methodDescriptor "(LA;)V" =
    .ok (MethodType.text ⟨[.object (r.mappings.mapBinaryName sampleName)], none⟩) := by
  have hparse : MethodType.parse "(LA;)V" = .ok ⟨[.object sampleName], none⟩ := by decide +kernel
  exact r.mappings.mapMethodDescriptor_of_parse hparse

/-- A field of type `int` can be renamed by every remapper. -/
theorem mapText_int (r : Remapper) : mapText r .fieldDescriptor "I" = .ok "I" := by
  show r.mappings.mapFieldDescriptor "I" = .ok "I"
  rw [MappingSet.mapFieldDescriptor, if_pos (by decide)]

theorem spelled_sampleKey (r : Remapper) : Spelled r .field "f" "I" :=
  ⟨sampleKey, "I", rfl, rfl, mapText_int r, .inl rfl⟩

section Ready

variable {r : Remapper} (h : r.mapClass "A" = "A" ∨ r.mapClass "A" = "B")
include h

theorem mapBinaryName_sample : r.mappings.mapBinaryName sampleName = sampleName ∨
    r.mappings.mapBinaryName sampleName = mappedName := by
  have htext : (r.mappings.mapBinaryName sampleName).text = r.mapClass "A" :=
    r.mappings.mapBinaryName_text sampleName
  rcases h with ha | hb
  · exact .inl (BinaryName.text_injective (htext.trans ha))
  · exact .inr (BinaryName.text_injective (htext.trans hb))

theorem fits_sample : Fits "LA;" (FieldType.object (r.mappings.mapBinaryName sampleName)).text ∧
    Fits "(LA;)V"
      (MethodType.text ⟨[.object (r.mappings.mapBinaryName sampleName)], none⟩) := by
  rcases mapBinaryName_sample h with hm | hm
  · rw [hm]
    exact ⟨.inr (by decide +kernel), .inr (by decide +kernel)⟩
  · rw [hm]
    exact ⟨.inr (by decide +kernel), .inr (by decide +kernel)⟩

theorem spelled_methodKey : Spelled r .method "m" "(LA;)V" :=
  ⟨methodKey, _, rfl, rfl, mapText_methodKey r, (fits_sample h).2⟩

theorem textReady_sample {kind : TextKind} (hk : kind ≠ .methodDescriptor) :
    TextReady r kind sample.pool 15 :=
  ⟨"LA;", _, text_sample (by decide), mapText_sample r hk, (fits_sample h).1⟩

theorem constants_ready : ∀ entry ∈ sample.pool.toList, ConstantReady r sample.pool entry.2 := by
  have hclass : ConstantReady r sample.pool (.classRef 1) := by
    refine ⟨"A", r.mapClass "A", text_sample (by decide), ?_, ?_⟩
    · rw [Remapper.mapClassConstant, if_neg (by decide)]
    · rcases h with ha | hb
      · exact .inl ha
      · exact .inr (hb ▸ by decide +kernel)
  have hfield : ConstantReady r sample.pool (.fieldRef 2 9) :=
    ⟨⟨"A", className_sample⟩, "f", "I", nameAndDescriptor_ok_iff.2
      ⟨3, 4, get_sample (by decide), text_sample (by decide), text_sample (by decide)⟩,
      spelled_sampleKey r⟩
  have hmethod : ConstantReady r sample.pool (.methodRef 2 11 false) :=
    ⟨⟨"A", className_sample⟩, "m", "(LA;)V", nameAndDescriptor_ok_iff.2
      ⟨7, 8, get_sample (by decide), text_sample (by decide), text_sample (by decide)⟩,
      spelled_methodKey h⟩
  rw [pool_sample.1]
  intro entry hm
  fin_cases hm <;> first | exact hclass | exact hfield | exact hmethod | exact True.intro

theorem ready_sample : ∃ fieldCosts methodCosts attributeCosts,
    ClassReady r sample fieldCosts methodCosts attributeCosts := by
  have htype := @textReady_sample r h
  have hvariables : AttributeReady r sample.pool ⟨14, sampleVariables.write⟩ _ :=
    .decoded (text_sample (by decide)) rfl decode_sampleVariables
      (.localVariables (by simpa using htype (by decide)))
  have hcode : AttributeReady r sample.pool ⟨13, sampleCode.write⟩ _ :=
    .decoded (text_sample (by decide)) rfl decode_sampleCode (.code (.cons hvariables .nil))
  have henum : ValueReady r sample.pool (.enumConstant 15 3) 2 :=
    .enumConstant (text_sample (by decide)) (text_sample (by decide))
      ⟨⟨sampleKey.name, "LA;"⟩, _, rfl, rfl, mapText_sample r (by decide), (fits_sample h).1⟩
  have hnested : ValueReady r sample.pool (.nested 15 [(18, .classLiteral 15)]) _ :=
    .nested (htype (by decide)) (.cons (.classLiteral (htype (by decide))) .nil)
  have hannotations : AttributeReady r sample.pool ⟨17, sampleAnnotations.write⟩ _ :=
    .decoded (text_sample (by decide)) rfl decode_sampleAnnotations
      (.annotations (.cons (.mk (htype (by decide)) (.cons henum
        (.cons (.array (.cons hnested .nil)) .nil))) .nil))
  have hsignature : AttributeReady r sample.pool ⟨20, (AttributeBody.signature 15).write⟩ _ :=
    .decoded (text_sample (by decide)) rfl (decode_signature 15) (.signature (htype (by decide)))
  have hrecord : AttributeReady r sample.pool ⟨19, sampleRecord.write⟩ _ :=
    .decoded (text_sample (by decide)) rfl decode_sampleRecord
      (.record (.cons (.mk (text_sample (by decide)) (text_sample (by decide))
        (spelled_sampleKey r) (.cons hsignature .nil)) .nil))
  obtain ⟨hfields, hmethods, hattributes⟩ := members_sample
  refine ⟨[2], [3], [5, 3], ⟨"A", name_sample⟩, constants_ready h, ?_, ?_, ?_, ?_⟩
  · rw [hfields]
    exact .cons (.mk (text_sample (by decide)) (text_sample (by decide)) (spelled_sampleKey r) .nil)
      .nil
  · rw [hmethods]
    exact .cons (.mk (text_sample (by decide)) (text_sample (by decide)) (spelled_methodKey h)
      (.cons hcode .nil)) .nil
  · rw [hattributes]
    exact .cons hannotations (.cons hrecord .nil)
  · rw [pool_sample.1, pool_sample.2]
    decide

/-- Every remapper with short names that gives `A` the name `A` or `B` renames `sample`. -/
theorem renameClass_sample (hb : r.mappings.Brief) :
    ∃ renamed, r.renameClass sample = .ok (r.mapClass "A", renamed) := by
  obtain ⟨_, _, _, hready⟩ := ready_sample h
  have hmapped : r.mapClassConstant "A" = .ok (r.mapClass "A") := by
    rw [Remapper.mapClassConstant, if_neg (by decide)]
  exact renameClass_of_ready hb sound_sample name_sample hmapped hready

end Ready

theorem mapClassConstant_sample (index : ClassIndex) :
    (sampleRemapper index).mapClassConstant "A" = .ok "B" := by
  rw [Remapper.mapClassConstant, if_neg (by decide), mapClass_sample]

theorem mapTypes_sample (index : ClassIndex) :
    (∀ kind ≠ .methodDescriptor, mapText (sampleRemapper index) kind "LA;" = .ok "LB;") ∧
      mapText (sampleRemapper index) .methodDescriptor "(LA;)V" = .ok "(LB;)V" := by
  have hname : (sampleRemapper index).mappings.mapBinaryName sampleName = mappedName :=
    BinaryName.text_injective
      (((sampleRemapper index).mappings.mapBinaryName_text sampleName).trans
        (mapClass_sample index))
  refine ⟨fun kind hk => ?_, ?_⟩
  · rw [mapText_sample _ hk, hname]
    decide +kernel
  · rw [mapText_methodKey, hname]
    decide +kernel

/-- The names that `sampleRemapper` gives are short. -/
theorem brief_sample (index : ClassIndex) : (sampleRemapper index).mappings.Brief :=
  ((MappingSet.brief_empty.insertClass _ _).insertField _ (by decide +kernel)).insertMethod _
    (by decide +kernel)

theorem renameClass_sampleRemapper (index : ClassIndex) : ∃ renamed,
    (sampleRemapper index).renameClass sample = .ok ("B", renamed) := by
  have hmapped : (sampleRemapper index).mapClass "A" = "B" := mapClass_sample index
  have h := renameClass_sample (.inr hmapped) (brief_sample index)
  rwa [hmapped] at h

end Sample

/-- Every index keeps a constant of its kind: one that mentions symbols by their new texts, or the
same one. All old texts and names are those of the pool before, which `old` only extends. What is
added stands behind the constants of the class and is a text or a name with a type. -/
theorem constants_renamed {bytes : Bytes} {file renamed : ClassFile} {name : String}
    (hp : ClassFile.parse bytes = .ok file) (h : r.renameClass file = .ok (name, renamed)) :
    ∃ old, file.pool.Grows old ∧
      (∀ index constant, file.pool.get index = .ok constant → old.get index = .ok constant ∧
        ∃ constant', renamed.pool.get index = .ok constant' ∧
          ConstantRenamed r old renamed.pool constant constant') ∧
      ∀ index constant, renamed.pool.get index = .ok constant →
        (∃ before, file.pool.get index = .ok before) ∨
          file.pool.slotCount ≤ index ∧ isAddition constant = true ∧
            old.get index = .ok constant := by
  have hs := (ClassFile.reachable_of_parse hp).sound
  obtain ⟨-, className, old, hr⟩ := renameClass_ok hs h
  have hold := hr.grows.laid hs.laid
  refine ⟨old, hr.grows, fun index c hg => ⟨hr.grows.get hs.laid hg, hr.get hs hg⟩,
    fun index c hg => ?_⟩
  obtain ⟨⟨address, before⟩, hm, heq, hc⟩ :=
    Fallible.exists_of_mem_right hr.constants (hr.sound.get_ok_iff.1 hg)
  dsimp only at heq hc
  subst heq
  obtain ⟨entries, hlist, hadded⟩ := hr.grows.toList
  rcases List.mem_append.1 (hlist ▸ hm) with hm' | hm'
  · exact .inl ⟨before, hs.get_ok_iff.2 hm'⟩
  · obtain ⟨ha, hle⟩ := hadded _ hm'
    have hsame : c = before := hc.eq_of_plain (isSymbolic_of_isAddition ha)
    refine .inr ⟨?_, hsame ▸ ha, hsame ▸ (get_ok_iff_mem hold).2 hm⟩
    rw [UInt16.le_iff_toNat_le, hs.toNat_slotCount]
    exact hle

/-- The class, its field and its method have new names wherever `sample` refers to them, and its
`long` is the same. -/
theorem constants_renamed_sample : ∃ renamed i j,
    ClassFile.parse ClassFile.sampleBytes = .ok .sample ∧
    (sampleRemapper .empty).renameClass .sample = .ok ("B", renamed) ∧
    renamed.pool.className 2 = .ok "B" ∧ renamed.pool.get 5 = .ok (.long 7) ∧
    renamed.pool.get 10 = .ok (.fieldRef 2 i) ∧
    renamed.pool.nameAndDescriptor i = .ok ("g", "I") ∧
    renamed.pool.get 12 = .ok (.methodRef 2 j false) ∧
    renamed.pool.nameAndDescriptor j = .ok ("n", "(LB;)V") := by
  obtain ⟨renamed, hr⟩ := renameClass_sampleRemapper .empty
  obtain ⟨old, hg, hall, -⟩ := constants_renamed ClassFile.parse_sample hr
  have hclass := hg.className sound_sample.laid className_sample
  have htext : ∀ index text, (index, .utf8 text) ∈ ClassFile.sampleConstants →
      old.text index = .ok text := fun _ _ hm => hg.text sound_sample.laid (text_sample hm)
  obtain ⟨-, own, hown, hownRenamed⟩ := hall 2 (.classRef 1) (get_sample (by decide))
  obtain ⟨-, wide, hwide, hsame⟩ := hall 5 (.long 7) (get_sample (by decide))
  obtain ⟨-, field, hfield, hfieldRenamed⟩ := hall 10 (.fieldRef 2 9) (get_sample (by decide))
  obtain ⟨-, method, hmethod, hmethodRenamed⟩ :=
    hall 12 (.methodRef 2 11 false) (get_sample (by decide))
  obtain ⟨holdField, -⟩ := hall 9 (.nameAndType 3 4) (get_sample (by decide))
  obtain ⟨holdMethod, -⟩ := hall 11 (.nameAndType 7 8) (get_sample (by decide))
  obtain rfl := hsame.eq_of_plain rfl
  cases hownRenamed with
  | same plain => simp [Constant.isSymbolic] at plain
  | @classRef _ k name mapped before maps after =>
  cases hfieldRenamed with
  | same plain => simp [Constant.isSymbolic] at plain
  | @fieldRef _ _ i owner hfieldOwner hfieldMember =>
  cases hmethodRenamed with
  | same plain => simp [Constant.isSymbolic] at plain
  | @methodRef _ _ j _ owner' hmethodOwner hmethodMember =>
  cases (htext 1 "A" (by decide)).symm.trans before
  cases hclass.symm.trans hfieldOwner
  cases hclass.symm.trans hmethodOwner
  cases (mapClassConstant_sample .empty).symm.trans maps
  refine ⟨renamed, i, j, ClassFile.parse_sample, hr, className_ok_iff.2 ⟨k, hown, after⟩, hwide,
    hfield, ?_, hmethod, ?_⟩
  · exact hfieldMember.nameAndDescriptor_eq
      (nameAndDescriptor_ok_iff.2 ⟨3, 4, holdField, htext 3 _ (by decide), htext 4 _ (by decide)⟩)
      (mapField_sample (declaringClass_empty _ _)) (mapText_int _)
  · exact hmethodMember.nameAndDescriptor_eq
      (nameAndDescriptor_ok_iff.2 ⟨7, 8, holdMethod, htext 7 _ (by decide), htext 8 _ (by decide)⟩)
      (mapMethod_sample (declaringClass_empty _ _)) (mapTypes_sample .empty).2

/-- Fields, methods and attributes keep their numbers, their order, their flags and their attribute
names, and each of them becomes what its symbols ask for. No text that could be read before has
changed. -/
theorem members_renamed {file renamed : ClassFile} {name : String} (hp : file.pool.Reachable)
    (h : r.renameClass file = .ok (name, renamed)) :
    ∃ className old, file.name = .ok className ∧ file.pool.Grows old ∧
      (∀ index text, file.pool.text index = .ok text →
        old.text index = .ok text ∧ renamed.pool.text index = .ok text) ∧
      renamed = { file with
        pool := renamed.pool, fields := renamed.fields, methods := renamed.methods,
        attributes := renamed.attributes } ∧
      List.Forall₂ (DeclarationRenamed r .field className old renamed.pool) file.fields
        renamed.fields ∧
      List.Forall₂ (DeclarationRenamed r .method className old renamed.pool) file.methods
        renamed.methods ∧
      List.Forall₂ (AttributeRenamed r className old renamed.pool) file.attributes
        renamed.attributes := by
  have hs := hp.sound
  obtain ⟨-, className, old, hr⟩ := renameClass_ok hs h
  exact ⟨className, old, hr.name, hr.grows, fun index text ht => hr.text hs ht, hr.frame, hr.fields,
    hr.methods, hr.attributes⟩

section Sample

open ClassFile

variable {old new : ConstantPool} {after : Attribute}
  (hold : ∀ index text, (index, .utf8 text) ∈ sampleConstants → old.text index = .ok text)
include hold

theorem typeRenamed_sample {kind : TextKind} (hk : kind ≠ .methodDescriptor) {i : PoolIndex}
    (h : TextRenamed (sampleRemapper .empty) kind old new 15 i) : new.text i = .ok "LB;" :=
  h.text_eq (hold 15 "LA;" (by decide)) ((mapTypes_sample .empty).1 kind hk)

/-- The local variable of the method gets the new type, and is what it was otherwise. -/
theorem code_sample (h : AttributeRenamed (sampleRemapper .empty) "A" old new
    ⟨13, sampleCode.write⟩ after) :
    ∃ table i, after.name = 13 ∧ AttributeBody.decode .code "Code" after.info =
        .ok (.code ⟨1, 2, [0xB1], [], [⟨14, table⟩]⟩) ∧
      AttributeBody.decode .localVariables "LocalVariableTable" table =
        .ok (.localVariables [⟨0, 1, 16, i, 0⟩]) ∧ new.text i = .ok "LB;" := by
  obtain ⟨hname, body, hdecode, hbody⟩ :=
    h.exists_body (hold 13 "Code" (by decide)) rfl decode_sampleCode
  cases hbody with
  | code frame attributes =>
  obtain ⟨⟨name, table⟩, htable, hattributes⟩ := Fallible.exists_of_singleton attributes
  obtain ⟨hsame, body, hvariables, hrenamed⟩ :=
    htable.exists_body (hold 14 "LocalVariableTable" (by decide)) rfl decode_sampleVariables
  cases hrenamed with
  | localVariables hentries =>
  obtain ⟨entry, ⟨hframe, htype⟩, rfl⟩ := Fallible.exists_of_singleton hentries
  obtain rfl : name = 14 := hsame
  rw [hattributes] at frame
  rw [hframe] at hvariables
  exact ⟨table, entry.type, hname, frame ▸ hdecode, hvariables,
    typeRenamed_sample hold (by decide) htype⟩

/-- The annotation gets the new names also inside its array. -/
theorem annotations_sample (h : AttributeRenamed (sampleRemapper .empty) "A" old new
    ⟨17, sampleAnnotations.write⟩ after) :
    ∃ type enum name inner literal, after.name = 17 ∧
      AttributeBody.decode .annotations "RuntimeVisibleAnnotations" after.info =
        .ok (.annotations [⟨type, [(18, .enumConstant enum name),
          (18, .array [.nested inner [(18, .classLiteral literal)]])]⟩]) ∧
      new.text name = .ok "g" ∧ new.text inner = .ok "LB;" ∧ new.text literal = .ok "LB;" := by
  obtain ⟨hname, body, hdecode, hbody⟩ :=
    h.exists_body (hold 17 "RuntimeVisibleAnnotations" (by decide)) rfl decode_sampleAnnotations
  cases hbody with
  | annotations hrenamed =>
  obtain ⟨⟨type, elements⟩, huse, rfl⟩ := Fallible.exists_of_singleton hrenamed
  obtain ⟨⟨label, first⟩, rest, ⟨hlabel, hfirst⟩, hrest, rfl⟩ :=
    List.forall₂_cons_left_iff.1 (forall₂_elements huse.names huse.values)
  obtain ⟨⟨label', second⟩, ⟨hlabel', hsecond⟩, rfl⟩ := Fallible.exists_of_singleton hrest
  cases hfirst with
  | @enumConstant _ enum _ name descriptor text _ field =>
  cases hsecond with
  | array hvalues =>
  obtain ⟨value, hvalue, rfl⟩ := Fallible.exists_of_singleton hvalues
  cases hvalue with
  | @nested _ inner _ elements hinner names values =>
  obtain ⟨⟨label'', third⟩, ⟨hlabel'', hthird⟩, rfl⟩ :=
    Fallible.exists_of_singleton (forall₂_elements names values)
  cases hthird with
  | @classLiteral _ literal hliteral =>
  obtain rfl : label = 18 := hlabel
  obtain rfl : label' = 18 := hlabel'
  obtain rfl : label'' = 18 := hlabel''
  cases (hold 15 "LA;" (by decide)).symm.trans text
  have howner : descriptorClass? "LA;" = some "A" := by decide +kernel
  exact ⟨type, enum, name, inner, literal, hname, hdecode,
    (field "A" howner).text_eq (hold 3 "f" (by decide)) (hold 15 "LA;" (by decide))
      (mapField_sample (declaringClass_empty _ _)),
    typeRenamed_sample hold (by decide) hinner, typeRenamed_sample hold (by decide) hliteral⟩

/-- The component of the record has the new name of its field, and its signature the new type. -/
theorem record_sample (h : AttributeRenamed (sampleRemapper .empty) "A" old new
    ⟨19, sampleRecord.write⟩ after) :
    ∃ name descriptor signature i, after.name = 19 ∧
      AttributeBody.decode .record "Record" after.info =
        .ok (.record [⟨name, descriptor, [⟨20, signature⟩]⟩]) ∧ new.text name = .ok "g" ∧
      AttributeBody.decode .signature "Signature" signature = .ok (.signature i) ∧
      new.text i = .ok "LB;" := by
  obtain ⟨hname, body, hdecode, hbody⟩ :=
    h.exists_body (hold 19 "Record" (by decide)) rfl decode_sampleRecord
  cases hbody with
  | record hcomponents =>
  obtain ⟨component, hcomponent, rfl⟩ := Fallible.exists_of_singleton hcomponents
  cases hcomponent with
  | @mk _ name _ descriptor _ attributes named typed inner =>
  obtain ⟨⟨label, signature⟩, hsignature, rfl⟩ := Fallible.exists_of_singleton inner
  obtain ⟨hsame, body, hbody, hrenamed⟩ :=
    hsignature.exists_body (hold 20 "Signature" (by decide)) rfl (decode_signature 15)
  obtain rfl : label = 20 := hsame
  cases hrenamed with
  | @signature _ i htype =>
  exact ⟨name, descriptor, signature, i, hname, hdecode,
    named.text_eq (hold 3 "f" (by decide)) (hold 4 "I" (by decide))
      (mapField_sample (declaringClass_empty _ _)),
    hbody, typeRenamed_sample hold (by decide) htype⟩

end Sample

theorem members_renamed_sample : ∃ renamed field method code annotations record,
    (sampleRemapper .empty).renameClass .sample = .ok ("B", renamed) ∧
    renamed.fields = [field] ∧ renamed.pool.text field.name = .ok "g" ∧
    renamed.methods = [method] ∧ renamed.pool.text method.name = .ok "n" ∧
    renamed.pool.text method.descriptor = .ok "(LB;)V" ∧ method.attributes = [⟨13, code⟩] ∧
    (∃ table i, AttributeBody.decode .code "Code" code =
        .ok (.code ⟨1, 2, [0xB1], [], [⟨14, table⟩]⟩) ∧
      AttributeBody.decode .localVariables "LocalVariableTable" table =
        .ok (.localVariables [⟨0, 1, 16, i, 0⟩]) ∧ renamed.pool.text i = .ok "LB;") ∧
    renamed.attributes = [⟨17, annotations⟩, ⟨19, record⟩] ∧
    (∃ type enum name inner literal,
      AttributeBody.decode .annotations "RuntimeVisibleAnnotations" annotations =
        .ok (.annotations [⟨type, [(18, .enumConstant enum name),
          (18, .array [.nested inner [(18, .classLiteral literal)]])]⟩]) ∧
      renamed.pool.text name = .ok "g" ∧ renamed.pool.text inner = .ok "LB;" ∧
      renamed.pool.text literal = .ok "LB;") ∧
    ∃ name descriptor signature i, AttributeBody.decode .record "Record" record =
        .ok (.record [⟨name, descriptor, [⟨20, signature⟩]⟩]) ∧
      renamed.pool.text name = .ok "g" ∧
      AttributeBody.decode .signature "Signature" signature = .ok (.signature i) ∧
      renamed.pool.text i = .ok "LB;" := by
  obtain ⟨renamed, hr⟩ := renameClass_sampleRemapper .empty
  obtain ⟨className, old, hown, -, htext, -, hfields, hmethods, hattributes⟩ :=
    members_renamed (ClassFile.reachable_of_parse ClassFile.parse_sample) hr
  cases name_sample.symm.trans hown
  have hold : ∀ index text, (index, .utf8 text) ∈ ClassFile.sampleConstants →
      old.text index = .ok text := fun index text hm => (htext index text (text_sample hm)).1
  obtain ⟨hf, hm, ha⟩ := ClassFile.members_sample
  rw [hf] at hfields
  rw [hm] at hmethods
  rw [ha] at hattributes
  obtain ⟨field, hfield, hfieldList⟩ := Fallible.exists_of_singleton hfields
  obtain ⟨method, hmethod, hmethodList⟩ := Fallible.exists_of_singleton hmethods
  obtain ⟨code, hcode, hcodeList⟩ := Fallible.exists_of_singleton hmethod.attributes
  obtain ⟨annotations, rest, hannotations, hrest, hlist⟩ :=
    List.forall₂_cons_left_iff.1 hattributes
  obtain ⟨record, hrecord, hrecordList⟩ := Fallible.exists_of_singleton hrest
  obtain ⟨table, i, hcodeName, hcodeBody⟩ := code_sample hold hcode
  obtain ⟨type, enum, name, inner, literal, hannotationsName, hannotationsBody⟩ :=
    annotations_sample hold hannotations
  obtain ⟨name', descriptor, signature, j, hrecordName, hrecordBody⟩ := record_sample hold hrecord
  refine ⟨renamed, field, method, code.info, annotations.info, record.info, hr, hfieldList,
    ?_, hmethodList, ?_, ?_, ?_, ⟨table, i, hcodeBody⟩, ?_,
    ⟨type, enum, name, inner, literal, hannotationsBody⟩,
    name', descriptor, signature, j, hrecordBody⟩
  · exact hfield.name.text_eq (hold 3 "f" (by decide)) (hold 4 "I" (by decide))
      (mapField_sample (declaringClass_empty _ _))
  · exact hmethod.name.text_eq (hold 7 "m" (by decide)) (hold 8 "(LA;)V" (by decide))
      (mapMethod_sample (declaringClass_empty _ _))
  · exact hmethod.descriptor.text_eq (hold 8 "(LA;)V" (by decide)) (mapTypes_sample .empty).2
  · rw [hcodeList, ← hcodeName]
  · rw [hlist, hrecordList, ← hannotationsName, ← hrecordName]

end JarRename.Renaming
