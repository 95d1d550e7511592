import Mathlib
import JarRename.ClassFile
import JarRename.Proofs.AttributeFormat
import JarRename.Proofs.PoolFormat

/-!
# Class files are read as they were written

Writing what was read gives the bytes back. The other way round, a class is read back with every
constant at its index if its lists can be counted and its constants can be written; both hold of a
class that is built by adding members, attributes and shared constants.
-/
namespace JarRename

open Reader

namespace Member

def Fits (member : Member) : Prop := FitsList Attribute.Fits member.attributes

theorem accepts : Accepts read write Fits := by
  intro bytes member rest
  simp only [read, bind_ok_iff, pure_ok_iff, u2_ok_iff, accepts_list Attribute.accepts _ _ _, write,
    Fits, List.append_assoc]
  constructor
  · rintro ⟨flags, _, rfl, name, _, rfl, descriptor, _, rfl, attributes, _, ⟨ha, rfl⟩, rfl, rfl⟩
    exact ⟨ha, rfl⟩
  · rintro ⟨ha, rfl⟩
    exact ⟨_, _, rfl, _, _, rfl, _, _, rfl, _, _, ⟨ha, rfl⟩, rfl, rfl⟩

end Member

namespace ClassFile

/-- The lists of a class can be counted, and the bodies of its attributes have a length. -/
structure Fits (file : ClassFile) : Prop where
  interfaces : file.interfaces.length < 0x10000
  fields : FitsList Member.Fits file.fields
  methods : FitsList Member.Fits file.methods
  attributes : FitsList Attribute.Fits file.attributes

theorem read_ok_iff {bytes rest : Bytes} {file : ClassFile} :
    read bytes = .ok (file, rest) ↔ ∃ body,
      bytes = Bytes.u4 magic ++ (Bytes.u2 file.version.minor ++
        (Bytes.u2 file.version.major ++ body)) ∧
      ConstantPool.read body = .ok (file.pool, file.writeBody ++ rest) ∧
      file.superClass ≠ some 0 ∧ file.Fits := by
  simp only [read, bind_ok_iff, u4_ok_iff]
  constructor
  · rintro ⟨found, mid, rfl, h⟩
    split_ifs at h with hf
    · simp only [bind_ok_iff, throw_ok_iff, false_and, exists_false] at h
    · simp only [bind_ok_iff, pure_ok_iff, u2_ok_iff, optional_ok_iff,
        accepts_list accepts_u2 _ _ _, accepts_list Member.accepts _ _ _, accepts_list Attribute.accepts _ _ _] at h
      obtain ⟨minor, _, rfl, major, body, rfl, pool, _, hp, flags, _, rfl, thisClass, _, rfl,
        superClass, _, ⟨hs, rfl⟩, interfaces, _, ⟨hi, rfl⟩, fields, _, ⟨hv, rfl⟩, methods, _,
        ⟨hm, rfl⟩, attributes, _, ⟨ha, rfl⟩, rfl, rfl⟩ := h
      have hf : found = magic := by simpa using hf
      refine ⟨body, by rw [hf], ?_, hs, hi.1, hv, hm, ha⟩
      simpa [writeBody] using hp
  · rintro ⟨body, rfl, hp, hs, hf⟩
    refine ⟨magic, _, rfl, ?_⟩
    simp only [ne_eq, not_true, if_false, bind_ok_iff, pure_ok_iff, u2_ok_iff, optional_ok_iff,
      accepts_list accepts_u2 _ _ _, accepts_list Member.accepts _ _ _,
      accepts_list Attribute.accepts _ _ _]
    refine ⟨_, _, rfl, _, _, rfl, _, _, hp, ?_⟩
    simp only [writeBody, List.append_assoc]
    exact ⟨_, _, rfl, _, _, rfl, _, _, ⟨hs, rfl⟩, _, _, ⟨⟨hf.interfaces, fun _ _ => trivial⟩, rfl⟩,
      _, _, ⟨hf.fields, rfl⟩, _, _, ⟨hf.methods, rfl⟩, _, _, ⟨hf.attributes, rfl⟩, rfl, rfl⟩

theorem write_eq {file : ClassFile} {pool : Bytes} (h : file.pool.write = .ok pool) :
    file.write = .ok (Bytes.u4 magic ++ (Bytes.u2 file.version.minor ++
      (Bytes.u2 file.version.major ++ (pool ++ file.writeBody)))) := by
  simp [write, h, pure, Except.pure, bind, Except.bind]

theorem parse_ok_iff {bytes : Bytes} {file : ClassFile} :
    parse bytes = .ok file ↔ read bytes = .ok (file, []) := by
  unfold parse
  rcases read bytes with e | ⟨found, _ | ⟨byte, rest⟩⟩ <;> simp

/-- The pool of a class that was read came out of reading. -/
theorem reachable_of_parse {bytes : Bytes} {file : ClassFile} (h : parse bytes = .ok file) :
    file.pool.Reachable := by
  obtain ⟨body, -, hp, -, -⟩ := read_ok_iff.1 (parse_ok_iff.1 h)
  exact .read hp

/-- Writing a class that was read gives the bytes it was read from. -/
theorem write_of_parse {bytes : Bytes} {file : ClassFile} (h : parse bytes = .ok file) :
    file.write = .ok bytes := by
  obtain ⟨body, rfl, hp, -, -⟩ := read_ok_iff.1 (parse_ok_iff.1 h)
  obtain ⟨written, hw, rfl⟩ := ConstantPool.write_of_read hp
  rw [write_eq hw, List.append_nil]

/-- A class is read back from what is written for it; only what its pool looks up is new. -/
theorem parse_of_write {file : ClassFile} (hs : file.pool.Sound) (hw : file.pool.Writable)
    (hz : file.superClass ≠ some 0) (hf : file.Fits) :
    ∃ bytes pool, file.write = .ok bytes ∧ parse bytes = .ok { file with pool } ∧
      pool.slots = file.pool.slots := by
  obtain ⟨written, hp, hr⟩ := ConstantPool.read_of_write hs hw
  obtain ⟨pool, hread, hslots⟩ := hr file.writeBody
  refine ⟨_, pool, write_eq hp, ?_, hslots⟩
  have hfits : ClassFile.Fits { file with pool } :=
    ⟨hf.interfaces, hf.fields, hf.methods, hf.attributes⟩
  exact parse_ok_iff.2 ((@read_ok_iff _ [] { file with pool }).2
    ⟨_, rfl, by rw [List.append_nil]; exact hread, hz, hfits⟩)

end ClassFile

namespace ConstantPool

open Stateful

/-- What holds of a pool to which only shared constants have been added. -/
structure Clean (pool : ConstantPool) : Prop where
  sound : pool.Sound
  truthful : pool.Truthful
  writable : pool.Writable

theorem clean_empty : empty.Clean :=
  ⟨sound_empty, fun _ _ h => by simp [empty] at h, fun _ h => by simp [empty] at h⟩

theorem writable_of_pushError? {pool : ConstantPool} {constant : Constant}
    (hs : constant.isShared = true) (h : pool.pushError? constant = none) : constant.Writable := by
  cases constant with
  | utf8 text =>
    unfold pushError? at h
    split at h
    · simp at h
    · dsimp only at h
      split at h
      · simp at h
      · rename_i hl
        rw [Text.ModifiedUtf8.length_eq, maxTextLength] at hl
        show _ < _
        omega
  | rawUtf8 bytes => simp [Constant.isShared] at hs
  | _ => trivial

theorem writable_push {pool after : ConstantPool} {constant : Constant} {index : PoolIndex}
    (hw : pool.Writable) (hc : constant.isShared = true)
    (h : push constant pool = (.ok index, after)) : after.Writable := by
  obtain ⟨he, -, hp, -⟩ := push_ok h
  intro entry hm
  rw [hp, SlotVec.toList_push] at hm
  rcases List.mem_append.1 hm with hm | hm
  · exact hw entry hm
  · rw [List.mem_singleton.1 hm]
    exact writable_of_pushError? hc he

theorem keeps_clean_push (constant : Constant) (hc : constant.isShared = true) :
    Keeps Clean (push constant) := by
  intro pool h
  rcases hr : push constant pool with ⟨e | index, after⟩
  · exact push_error hr ▸ h
  · exact ⟨sound_push h.sound hr, truthful_push h.sound h.truthful hr,
      writable_push h.writable hc hr⟩

theorem Operation.keeps_clean {operation : Operation} (h : operation.isGet = true) :
    Keeps Clean operation.run :=
  keeps_get keeps_clean_push h

theorem getClass_ne_zero {pool after : ConstantPool} (h : pool.Clean) {name : String}
    {index : PoolIndex} (hr : getClass name pool = (.ok index, after)) : index ≠ 0 := by
  obtain ⟨text, mid, hu, hc⟩ := bind_ok_iff.1 hr
  have hm : mid.Clean := by
    have hk := keeps_getUtf8 keeps_clean_push name pool h
    rwa [hu] at hk
  have ha : after.Clean := by
    have hk := keeps_share (keeps_clean_push (.classRef text) rfl) mid hm
    rwa [hc] at hk
  exact ha.sound.index_ne_zero (share_ok hm.sound (hm.truthful _) hc).1

end ConstantPool

namespace ClassFile

open ConstantPool Stateful

/-- The classes that are made without members and extended, also by operations that fail. -/
inductive Built : ClassFile → Prop
  | create {version : Version} {flags : AccessFlags} {name : String} {superName : Option String}
      {interfaceNames : List String} {file : ClassFile}
      (h : ClassFile.create version flags name superName interfaceNames = .ok file) : Built file
  | addField {file : ClassFile} (prior : Built file) (flags : AccessFlags)
      (name descriptor : String) : Built (ClassFile.addField flags name descriptor file).2
  | addMethod {file : ClassFile} (prior : Built file) (flags : AccessFlags)
      (name descriptor : String) : Built (ClassFile.addMethod flags name descriptor file).2
  | addAttribute {file : ClassFile} (prior : Built file) (place : Place) (name : String)
      (body : AttributeBody) : Built (ClassFile.addAttribute place name body file).2
  | get {file : ClassFile} (prior : Built file) (operation : Operation)
      (h : operation.isGet = true) : Built (onPool operation.run file).2

structure WellBuilt (file : ClassFile) : Prop where
  pool : file.pool.Clean
  superClass : file.superClass ≠ some 0

theorem wellBuilt_create {version : Version} {flags : AccessFlags} {name : String}
    {superName : Option String} {interfaceNames : List String} {file : ClassFile}
    (h : create version flags name superName interfaceNames = .ok file) : file.WellBuilt := by
  unfold create at h
  dsimp only at h
  split at h
  · simp at h
  · rename_i thisClass superClass interfaces pool hr
    simp only [Except.ok.injEq] at h
    subst h
    obtain ⟨this, first, ht, hr⟩ := bind_ok_iff.1 hr
    obtain ⟨super, second, hs, hr⟩ := bind_ok_iff.1 hr
    obtain ⟨others, third, hi, hr⟩ := bind_ok_iff.1 hr
    cases hr
    have h1 : first.Clean := by
      have hk := keeps_getClass keeps_clean_push name empty clean_empty
      rwa [ht] at hk
    have h2 : second.Clean ∧ superClass ≠ some 0 := by
      cases superName with
      | none =>
        cases hs
        exact ⟨h1, by simp⟩
      | some text =>
        obtain ⟨index, mid, hg, hp⟩ := bind_ok_iff.1 hs
        cases hp
        have hk := keeps_getClass keeps_clean_push text first h1
        rw [hg] at hk
        exact ⟨hk, by simpa using getClass_ne_zero h1 hg⟩
    have h3 : pool.Clean := by
      have hk := keeps_mapM (keeps_getClass keeps_clean_push) interfaceNames second h2.1
      rwa [hi] at hk
    exact ⟨h3, h2.2⟩

theorem keeps_onPool {α : Type} {action : PoolM α} (h : Keeps Clean action) :
    Keeps WellBuilt (onPool action) :=
  fun file hf => ⟨h file.pool hf.pool, hf.superClass⟩

theorem keeps_modify (change : ClassFile → ClassFile)
    (h : ∀ file, (change file).pool = file.pool ∧ (change file).superClass = file.superClass) :
    Keeps WellBuilt (modify change : ClassM Unit) := by
  intro file hf
  obtain ⟨hp, hs⟩ := h file
  exact ⟨hp ▸ hf.pool, hs ▸ hf.superClass⟩

theorem keeps_newMember (flags : AccessFlags) (name descriptor : String) :
    Keeps Clean (newMember flags name descriptor) :=
  (keeps_getUtf8 keeps_clean_push name).bind fun _ =>
    (keeps_getUtf8 keeps_clean_push descriptor).bind fun _ => keeps_pure _

theorem keeps_addField (flags : AccessFlags) (name descriptor : String) :
    Keeps WellBuilt (addField flags name descriptor) := by
  unfold addField
  refine (keeps_onPool (keeps_newMember flags name descriptor)).bind fun field =>
    (keeps_modify _ fun _ => ?_).bind fun _ => keeps_pure field
  exact ⟨rfl, rfl⟩

theorem keeps_addMethod (flags : AccessFlags) (name descriptor : String) :
    Keeps WellBuilt (addMethod flags name descriptor) := by
  unfold addMethod
  refine (keeps_onPool (keeps_newMember flags name descriptor)).bind fun method =>
    (keeps_modify _ fun _ => ?_).bind fun _ => keeps_pure method
  exact ⟨rfl, rfl⟩

theorem keeps_addAttribute (place : Place) (name : String) (body : AttributeBody) :
    Keeps WellBuilt (addAttribute place name body) := by
  have ha : Keeps Clean (newAttribute name body) :=
    (keeps_getUtf8 keeps_clean_push name).bind fun _ => keeps_pure _
  unfold addAttribute
  refine (keeps_onPool ha).bind fun added =>
    (keeps_modify _ fun _ => ?_).bind fun _ => keeps_pure added
  cases place <;> exact ⟨rfl, rfl⟩

theorem Built.wellBuilt {file : ClassFile} (h : file.Built) : file.WellBuilt := by
  induction h with
  | create h => exact wellBuilt_create h
  | addField _ flags name descriptor ih => exact keeps_addField flags name descriptor _ ih
  | addMethod _ flags name descriptor ih => exact keeps_addMethod flags name descriptor _ ih
  | addAttribute _ place name body ih => exact keeps_addAttribute place name body _ ih
  | get _ operation h ih => exact keeps_onPool (Operation.keeps_clean h) _ ih

/-- The class `A` without members and attributes. -/
def bare : ClassFile where
  version := .java8
  pool := ⟨⟨#[(1, .utf8 "A"), (2, .classRef 1)], 3⟩,
    ((∅ : Std.HashMap _ _).insertIfNew (.utf8 "A") 1).insertIfNew (.classRef 1) 2⟩
  flags := 0x21
  thisClass := 2
  superClass := none
  interfaces := []
  fields := []
  methods := []
  attributes := []

theorem create_bare : create .java8 0x21 "A" none [] = .ok bare := by
  have h1 : getUtf8 "A" empty = push (.utf8 "A") empty := share_new (by simp [empty])
  have h2 : getClass "A" empty = (.ok 2, bare.pool) := by
    rw [getClass, bind_apply, h1]
    exact share_new (by simp [empty, Constant.isShared])
  simp only [create, bind_apply, h2]
  rfl

/-- The class `A` with a field `f` of its own type. -/
def withField : ClassFile :=
  { bare with
    pool := ⟨⟨#[(1, .utf8 "A"), (2, .classRef 1), (3, .utf8 "f"), (4, .utf8 "LA;")], 5⟩,
      (bare.pool.known.insertIfNew (.utf8 "f") 3).insertIfNew (.utf8 "LA;") 4⟩
    fields := [⟨0, 3, 4, []⟩] }

/-- The class `A` with a reference to its field. -/
def withReference : ClassFile :=
  { withField with
    pool := ⟨⟨withField.pool.slots.entries ++ #[(5, .nameAndType 3 4), (6, .fieldRef 2 5)], 7⟩,
      (withField.pool.known.insertIfNew (.nameAndType 3 4) 5).insertIfNew (.fieldRef 2 5) 6⟩ }

/-- The class `A` whose field has a signature. -/
def withSignature : ClassFile :=
  { withReference with
    pool := ⟨⟨withReference.pool.slots.entries ++ #[(7, .utf8 "Signature")], 8⟩,
      withReference.pool.known.insertIfNew (.utf8 "Signature") 7⟩
    fields := [⟨0, 3, 4, [⟨7, (AttributeBody.signature 4).write⟩]⟩] }

theorem addField_bare : addField 0 "f" "LA;" bare = (.ok ⟨0, 3, 4, []⟩, withField) := by
  have hf : getUtf8 "f" bare.pool = push (.utf8 "f") bare.pool := share_new (by simp [bare])
  obtain ⟨mid, hmid⟩ : ∃ mid, push (.utf8 "f") bare.pool = (.ok 3, mid) := ⟨_, rfl⟩
  have hi : getUtf8 "LA;" mid = (.ok 4, withField.pool) := by
    cases hmid
    exact share_new (by simp [bare, Constant.isShared])
  have hnew : newMember 0 "f" "LA;" bare.pool = (.ok ⟨0, 3, 4, []⟩, withField.pool) := by
    simp only [newMember, bind_apply, hf, hmid, hi]
    rfl
  have hpool : onPool (newMember 0 "f" "LA;") bare =
      (.ok ⟨0, 3, 4, []⟩, { bare with pool := withField.pool }) := by
    simp only [onPool, hnew]
  simp only [addField, bind_apply, hpool]
  rfl

theorem getFieldRef_withField :
    getFieldRef "A" "f" "LA;" withField.pool = (.ok 6, withReference.pool) := by
  have hknown : ∀ constant index, (constant, index) ∈ [(Constant.utf8 "A", 1), (.classRef 1, 2),
      (.utf8 "f", 3), (.utf8 "LA;", 4)] →
      share constant withField.pool = (.ok index, withField.pool) := by
    intro constant index hm
    refine share_known ?_
    fin_cases hm <;> simp [withField, bare, Std.HashMap.getElem_insertIfNew]
  obtain ⟨mid, hmid⟩ : ∃ mid, push (.nameAndType 3 4) withField.pool = (.ok 5, mid) := ⟨_, rfl⟩
  have hnat : share (.nameAndType 3 4) withField.pool = (.ok 5, mid) := by
    rw [← hmid]
    exact share_new (by simp [withField, bare])
  have href : share (.fieldRef 2 5) mid = (.ok 6, withReference.pool) := by
    cases hmid
    exact share_new (by simp [withField, bare, Constant.isShared])
  have hclass : getClass "A" withField.pool = (.ok 2, withField.pool) :=
    bind_ok_iff.2 ⟨1, _, hknown _ _ (by simp), hknown _ _ (by simp)⟩
  have hmember : getMember "A" "f" "LA;" withField.pool = (.ok (2, 5), mid) :=
    bind_ok_iff.2 ⟨2, _, hclass, bind_ok_iff.2 ⟨3, _, hknown _ _ (by simp),
      bind_ok_iff.2 ⟨4, _, hknown _ _ (by simp), bind_ok_iff.2 ⟨5, mid, hnat, rfl⟩⟩⟩⟩
  exact bind_ok_iff.2 ⟨(2, 5), mid, hmember, href⟩

theorem addAttribute_withReference :
    addAttribute (.field 0) "Signature" (.signature 4) withReference =
      (.ok ⟨7, (AttributeBody.signature 4).write⟩, withSignature) := by
  have hname : getUtf8 "Signature" withReference.pool = (.ok 7, withSignature.pool) :=
    share_new (by simp [withReference, withField, bare])
  have hnew : newAttribute "Signature" (.signature 4) withReference.pool =
      (.ok ⟨7, (AttributeBody.signature 4).write⟩, withSignature.pool) :=
    bind_ok_iff.2 ⟨7, _, hname, rfl⟩
  have hpool : onPool (newAttribute "Signature" (.signature 4)) withReference =
      (.ok ⟨7, (AttributeBody.signature 4).write⟩,
        { withReference with pool := withSignature.pool }) := by
    simp only [onPool, hnew]
  exact bind_ok_iff.2 ⟨_, _, hpool, rfl⟩

theorem built_withSignature : Built withSignature := by
  have hfield : Built withField := by
    have h := Built.addField (.create create_bare) 0 "f" "LA;"
    rwa [addField_bare] at h
  have hreference : Built withReference := by
    have h := hfield.get (.getFieldRef "A" "f" "LA;") rfl
    have hpool : onPool (getFieldRef "A" "f" "LA;") withField = (.ok 6, withReference) := by
      simp only [onPool, getFieldRef_withField]
      rfl
    rwa [Operation.run, hpool] at h
  have h := hreference.addAttribute (.field 0) "Signature" (.signature 4)
  rwa [addAttribute_withReference] at h

theorem fits_withSignature : withSignature.Fits := by
  have hfield : Member.Fits ⟨0, 3, 4, [⟨7, (AttributeBody.signature 4).write⟩]⟩ := by
    simp [Member.Fits, FitsList, Attribute.Fits, AttributeBody.write]
  exact ⟨by decide, ⟨by decide, by simpa [withSignature] using hfield⟩,
    ⟨by decide, by simp [withSignature, withReference, withField, bare]⟩,
    ⟨by decide, by simp [withSignature, withReference, withField, bare]⟩⟩

/-- The bytes of a class `A` with a field `f`, a method `m` that takes an `A`, references to both
and a constant of two slots. The method has code with a local variable; the class has an annotation
with an enum constant and an array around another annotation, and is a record. -/
def sampleBytes : Bytes :=
  [202, 254, 186, 190, 0, 0, 0, 52, 0, 21, 1, 0, 1, 65, 7, 0, 1, 1, 0, 1, 102, 1, 0, 1, 73, 5, 0, 0,
   0, 0, 0, 0, 0, 7, 1, 0, 1, 109, 1, 0, 6, 40, 76, 65, 59, 41, 86, 12, 0, 3, 0, 4, 9, 0, 2, 0, 9,
   12, 0, 7, 0, 8, 10, 0, 2, 0, 11, 1, 0, 4, 67, 111, 100, 101, 1, 0, 18, 76, 111, 99, 97, 108, 86,
   97, 114, 105, 97, 98, 108, 101, 84, 97, 98, 108, 101, 1, 0, 3, 76, 65, 59, 1, 0, 4, 116, 104,
   105, 115, 1, 0, 25, 82, 117, 110, 116, 105, 109, 101, 86, 105, 115, 105, 98, 108, 101, 65, 110,
   110, 111, 116, 97, 116, 105, 111, 110, 115, 1, 0, 5, 118, 97, 108, 117, 101, 1, 0, 6, 82, 101,
   99, 111, 114, 100, 1, 0, 9, 83, 105, 103, 110, 97, 116, 117, 114, 101, 0, 33, 0, 2, 0, 0, 0, 0,
   0, 1, 0, 0, 0, 3, 0, 4, 0, 0, 0, 1, 0, 1, 0, 7, 0, 8, 0, 1, 0, 13, 0, 0, 0, 31, 0, 1, 0, 2, 0, 0,
   0, 1, 177, 0, 0, 0, 1, 0, 14, 0, 0, 0, 12, 0, 1, 0, 0, 0, 1, 0, 16, 0, 15, 0, 0, 0, 2, 0, 17, 0,
   0, 0, 28, 0, 1, 0, 15, 0, 2, 0, 18, 101, 0, 15, 0, 3, 0, 18, 91, 0, 1, 64, 0, 15, 0, 1, 0, 18,
   99, 0, 15, 0, 19, 0, 0, 0, 16, 0, 1, 0, 3, 0, 4, 0, 1, 0, 20, 0, 0, 0, 2, 0, 15]

/-- The class that `sampleBytes` stand for. -/
def sample : ClassFile := (parse sampleBytes).toOption.getD default

/-- The constants of `sample`. -/
def sampleConstants : List (PoolIndex × Constant) :=
  [(1, .utf8 "A"), (2, .classRef 1), (3, .utf8 "f"), (4, .utf8 "I"), (5, .long 7), (7, .utf8 "m"),
    (8, .utf8 "(LA;)V"), (9, .nameAndType 3 4), (10, .fieldRef 2 9), (11, .nameAndType 7 8),
    (12, .methodRef 2 11 false), (13, .utf8 "Code"), (14, .utf8 "LocalVariableTable"),
    (15, .utf8 "LA;"), (16, .utf8 "this"), (17, .utf8 "RuntimeVisibleAnnotations"),
    (18, .utf8 "value"), (19, .utf8 "Record"), (20, .utf8 "Signature")]

theorem parse_sample : parse sampleBytes = .ok sample := Fallible.eq_ok_getD (by decide +kernel)

theorem pool_sample : sample.pool.toList = sampleConstants ∧ sample.pool.slots.next = 21 := by
  have h : (fun file : ClassFile => (file.pool.toList, file.pool.slots.next)) <$>
      parse sampleBytes = .ok (sampleConstants, 21) := by decide +kernel
  rw [parse_sample] at h
  exact Prod.ext_iff.1 (Except.ok.inj h)

theorem header_sample : sample.flags = 0x21 ∧ sample.thisClass = 2 ∧ sample.superClass = none ∧
    sample.interfaces = [] := by
  have h : (fun file : ClassFile => (file.flags, file.thisClass, file.superClass,
      file.interfaces)) <$> parse sampleBytes = .ok (0x21, 2, none, []) := by decide +kernel
  rw [parse_sample] at h
  simpa using Except.ok.inj h

/-- The local variable of the method of `sample`. -/
def sampleVariables : AttributeBody := .localVariables [⟨0, 1, 16, 15, 0⟩]

def sampleCode : AttributeBody := .code ⟨1, 2, [0xB1], [], [⟨14, sampleVariables.write⟩]⟩

/-- The annotation of `sample`. -/
def sampleAnnotations : AttributeBody :=
  .annotations [⟨15, [(18, .enumConstant 15 3),
    (18, .array [.nested 15 [(18, .classLiteral 15)]])]⟩]

/-- The one component of the record `sample`, which has a signature. -/
def sampleRecord : AttributeBody := .record [⟨3, 4, [⟨20, (AttributeBody.signature 15).write⟩]⟩]

theorem members_sample : sample.fields = [⟨0, 3, 4, []⟩] ∧
    sample.methods = [⟨1, 7, 8, [⟨13, sampleCode.write⟩]⟩] ∧
    sample.attributes = [⟨17, sampleAnnotations.write⟩, ⟨19, sampleRecord.write⟩] := by
  have hcode : sampleCode.write = [0, 1, 0, 2, 0, 0, 0, 1, 177, 0, 0, 0, 1, 0, 14, 0, 0, 0, 12, 0,
      1, 0, 0, 0, 1, 0, 16, 0, 15, 0, 0] := by decide +kernel
  have hannotations : sampleAnnotations.write = [0, 1, 0, 15, 0, 2, 0, 18, 101, 0, 15, 0, 3, 0, 18,
      91, 0, 1, 64, 0, 15, 0, 1, 0, 18, 99, 0, 15] := by
    simp only [sampleAnnotations, AttributeBody.write, AnnotationUse.write, Bytes.counted,
      List.flatMap_cons, List.flatMap_nil, ElementValue.write_enumConstant,
      ElementValue.write_array, ElementValue.write_nested, ElementValue.write_classLiteral]
    decide +kernel
  have hrecord : sampleRecord.write = [0, 1, 0, 3, 0, 4, 0, 1, 0, 20, 0, 0, 0, 2, 0, 15] := by
    decide +kernel
  rw [hcode, hannotations, hrecord]
  have h : (fun file : ClassFile => (file.fields, file.methods, file.attributes)) <$>
      parse sampleBytes = .ok ([⟨0, 3, 4, []⟩],
        [⟨1, 7, 8, [⟨13, [0, 1, 0, 2, 0, 0, 0, 1, 177, 0, 0, 0, 1, 0, 14, 0, 0, 0, 12, 0, 1, 0, 0,
          0, 1, 0, 16, 0, 15, 0, 0]⟩]⟩],
        [⟨17, [0, 1, 0, 15, 0, 2, 0, 18, 101, 0, 15, 0, 3, 0, 18, 91, 0, 1, 64, 0, 15, 0, 1, 0, 18,
          99, 0, 15]⟩, ⟨19, [0, 1, 0, 3, 0, 4, 0, 1, 0, 20, 0, 0, 0, 2, 0, 15]⟩]) := by
    decide +kernel
  rw [parse_sample] at h
  simpa using Except.ok.inj h

theorem decode_sampleVariables :
    AttributeBody.decode .localVariables "LocalVariableTable" sampleVariables.write =
      .ok sampleVariables := by
  refine AttributeBody.decode_ok_iff.2 ⟨rfl, ⟨0, ?_⟩, rfl⟩
  simp [AttributeBody.Fits, sampleVariables]

theorem decode_sampleCode :
    AttributeBody.decode .code "Code" sampleCode.write = .ok sampleCode := by
  refine AttributeBody.decode_ok_iff.2 ⟨rfl, ⟨0, ?_⟩, rfl⟩
  have hlength : sampleVariables.write.length = 12 := by decide +kernel
  simp [AttributeBody.Fits, sampleCode, Code.Fits, FitsList, Attribute.Fits, hlength]

theorem decode_sampleAnnotations :
    AttributeBody.decode .annotations "RuntimeVisibleAnnotations" sampleAnnotations.write =
      .ok sampleAnnotations := by
  have hinner : (ElementValue.nested 15 [(18, .classLiteral 15)]).Fits 2 := by
    simp [ElementValue.Fits, FitsList]
  have harray : (ElementValue.array [.nested 15 [(18, .classLiteral 15)]]).Fits 3 :=
    ⟨by decide, by simpa using hinner⟩
  have huse : AnnotationUse.Fits 3 ⟨15, [(18, .enumConstant 15 3),
      (18, .array [.nested 15 [(18, .classLiteral 15)]])]⟩ := by
    refine ⟨by decide, fun element hm => ?_⟩
    rcases List.mem_pair.1 hm with rfl | rfl
    · trivial
    · exact harray
  exact AttributeBody.decode_ok_iff.2 ⟨rfl, ⟨3, by decide, by simpa using huse⟩, rfl⟩

theorem decode_signature (index : PoolIndex) :
    AttributeBody.decode .signature "Signature" (AttributeBody.signature index).write =
      .ok (.signature index) := by
  refine AttributeBody.decode_ok_iff.2 ⟨rfl, ⟨0, ?_⟩, rfl⟩
  simp [AttributeBody.Fits]

theorem decode_sampleRecord :
    AttributeBody.decode .record "Record" sampleRecord.write = .ok sampleRecord := by
  refine AttributeBody.decode_ok_iff.2 ⟨rfl, ⟨0, ?_⟩, rfl⟩
  have hlength : (AttributeBody.signature 15).write.length = 2 := by decide +kernel
  simp [AttributeBody.Fits, sampleRecord, FitsList, Attribute.Fits, RecordComponent.Fits, hlength]

/-- Class files are read and written the same way: what is read is written as it was, and a class
that was built is read back as it is, with every constant at its index. -/
theorem parse_write_inverse :
    (∀ bytes file, parse bytes = .ok file → file.write = .ok bytes) ∧
    ∀ file, Built file → file.Fits → ∃ bytes pool, file.write = .ok bytes ∧
      parse bytes = .ok { file with pool } ∧ pool.slots = file.pool.slots := by
  refine ⟨fun bytes file h => write_of_parse h, fun file hb hf => ?_⟩
  have hw := hb.wellBuilt
  exact parse_of_write hw.pool.sound hw.pool.writable hw.superClass hf

theorem parse_write_inverse_sample : sample.write = .ok sampleBytes ∧
    ∃ bytes pool, withSignature.write = .ok bytes ∧ parse bytes = .ok { withSignature with pool } ∧
      pool.slots = withSignature.pool.slots :=
  ⟨parse_write_inverse.1 sampleBytes sample parse_sample,
    parse_write_inverse.2 withSignature built_withSignature fits_withSignature⟩

end ClassFile

end JarRename
