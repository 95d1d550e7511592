import Mathlib
import JarRename.Proofs.Mapping.Identity
import JarRename.Proofs.Renaming.Class
import JarRename.Proofs.Renaming.Steps

/-!
# Identity mappings change no byte

When every symbol keeps its text, no step looks for a constant, so the pool stays as it is and every
part of the class is given back. What is written is then what was read.
-/
namespace JarRename.Renaming

open ConstantPool Stateful

variable {r : Remapper}

theorem steady_identity (h : r.mappings.IsIdentity) (pool : ConstantPool) :
    Steady r (· = pool) True where
  text := fun _ _ _ _ hm => Remapper.eq_of_mapText h hm
  className := fun _ _ _ hm => Remapper.eq_of_mapClassConstant h hm
  memberName := fun _ _ _ _ _ _ hm => Remapper.eq_of_mapMemberName h hm
  share := fun hs => absurd trivial hs

theorem renameConstants_identity (h : r.mappings.IsIdentity) {pool after : ConstantPool}
    {names : Std.HashMap PoolIndex String} (hr : renameConstants r pool = (.ok names, after)) :
    names = ∅ ∧ after = pool := by
  obtain ⟨found, grown, hchanges, hnames, happly⟩ := renameConstants_steps hr
  obtain ⟨hg, hf⟩ := returns_changes (steady_identity h pool) [] _ pool found grown rfl hchanges
  rw [hf trivial] at hnames happly
  cases happly
  exact ⟨hnames, hg⟩

theorem renameClass_identity (h : r.mappings.IsIdentity) {file renamed : ClassFile} {name : String}
    (hr : r.renameClass file = .ok (name, renamed)) : renamed = file := by
  obtain ⟨className, names, mid, -, hconst, hrest, -, hframe⟩ := renameClass_steps hr
  obtain ⟨hnames, rfl⟩ := renameConstants_identity h hconst
  obtain ⟨hpool, hparts⟩ := @returns_members _ _ ⟨r, className, names⟩ (steady_identity h file.pool)
    (fun _ => hnames) file.fields file.methods file.attributes file.pool _ _ rfl hrest
  obtain ⟨hf, hm, ha⟩ : renamed.fields = file.fields ∧ renamed.methods = file.methods ∧
      renamed.attributes = file.attributes := by
    simpa using hparts trivial
  rw [hframe, hpool, hf, hm, ha]

/-- Where every mapping gives a symbol its own name, the bytes that come out are those that went in,
and the name that is reported is that of the class. -/
theorem renameBytes_identity (h : r.mappings.IsIdentity) {bytes written : Bytes} {name : String}
    (hr : r.renameBytes bytes = .ok (name, written)) :
    written = bytes ∧ ∃ file, ClassFile.parse bytes = .ok file ∧ file.name = .ok name := by
  obtain ⟨file, hp, hr⟩ := Fallible.bind_ok_iff.1 hr
  obtain ⟨⟨found, renamed⟩, hc, hr⟩ := Fallible.bind_ok_iff.1 hr
  obtain ⟨out, hw, hr⟩ := Fallible.bind_ok_iff.1 hr
  cases hr
  obtain ⟨-, -, -, -, -, -, hname, -⟩ := renameClass_steps hc
  obtain rfl := renameClass_identity h hc
  rw [ClassFile.write_of_parse hp] at hw
  cases hw
  exact ⟨rfl, renamed, hp, hname⟩

section Sample

open ClassFile

/-- Gives the class `A`, its field `f` and its method `m` the names that they have. -/
def identityRemapper : Remapper :=
  ⟨.empty, ((MappingSet.empty.insertClass sampleName sampleName).insertField
    ⟨sampleName, sampleKey.name, none⟩ sampleKey.name).insertMethod
      ⟨sampleName, methodKey.name, methodKey.descriptor⟩ methodKey.name⟩

theorem isIdentity_sample : identityRemapper.mappings.IsIdentity :=
  ((MappingSet.isIdentity_empty.insertClass sampleName).insertField
    ⟨sampleName, sampleKey.name, none⟩).insertMethod
      ⟨sampleName, methodKey.name, methodKey.descriptor⟩

theorem renameBytes_sample_identity (h : r.mappings.IsIdentity) (hb : r.mappings.Brief) :
    r.renameBytes sampleBytes = .ok ("A", sampleBytes) := by
  have hmapped : r.mapClass "A" = "A" := MappingSet.mapClass_eq_self h "A"
  obtain ⟨renamed, hr⟩ := renameClass_sample (.inl hmapped) hb
  obtain rfl := renameClass_identity h hr
  rw [hmapped] at hr
  simp only [Remapper.renameBytes, parse_sample, bind, Except.bind, hr, write_of_parse parse_sample]
  rfl

theorem renameBytes_identity_sample : ∃ written,
    identityRemapper.mappings.class? "A" = some sampleName ∧
      identityRemapper.renameBytes sampleBytes = .ok ("A", written) ∧ written = sampleBytes := by
  have hbrief : identityRemapper.mappings.Brief :=
    ((MappingSet.brief_empty.insertClass _ _).insertField _ (by decide +kernel)).insertMethod _
      (by decide +kernel)
  have hr := renameBytes_sample_identity isIdentity_sample hbrief
  refine ⟨sampleBytes, ?_, hr, (renameBytes_identity isIdentity_sample hr).1⟩
  simp [identityRemapper, MappingSet.class?, MappingSet.insertMethod, MappingSet.insertField,
    MappingSet.insertClass, ClassTable.get?, ClassTable.insert, ofString?_sample]

end Sample

end JarRename.Renaming
