import Mathlib
import JarRename.Proofs.Mapping.BadLines
import JarRename.Proofs.Mapping.ClassNames
import JarRename.Proofs.Mapping.Descriptors
import JarRename.Proofs.Mapping.Listing
import JarRename.Proofs.Mapping.Rows

/-!
# One listing in three formats

A listing can be written as SRG, as compact SRG and as Tiny SRG. All three readers make the same
mappings of it, in which the last one listed for a class or member counts.
-/
namespace JarRename.Mapping

open Text Reading

/-- How a format writes a class, and a member below its class. -/
structure Writer where
  classColumns (block : ListedClass) : List String
  memberColumns (block : ListedClass) (member : ListedMember) : List String
  /-- What stands in front of a member. -/
  indent : List Char

namespace Writer

def lines (writer : Writer) (block : ListedClass) : List (List Char) :=
  row (writer.classColumns block) ::
    block.members.map fun member => writer.indent ++ row (writer.memberColumns block member)

/-- The text of a listing, with a line feed after every line. -/
def write (writer : Writer) (listing : Listing) : String :=
  String.ofList ((listing.flatMap writer.lines).flatMap (· ++ ['\n']))

/-- In SRG a method has a second descriptor, which holds the new names of the classes. -/
def srg (set : MappingSet) : Writer where
  classColumns block := ["CL:", block.name.text, block.mapped.text]
  memberColumns block
    | .field name mapped =>
      ["FD:", block.name.text ++ "/" ++ name.text, block.mapped.text ++ "/" ++ mapped.text]
    | .method name descriptor mapped =>
      ["MD:", block.name.text ++ "/" ++ name.text, descriptor.text,
        block.mapped.text ++ "/" ++ mapped.text, (descriptor.type.map set.mapBinaryName).text]
  indent := []

def csrg : Writer where
  classColumns block := [block.name.text, block.mapped.text]
  memberColumns block
    | .field name mapped => [block.name.text, name.text, mapped.text]
    | .method name descriptor mapped => [block.name.text, name.text, descriptor.text, mapped.text]
  indent := []

def tsrg : Writer where
  classColumns block := [block.name.text, block.mapped.text]
  memberColumns _
    | .field name mapped => [name.text, mapped.text]
    | .method name descriptor mapped => [name.text, descriptor.text, mapped.text]
  indent := "    ".toList

end Writer

/-- Every name of the listing is one word, in which no comment begins. -/
def Listing.Plain (listing : Listing) : Prop :=
  ∀ block ∈ listing, ∀ text ∈ block.texts, Mapping.Plain text

section Plain

variable {set : MappingSet}

theorem plain_mapBinaryName
    (plain : ∀ own mapped, set.class? own = some mapped → Plain mapped.text) {name : BinaryName}
    (h : Plain name.text) : Plain (set.mapBinaryName name).text := by
  intro c hc
  rw [MappingSet.mapBinaryName_text, MappingSet.mapClass, String.toList_ofList] at hc
  obtain hc | ⟨own, mapped, hm, hc⟩ := ClassTable.mem_mapName hc
  · exact h c hc
  · exact plain own mapped hm c hc

theorem plain_mapped (plain : ∀ own mapped, set.class? own = some mapped → Plain mapped.text)
    (descriptor : MethodDescriptor) (h : Plain descriptor.text) :
    Plain (descriptor.type.map set.mapBinaryName).text := by
  rw [← MethodType.text_of_parse descriptor.parse_eq, MethodType.text] at h
  intro c hc
  rw [MethodType.text, String.toList_ofList] at hc
  obtain hc | ⟨name, hn, hc⟩ := MethodType.mem_render_map hc
  · exact h c (by rwa [String.toList_ofList])
  · refine plain_mapBinaryName plain (fun c hc => h c ?_) c hc
    rw [String.toList_ofList]
    exact MethodType.mem_render hn hc

theorem Listing.Plain.class? {listing : Listing} (h : listing.Plain) {own : String}
    {mapped : BinaryName} (hc : listing.set.class? own = some mapped) :
    Mapping.Plain mapped.text := by
  rw [class?_set] at hc
  have hm := List.mem_reverse.1 (mem_of_lookup hc)
  obtain ⟨block, hb, hentry⟩ := List.mem_flatMap.1 hm
  cases List.mem_singleton.1 hentry
  exact h block hb _ (by simp [ListedClass.texts])

end Plain

section Checks

theorem binaryName_text (name : BinaryName) : binaryName name.text = .ok name := by
  rw [binaryName, BinaryName.ofString_text]
  rfl

theorem unqualifiedName_text (name : UnqualifiedName) : unqualifiedName name.text = .ok name := by
  rw [unqualifiedName, UnqualifiedName.ofString_text]
  rfl

theorem methodDescriptor_text (descriptor : MethodDescriptor) :
    methodDescriptor descriptor.text = .ok descriptor.text := by
  rw [methodDescriptor, descriptor.parse_eq]

theorem isPackage_text (name : BinaryName) : isPackage name.text = false := by
  rw [isPackage, beq_eq_false_iff_ne]
  exact Name.getLast?_ne_slash name.valid

/-- A member name holds no slash, so the last one ends the name of the class. -/
theorem splitMember_text (owner : BinaryName) (name : UnqualifiedName) :
    Srg.splitMember (owner.text ++ "/" ++ name.text) = .ok (owner, name) := by
  have hslash : '/' ∉ name.text.toList := fun hm =>
    absurd ((Name.partError?_eq_none_iff.1 name.valid).2 _ hm) (by decide)
  have hcut : cutLast? '/' (owner.text ++ "/" ++ name.text).toList =
      some (owner.text.toList, name.text.toList) := by
    simpa using cutLast?_append hslash owner.text.toList
  rw [Srg.splitMember, hcut]
  simp only [String.ofList_toList, binaryName_text, unqualifiedName_text]
  rfl

theorem descriptor_head (descriptor : MethodDescriptor) :
    descriptor.text.toList.head? = some '(' := by
  rw [← MethodType.text_of_parse descriptor.parse_eq, MethodType.text, String.toList_ofList]
  rfl

end Checks

/-- A reader gets back what a writer writes of a class: its own line may make the class current, and
the lines of its members leave that as it is. -/
structure Writer.ReadBack (writer : Writer) (reader : LineReader) (block : ListedClass) : Prop where
  indent_spaces : ∀ c ∈ writer.indent, c = ' '
  class_columns : Columns (writer.classColumns block)
  member_columns : ∀ member ∈ block.members, Columns (writer.memberColumns block member)
  reads : ∀ current, ∃ next,
    (∀ set, (reader ⟨row (writer.classColumns block)⟩).outcome ⟨current, set⟩ =
      (.ok (), ⟨next, set.insertClass block.name block.mapped⟩)) ∧
    ∀ member ∈ block.members, ∀ set,
      (reader ⟨writer.indent ++ row (writer.memberColumns block member)⟩).outcome ⟨next, set⟩ =
        (.ok (), ⟨next, member.addTo block.name set⟩)

section Run

variable {writer : Writer} {reader : LineReader} {block : ListedClass} {listing : Listing}

theorem passes_members (h : writer.ReadBack reader block) {next : Option BinaryName}
    {members : List ListedMember} (sub : members ⊆ block.members)
    (reads : ∀ member ∈ block.members, ∀ set,
      (reader ⟨writer.indent ++ row (writer.memberColumns block member)⟩).outcome ⟨next, set⟩ =
        (.ok (), ⟨next, member.addTo block.name set⟩)) (set : MappingSet) :
    reader.Passes ⟨next, set⟩ (members.map fun member =>
        String.ofList (writer.indent ++ row (writer.memberColumns block member)))
      ⟨next, members.foldl (ListedMember.addTo block.name) set⟩ := by
  induction members generalizing set with
  | nil => exact .nil
  | cons member members ih =>
    have hm : member ∈ block.members := sub List.mem_cons_self
    refine .cons ?_ (ih (fun other ho => sub (List.mem_cons_of_mem _ ho)) _)
    rw [readLine_row reader (h.member_columns member hm) h.indent_spaces]
    exact reads member hm set

theorem Writer.ReadBack.passes (h : writer.ReadBack reader block) (current : Option BinaryName)
    (set : MappingSet) :
    ∃ next, reader.Passes ⟨current, set⟩ ((writer.lines block).map String.ofList)
      ⟨next, block.addTo set⟩ := by
  obtain ⟨next, hclass, hmembers⟩ := h.reads current
  refine ⟨next, ?_⟩
  rw [Writer.lines, List.map_cons, List.map_map]
  refine .cons ?_ (passes_members h (fun _ hm => hm) hmembers _)
  have hline := readLine_row reader h.class_columns (List.forall_mem_nil _)
  rw [List.nil_append] at hline
  rw [hline]
  exact hclass set

theorem Writer.ReadBack.line_of_mem (h : writer.ReadBack reader block) {line : List Char}
    (hl : line ∈ writer.lines block) : '\n' ∉ line ∧ line.getLast? ≠ some '\r' := by
  obtain rfl | hl := List.mem_cons.1 hl
  · exact row_line h.class_columns (List.forall_mem_nil _)
  · obtain ⟨member, hm, rfl⟩ := List.mem_map.1 hl
    exact row_line (h.member_columns member hm) h.indent_spaces

theorem passes_listing (h : ∀ block ∈ listing, writer.ReadBack reader block)
    (current : Option BinaryName) (set : MappingSet) :
    ∃ next, reader.Passes ⟨current, set⟩ ((listing.flatMap writer.lines).map String.ofList)
      ⟨next, listing.foldl ListedClass.addTo set⟩ := by
  induction listing generalizing current set with
  | nil => exact ⟨current, .nil⟩
  | cons block listing ih =>
    obtain ⟨next, hblock⟩ := (h block List.mem_cons_self).passes current set
    obtain ⟨last, hrest⟩ := ih (fun other ho => h other (List.mem_cons_of_mem _ ho)) next
      (block.addTo set)
    refine ⟨last, ?_⟩
    rw [List.flatMap_cons, List.map_append]
    exact hblock.append hrest

/-- What is written of a listing is read as its mappings. -/
theorem readText_write (h : ∀ block ∈ listing, writer.ReadBack reader block) :
    reader.readText (writer.write listing) .empty = (.ok (), listing.set) := by
  have hlines : linesOf (writer.write listing) =
      (listing.flatMap writer.lines).map String.ofList := by
    rw [linesOf, Writer.write, String.toList_ofList, linesWith_flatMap]
    intro line hl
    obtain ⟨block, hb, hl⟩ := List.mem_flatMap.1 hl
    exact (h block hb).line_of_mem hl
  obtain ⟨next, hpasses⟩ := passes_listing h none .empty
  rw [LineReader.readText, hlines, hpasses.readLines]
  rfl

end Run

section Formats

variable {block : ListedClass} {set : MappingSet}

theorem column_binaryName {name : BinaryName} (h : Plain name.text) : Column name.text :=
  ⟨(Name.binaryError?_eq_none_iff.1 name.valid).1, h⟩

theorem column_unqualifiedName {name : UnqualifiedName} (h : Plain name.text) : Column name.text :=
  ⟨(Name.partError?_eq_none_iff.1 name.valid).1, h⟩

theorem column_descriptor {descriptor : MethodDescriptor} (h : Plain descriptor.text) :
    Column descriptor.text := by
  refine ⟨fun hnil => ?_, h⟩
  have hhead := descriptor_head descriptor
  rw [hnil] at hhead
  cases hhead

/-- The texts of a block can stand in columns. -/
structure ListedClass.Plain (block : ListedClass) : Prop where
  name : Column block.name.text
  mapped : Column block.mapped.text
  field : ∀ name mapped, .field name mapped ∈ block.members → Column name.text ∧ Column mapped.text
  method : ∀ name descriptor mapped, .method name descriptor mapped ∈ block.members →
    Column name.text ∧ Column descriptor.text ∧ Column mapped.text

theorem ListedClass.plain (h : ∀ text ∈ block.texts, Mapping.Plain text) : block.Plain where
  name := column_binaryName (h _ (by simp [ListedClass.texts]))
  mapped := column_binaryName (h _ (by simp [ListedClass.texts]))
  field name mapped hm := by
    have htexts : ∀ text ∈ [name.text, mapped.text], Mapping.Plain text := fun text ht =>
      h text (List.mem_cons_of_mem _ (List.mem_cons_of_mem _ (List.mem_flatMap.2 ⟨_, hm, ht⟩)))
    exact ⟨column_unqualifiedName (htexts _ (by simp)), column_unqualifiedName (htexts _ (by simp))⟩
  method name descriptor mapped hm := by
    have htexts : ∀ text ∈ [name.text, descriptor.text, mapped.text], Mapping.Plain text :=
      fun text ht =>
        h text (List.mem_cons_of_mem _ (List.mem_cons_of_mem _ (List.mem_flatMap.2 ⟨_, hm, ht⟩)))
    exact ⟨column_unqualifiedName (htexts _ (by simp)), column_descriptor (htexts _ (by simp)),
      column_unqualifiedName (htexts _ (by simp))⟩

theorem csrg_class (name mapped : BinaryName) (progress : Progress) :
    (Csrg.readColumns [name.text, mapped.text]).outcome progress =
      (.ok (), { progress with set := progress.set.insertClass name mapped }) := by
  simp [Csrg.readColumns, isPackage_text, binaryName_text]

theorem csrg_member (block : ListedClass) (member : ListedMember) (progress : Progress) :
    (Csrg.readColumns (Writer.csrg.memberColumns block member)).outcome progress =
      (.ok (), { progress with set := member.addTo block.name progress.set }) := by
  cases member <;>
    simp [Csrg.readColumns, Writer.csrg, ListedMember.addTo, binaryName_text, unqualifiedName_text,
      methodDescriptor_text]

theorem srg_class (name mapped : BinaryName) (progress : Progress) :
    (Srg.readColumns ["CL:", name.text, mapped.text]).outcome progress =
      (.ok (), { progress with set := progress.set.insertClass name mapped }) := by
  simp [Srg.readColumns, binaryName_text]

theorem srg_member (set : MappingSet) (block : ListedClass) (member : ListedMember)
    (progress : Progress) :
    (Srg.readColumns ((Writer.srg set).memberColumns block member)).outcome progress =
      (.ok (), { progress with set := member.addTo block.name progress.set }) := by
  cases member <;>
    simp [Srg.readColumns, Writer.srg, ListedMember.addTo, splitMember_text, methodDescriptor_text]

theorem tsrg_class (name mapped : BinaryName) (progress : Progress) :
    (Tsrg.readClass [name.text, mapped.text]).outcome progress =
      (.ok (), ⟨some name, progress.set.insertClass name mapped⟩) := by
  simp [Tsrg.readClass, isPackage_text, binaryName_text, outcome_bind]

theorem tsrg_member (block : ListedClass) (member : ListedMember) (progress : Progress) :
    (Tsrg.readMember block.name (Writer.tsrg.memberColumns block member)).outcome progress =
      (.ok (), { progress with set := member.addTo block.name progress.set }) := by
  cases member <;>
    simp [Tsrg.readMember, Writer.tsrg, ListedMember.addTo, unqualifiedName_text,
      methodDescriptor_text, descriptor_head]

/-- Formats in which the columns alone say what a line is about. -/
theorem readBack_of_columns {writer : Writer} {readColumns : List String → Reading Unit}
    (indent : ∀ c ∈ writer.indent, c = ' ') (hclass : Columns (writer.classColumns block))
    (hmembers : ∀ member ∈ block.members, Columns (writer.memberColumns block member))
    (class_step : ∀ progress, (readColumns (writer.classColumns block)).outcome progress =
      (.ok (), { progress with set := progress.set.insertClass block.name block.mapped }))
    (member_step : ∀ member progress,
      (readColumns (writer.memberColumns block member)).outcome progress =
        (.ok (), { progress with set := member.addTo block.name progress.set })) :
    writer.ReadBack (fun line => readColumns line.columns) block where
  indent_spaces := indent
  class_columns := hclass
  member_columns := hmembers
  reads current := by
    refine ⟨current, fun set => ?_, fun member hm set => ?_⟩
    · have hcolumns := columns_row hclass (List.forall_mem_nil _)
      rw [List.nil_append] at hcolumns
      rw [hcolumns]
      exact class_step _
    · rw [columns_row (hmembers member hm) indent]
      exact member_step member _

theorem plain_slash : Plain "/" := by simp [Plain, isBlank]

theorem column_kind {kind : String} (h : kind ∈ ["CL:", "FD:", "MD:"]) : Column kind := by
  simp only [List.mem_cons, List.not_mem_nil, or_false] at h
  obtain rfl | rfl | rfl := h <;> simp [Column, Plain, isBlank]

theorem srg_readBack (h : block.Plain)
    (plain : ∀ own mapped, set.class? own = some mapped → Plain mapped.text) :
    (Writer.srg set).ReadBack Srg.read block := by
  refine readBack_of_columns (List.forall_mem_nil _) ?_ (fun member hm => ?_)
    (srg_class block.name block.mapped) (srg_member set block)
  · simp [Writer.srg, Columns, column_kind, h.name, h.mapped]
  · have hjoined {owner : BinaryName} {name : UnqualifiedName} (ho : Column owner.text)
        (hn : Column name.text) : Column (owner.text ++ "/" ++ name.text) :=
      (ho.append plain_slash).append hn.2
    cases member with
    | field name mapped =>
      obtain ⟨hname, hmapped⟩ := h.field name mapped hm
      simp [Writer.srg, Columns, column_kind, hjoined h.name hname, hjoined h.mapped hmapped]
    | method name descriptor mapped =>
      obtain ⟨hname, hdescriptor, hmapped⟩ := h.method name descriptor mapped hm
      have hrenamed : Column (descriptor.type.map set.mapBinaryName).text :=
        ⟨by simp [MethodType.text, MethodType.render], plain_mapped plain descriptor hdescriptor.2⟩
      simp [Writer.srg, Columns, column_kind, hjoined h.name hname, hjoined h.mapped hmapped,
        hdescriptor, hrenamed]

theorem csrg_readBack (h : block.Plain) : Writer.csrg.ReadBack Csrg.read block := by
  refine readBack_of_columns (List.forall_mem_nil _) ?_ (fun member hm => ?_)
    (csrg_class block.name block.mapped) (csrg_member block)
  · simp [Writer.csrg, Columns, h.name, h.mapped]
  · cases member with
    | field name mapped => simp [Writer.csrg, Columns, h.name, h.field name mapped hm]
    | method name descriptor mapped =>
      simp [Writer.csrg, Columns, h.name, h.method name descriptor mapped hm]

/-- The first letter of a line tells a class from a member. -/
theorem tsrg_readBack (h : block.Plain) : Writer.tsrg.ReadBack Tsrg.read block := by
  have hindent : ∀ c ∈ Writer.tsrg.indent, c = ' ' := by simp [Writer.tsrg]
  have hclass : Columns (Writer.tsrg.classColumns block) := by
    simp [Writer.tsrg, Columns, h.name, h.mapped]
  have hmembers : ∀ member ∈ block.members, Columns (Writer.tsrg.memberColumns block member) := by
    intro member hm
    cases member with
    | field name mapped => simp [Writer.tsrg, Columns, h.field name mapped hm]
    | method name descriptor mapped =>
      simp [Writer.tsrg, Columns, h.method name descriptor mapped hm]
  refine ⟨hindent, hclass, hmembers, fun current => ⟨some block.name, fun set => ?_, ?_⟩⟩
  · obtain ⟨⟨c, rest, hrow, hc⟩, -⟩ := ends_of_row hclass
    have hindented : (Line.mk (row (Writer.tsrg.classColumns block))).isIndented = false := by
      rw [Line.isIndented, hrow]
      simpa using hc
    have hcolumns := columns_row hclass (List.forall_mem_nil _)
    rw [List.nil_append] at hcolumns
    rw [Tsrg.read, hindented, hcolumns]
    exact tsrg_class block.name block.mapped _
  · intro member hm set
    have hindented : (Line.mk (Writer.tsrg.indent ++
        row (Writer.tsrg.memberColumns block member))).isIndented = true := rfl
    rw [Tsrg.read, hindented, columns_row (hmembers member hm) hindent]
    exact tsrg_member block member _

end Formats

/-- For every listing whose names have no blanks and no comments in them: the three texts are read,
and the mappings are the last ones listed. -/
theorem listing_read_alike (listing : Listing) (plain : listing.Plain) :
    MappingFormat.srg.readText ((Writer.srg listing.set).write listing) .empty =
        (.ok (), listing.set) ∧
      MappingFormat.csrg.readText (Writer.csrg.write listing) .empty = (.ok (), listing.set) ∧
      MappingFormat.tsrg.readText (Writer.tsrg.write listing) .empty = (.ok (), listing.set) ∧
      (∀ name, listing.set.class? name = listing.classes.reverse.lookup name) ∧
      (∀ owner name descriptor,
        listing.set.field? owner name descriptor = listing.fields.reverse.lookup (owner, name)) ∧
      ∀ owner name descriptor, listing.set.method? owner name descriptor =
        listing.methods.reverse.lookup (owner, name, descriptor) := by
  have hblock : ∀ block ∈ listing, block.Plain := fun block hb => ListedClass.plain (plain block hb)
  have hmapped : ∀ own mapped, listing.set.class? own = some mapped → Mapping.Plain mapped.text :=
    fun _ _ hc => plain.class? hc
  exact ⟨readText_write fun block hb => srg_readBack (hblock block hb) hmapped,
    readText_write fun block hb => csrg_readBack (hblock block hb),
    readText_write fun block hb => tsrg_readBack (hblock block hb),
    class?_set listing, field?_set listing, method?_set listing⟩

/-- One class with a method and a field that is listed twice. -/
def sampleListing : Listing :=
  [⟨⟨"p/Q", by decide +kernel⟩, ⟨"net/Item", by decide +kernel⟩,
    [.field ⟨"r", by decide +kernel⟩ ⟨"rank", by decide +kernel⟩,
      .method ⟨"s", by decide +kernel⟩
        ⟨"(Lp/Q;)V", ⟨[.object ⟨"p/Q", by decide +kernel⟩], none⟩, by decide +kernel⟩
        ⟨"union", by decide +kernel⟩,
      .field ⟨"r", by decide +kernel⟩ ⟨"grade", by decide +kernel⟩]⟩]

theorem listing_read_alike_sample :
    sampleListing.Plain ∧
      MappingFormat.srg.readText ((Writer.srg sampleListing.set).write sampleListing) .empty =
        (.ok (), sampleListing.set) ∧
      MappingFormat.csrg.readText (Writer.csrg.write sampleListing) .empty =
        (.ok (), sampleListing.set) ∧
      MappingFormat.tsrg.readText (Writer.tsrg.write sampleListing) .empty =
        (.ok (), sampleListing.set) ∧
      sampleListing.set.class? "p/Q" = some ⟨"net/Item", by decide +kernel⟩ ∧
      sampleListing.set.field? "p/Q" "r" "I" = some ⟨"grade", by decide +kernel⟩ ∧
      sampleListing.set.method? "p/Q" "s" "(Lp/Q;)V" = some ⟨"union", by decide +kernel⟩ := by
  have hplain : sampleListing.Plain := by
    have hall : (sampleListing.all fun block => block.texts.all fun text =>
        text.toList.all fun c => !isBlank c && c != '#') = true := by decide +kernel
    simp only [List.all_eq_true, Bool.and_eq_true, Bool.not_eq_true', bne_iff_ne] at hall
    exact hall
  obtain ⟨hsrg, hcsrg, htsrg, hclass, hfield, hmethod⟩ := listing_read_alike sampleListing hplain
  refine ⟨hplain, hsrg, hcsrg, htsrg, ?_, ?_, ?_⟩
  · rw [hclass]
    rfl
  · rw [hfield]
    rfl
  · rw [hmethod]
    rfl

end JarRename.Mapping
