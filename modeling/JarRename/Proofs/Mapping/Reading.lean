import Mathlib
import JarRename.Mapping.Format

/-!
# A line is read as a whole or not at all

Every reader checks all columns of a line before it changes anything, and what it does after that
cannot fail. So a line that is refused has changed nothing.
-/
namespace JarRename.Mapping

namespace Reading

variable {α β : Type} {reading : Reading α} {next : α → Reading β} {progress : Progress}

section Outcome

@[simp] theorem outcome_pure (a : α) : (pure a : Reading α).outcome progress = (.ok a, progress) :=
  rfl

@[simp] theorem outcome_throw (e : LineError) :
    (throw e : Reading α).outcome progress = (.error e, progress) := rfl

@[simp] theorem outcome_lift (check : Except LineError α) :
    (liftM check : Reading α).outcome progress = (check, progress) := rfl

theorem outcome_bind : (reading >>= next).outcome progress =
    match reading.outcome progress with
    | (.ok a, progress) => (next a).outcome progress
    | (.error e, progress) => (.error e, progress) := by
  show ExceptT.bindCont (m := StateM Progress) next (reading.outcome progress).1
    (reading.outcome progress).2 = _
  rcases reading.outcome progress with ⟨_ | _, _⟩ <;> rfl

theorem outcome_bind_ok {a : α} {after : Progress}
    (h : reading.outcome progress = (.ok a, after)) :
    (reading >>= next).outcome progress = (next a).outcome after := by
  rw [outcome_bind, h]

/-- What follows a check is read as if there were no check, if the check succeeds. -/
@[simp] theorem outcome_lift_ok (a : α) :
    ((liftM (Except.ok a : Except LineError α) : Reading α) >>= next).outcome progress =
      (next a).outcome progress := outcome_bind_ok rfl

@[simp] theorem outcome_insertClass (name mapped : BinaryName) :
    (insertClass name mapped).outcome progress =
      (.ok (), { progress with set := progress.set.insertClass name mapped }) := rfl

@[simp] theorem outcome_insertField (key : FieldKey) (mapped : UnqualifiedName) :
    (insertField key mapped).outcome progress =
      (.ok (), { progress with set := progress.set.insertField key mapped }) := rfl

@[simp] theorem outcome_insertMethod (key : MethodKey) (mapped : UnqualifiedName) :
    (insertMethod key mapped).outcome progress =
      (.ok (), { progress with set := progress.set.insertMethod key mapped }) := rfl

@[simp] theorem outcome_enter (current : Option BinaryName) :
    (enter current).outcome progress = (.ok (), { progress with current := current }) := rfl

theorem outcome_owner : owner.outcome progress =
    (match progress.current with
      | some name => .ok name
      | none => .error .noClass, progress) := by
  rcases progress with ⟨_ | name, set⟩ <;> rfl

end Outcome

/-- The step changes nothing. -/
def Checks (reading : Reading α) : Prop :=
  ∀ progress, (reading.outcome progress).2 = progress

/-- The step cannot fail. -/
def Succeeds (reading : Reading α) : Prop :=
  ∀ progress, ∃ a after, reading.outcome progress = (.ok a, after)

/-- Where the step fails, it has changed nothing. -/
def Atomic (reading : Reading α) : Prop :=
  ∀ progress e after, reading.outcome progress = (.error e, after) → after = progress

section Atomic

theorem checks_pure (a : α) : (pure a : Reading α).Checks := fun _ => rfl

theorem checks_throw (e : LineError) : (throw e : Reading α).Checks := fun _ => rfl

theorem checks_lift (check : Except LineError α) : (liftM check : Reading α).Checks := fun _ => rfl

theorem checks_owner : owner.Checks := fun progress => by rw [outcome_owner]

theorem succeeds_insertClass (name mapped : BinaryName) : (insertClass name mapped).Succeeds :=
  fun _ => ⟨(), _, rfl⟩

theorem succeeds_insertField (key : FieldKey) (mapped : UnqualifiedName) :
    (insertField key mapped).Succeeds := fun _ => ⟨(), _, rfl⟩

theorem succeeds_insertMethod (key : MethodKey) (mapped : UnqualifiedName) :
    (insertMethod key mapped).Succeeds := fun _ => ⟨(), _, rfl⟩

theorem succeeds_enter (current : Option BinaryName) : (enter current).Succeeds :=
  fun _ => ⟨(), _, rfl⟩

theorem Succeeds.bind (first : reading.Succeeds) (rest : ∀ a, (next a).Succeeds) :
    (reading >>= next).Succeeds := by
  intro progress
  obtain ⟨a, after, h⟩ := first progress
  rw [outcome_bind_ok h]
  exact rest a after

theorem Succeeds.atomic (h : reading.Succeeds) : reading.Atomic := by
  intro progress e after he
  obtain ⟨a, other, ha⟩ := h progress
  rw [ha] at he
  cases he

theorem Checks.atomic (h : reading.Checks) : reading.Atomic := by
  intro progress e after he
  have hsame := h progress
  rwa [he] at hsame

/-- Checks may come before a step that fails without a change. -/
theorem Checks.bind (first : reading.Checks) (rest : ∀ a, (next a).Atomic) :
    (reading >>= next).Atomic := by
  intro progress e after he
  have hsame := first progress
  rw [outcome_bind] at he
  rcases hr : reading.outcome progress with ⟨_ | a, other⟩ <;> rw [hr] at hsame he
  · cases he
    exact hsame
  · cases hsame
    exact rest a other e after he

end Atomic

end Reading

open Reading

theorem Srg.atomic_readColumns (columns : List String) : (Srg.readColumns columns).Atomic := by
  unfold Srg.readColumns
  split
  case h_1 => exact (checks_pure ()).atomic
  case h_2 =>
    exact (checks_lift _).bind fun _ => (checks_lift _).bind fun _ =>
      (succeeds_insertClass _ _).atomic
  case h_3 =>
    exact (checks_lift _).bind fun _ => (checks_lift _).bind fun _ =>
      (succeeds_insertField _ _).atomic
  case h_4 =>
    exact (checks_lift _).bind fun _ => (checks_lift _).bind fun _ => (checks_lift _).bind fun _ =>
      (succeeds_insertField _ _).atomic
  case h_5 =>
    exact (checks_lift _).bind fun _ => (checks_lift _).bind fun _ => (checks_lift _).bind fun _ =>
      (succeeds_insertMethod _ _).atomic
  case h_6 => split <;> exact (checks_throw _).atomic
  case h_7 => exact (checks_throw _).atomic

theorem Csrg.atomic_readColumns (columns : List String) : (Csrg.readColumns columns).Atomic := by
  unfold Csrg.readColumns
  split
  case h_1 =>
    split
    · exact (checks_pure ()).atomic
    · exact (checks_lift _).bind fun _ => (checks_lift _).bind fun _ =>
        (succeeds_insertClass _ _).atomic
  case h_2 =>
    exact (checks_lift _).bind fun _ => (checks_lift _).bind fun _ => (checks_lift _).bind fun _ =>
      (succeeds_insertField _ _).atomic
  case h_3 =>
    exact (checks_lift _).bind fun _ => (checks_lift _).bind fun _ => (checks_lift _).bind fun _ =>
      (checks_lift _).bind fun _ => (succeeds_insertMethod _ _).atomic
  case h_4 => exact (checks_throw _).atomic

/-- The class is entered only after both of its names have been checked. -/
theorem Tsrg.atomic_readClass (columns : List String) : (Tsrg.readClass columns).Atomic := by
  unfold Tsrg.readClass
  split
  · split
    · exact (succeeds_enter none).atomic
    · exact (checks_lift _).bind fun _ => (checks_lift _).bind fun _ =>
        ((succeeds_insertClass _ _).bind fun _ => succeeds_enter _).atomic
  · exact (checks_throw _).atomic

theorem Tsrg.atomic_readMember (owner : BinaryName) (columns : List String) :
    (Tsrg.readMember owner columns).Atomic := by
  unfold Tsrg.readMember
  split
  case h_1 =>
    exact (checks_lift _).bind fun _ => (checks_lift _).bind fun _ =>
      (succeeds_insertField _ _).atomic
  case h_2 =>
    split
    · exact (checks_lift _).bind fun _ => (checks_lift _).bind fun _ =>
        (checks_lift _).bind fun _ => (succeeds_insertMethod _ _).atomic
    · exact (checks_lift _).bind fun _ => (checks_lift _).bind fun _ =>
        (checks_lift _).bind fun _ => (succeeds_insertField _ _).atomic
  case h_3 => exact (checks_throw _).atomic

theorem Tsrg.atomic_read (line : Line) : (Tsrg.read line).Atomic := by
  unfold Tsrg.read
  split
  · exact checks_owner.bind fun _ => Tsrg.atomic_readMember _ _
  · exact Tsrg.atomic_readClass _

theorem Proguard.atomic_interpret (record : Proguard.Record) :
    (Proguard.interpret record).Atomic := by
  unfold Proguard.interpret
  split
  case h_1 =>
    exact (checks_lift _).bind fun _ => (checks_lift _).bind fun _ =>
      ((succeeds_insertClass _ _).bind fun _ => succeeds_enter _).atomic
  case h_2 =>
    exact (checks_lift _).bind fun _ => checks_owner.bind fun _ => (checks_lift _).bind fun _ =>
      (checks_lift _).bind fun _ => (succeeds_insertField _ _).atomic
  case h_3 => exact (checks_pure ()).atomic
  case h_4 =>
    exact (checks_lift _).bind fun _ => checks_owner.bind fun _ => (checks_lift _).bind fun _ =>
      (checks_lift _).bind fun _ => (succeeds_insertMethod _ _).atomic
  case h_5 => exact (checks_pure ()).atomic

/-- No format leaves a line half read. -/
theorem atomic_lineReader (cut : List Char → Option Proguard.Record) (format : MappingFormat)
    (line : Line) : (format.lineReaderWith cut line).Atomic := by
  cases format with
  | srg => exact Srg.atomic_readColumns _
  | csrg => exact Csrg.atomic_readColumns _
  | tsrg => exact Tsrg.atomic_read line
  | proguard =>
    show (Proguard.readWith cut line).Atomic
    unfold Proguard.readWith
    split
    · exact (checks_throw _).atomic
    · exact Proguard.atomic_interpret _

theorem LineReader.atomic_readLine {reader : LineReader} (atomic : ∀ line, (reader line).Atomic)
    (text : String) : (reader.readLine text).Atomic := by
  unfold LineReader.readLine
  split
  · exact (checks_pure ()).atomic
  · exact atomic _

end JarRename.Mapping
