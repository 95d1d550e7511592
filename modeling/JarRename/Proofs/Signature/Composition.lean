import Mathlib
import JarRename.Proofs.Signature.Reading

/-!
# Renaming a signature twice

Renaming the classes of a signature by one function and then by another one is renaming them by the
composed function, as long as the first function gives names that can be written and keeps nested
classes nested. The text in between is then a phrase like the first one, with other names.
-/
namespace JarRename.Signature

namespace Phrase.IsReading

variable {p : Phrase} {source : String} (h : p.IsReading source)
include h

theorem rename_eq (m : Type → Type) [Monad m] [LawfulMonad m] (g : String → m String) :
    Signature.rename g source = (fun out => .ok (String.ofList out)) <$> p.rename g := by
  rw [← h.rename m g (Phrase.Alike.refl p), h.text, String.ofList_toList]

theorem rename_id_eq (f : String → String) :
    Signature.rename (m := Id) f source = .ok (String.ofList (p.rename (m := Id) f)) :=
  h.rename_eq Id f

theorem rename_self {f : String → String} (hf : ∀ name, f name = name) :
    Signature.rename (m := Id) f source = .ok source := by
  rw [h.rename_id_eq, p.rename_self hf, h.text, String.ofList_toList]

theorem rename_rename {f : String → String} (hf : ∀ call ∈ p.calls, call.Respected f)
    {renamed : String} (hrun : Signature.rename (m := Id) f source = .ok renamed)
    (m : Type → Type) [Monad m] [LawfulMonad m] (g : String → m String) :
    Signature.rename g renamed = Signature.rename (fun name => g (f name)) source := by
  obtain ⟨q, hq, ht, hr⟩ := p.exists_renamed hf
  obtain rfl : String.ofList q.text = renamed := by
    rw [h.rename_id_eq, Except.ok.injEq] at hrun
    rw [ht, hrun]
  rw [h.rename m g hq, hr, h.rename_eq]

end Phrase.IsReading

namespace Refuses

variable {source : String} {names : List String} {e : SignatureError} (h : Refuses source names e)
include h

theorem rename_id_eq (f : String → String) : rename (m := Id) f source = .error e :=
  h Id f

/-- No function is accepted, also if it keeps a state and fails. -/
theorem run_ne_ok {σ ε : Type} (g : String → StateT σ (Except ε) String) (s s' : σ)
    (renamed : String) : (rename g source).run s ≠ .ok (.ok renamed, s') := by
  intro hrun
  rw [h (StateT σ (Except ε)) g, StateT.run_map] at hrun
  cases hnames : (names.mapM g).run s with
  | error fault =>
    rw [hnames] at hrun
    cases hrun
  | ok answer =>
    rw [hnames] at hrun
    cases hrun

end Refuses

/-- A signature whose classes keep their names stays as it is. -/
theorem eq_of_rename {f : String → String} (hf : ∀ name, f name = name) {source renamed : String}
    (h : rename (m := Id) f source = .ok renamed) : renamed = source := by
  obtain ⟨p, hp⟩ | ⟨names, e, he⟩ := rename_cases source
  · rw [hp.rename_self hf, Except.ok.injEq] at h
    exact h.symm
  · rw [he.rename_id_eq] at h
    cases h

/-- A signature is read in one way, whatever its classes are renamed to. If it is accepted with
any function, however that function remembers what it was asked and fails, then it stays
as it is if its names do. If `f` respects the names that are asked for, then renaming by `f` and
renaming the result by any `g` is renaming by `g` after `f`. A signature that is refused with `f` is
refused with `g` after `f` for the same flaw, unless `g` fails at a name that stands before it. -/
theorem rename_functorial (source : String) :
    (∀ (σ ε : Type) (g : String → StateT σ (Except ε) String) (s s' : σ) (renamed : String),
      (rename g source).run s = .ok (.ok renamed, s') →
      rename (m := Id) pure source = .ok source) ∧
    ∀ f : String → String,
      (∀ renamed, rename (m := Id) f source = .ok renamed →
        (∃ p : Phrase, p.IsReading source) ∧
        ∀ p : Phrase, p.IsReading source → (∀ call ∈ p.calls, call.Respected f) →
          ∀ (m : Type → Type) [Monad m] [LawfulMonad m] (g : String → m String),
            rename g renamed = rename (fun name => g (f name)) source) ∧
      ∀ e, rename (m := Id) f source = .error e →
        ∃ names : List String,
          ∀ (m : Type → Type) [Monad m] [LawfulMonad m] (g : String → m String),
            rename (fun name => g (f name)) source =
              (fun _ => .error e) <$> names.mapM fun name => g (f name) := by
  obtain ⟨p, hp⟩ | ⟨names, e, he⟩ := rename_cases source
  · constructor
    · intro σ ε g s s' renamed _
      exact hp.rename_self fun _ => rfl
    · refine fun f => ⟨fun renamed hrun => ⟨⟨p, hp⟩, fun q hq hf m _ _ g => ?_⟩, fun e he => ?_⟩
      · exact hq.rename_rename hf hrun m g
      · rw [hp.rename_id_eq] at he
        cases he
  · constructor
    · intro σ ε g s s' renamed hrun
      exact absurd hrun (he.run_ne_ok g s s' renamed)
    · refine fun f => ⟨fun renamed hrun => ?_, fun e' he' => ?_⟩
      · rw [he.rename_id_eq] at hrun
        cases hrun
      · rw [he.rename_id_eq, Except.error.injEq] at he'
        subst he'
        exact ⟨names, fun m _ _ g => he m fun name => g (f name)⟩

/-- A generic method whose types have bounds, wildcards, arrays and nested classes. -/
def nestedSignature : String := "<T:La/B;U::La/C<TT;>;>([La/B<+La/E;*>.D<TU;>.F;I)V^La/X;"

def movedSignature : String :=
  "<T:Lx/a/B;U::Lx/a/C<TT;>;>([Lx/a/B<+Lx/a/E;*>.D<TU;>.F;I)V^Lx/a/X;"

theorem rename_functorial_sample :
    rename (m := Id) pure nestedSignature = .ok nestedSignature ∧
    (∀ (m : Type → Type) [Monad m] [LawfulMonad m] (g : String → m String),
      rename g movedSignature = rename (fun name => g ("x/" ++ name)) nestedSignature) ∧
    ∃ names : List String, ∀ (m : Type → Type) [Monad m] [LawfulMonad m] (g : String → m String),
      rename (fun name => g ("x/" ++ name)) "La/B" =
        (fun _ => .error ⟨.classEndExpected, 4, "La/B"⟩) <$>
          names.mapM fun name => g ("x/" ++ name) := by
  have hmoved : rename (m := Id) ("x/" ++ ·) nestedSignature = .ok movedSignature := by rfl
  have hpackage : IsPart "x/" := by
    refine ⟨by decide, fun c hc => ?_⟩
    obtain rfl | rfl : c = 'x' ∨ c = '/' := by simpa using hc
    · rfl
    · rfl
  obtain ⟨hid, hrename⟩ := rename_functorial nestedSignature
  obtain ⟨⟨p, hp⟩, htwice⟩ := (hrename ("x/" ++ ·)).1 movedSignature hmoved
  refine ⟨?_, ?_, ?_⟩
  · refine hid Nat Unit (fun name asked => .ok (name, asked + 1)) 0 7 nestedSignature ?_
    rfl
  · exact htwice p hp fun call hc => (p.isWritable_of_mem_calls call hc).respected_append hpackage
  · refine ((rename_functorial "La/B").2 ("x/" ++ ·)).2 ⟨.classEndExpected, 4, "La/B"⟩ ?_
    rfl

/-- Renaming by `f`, and renaming the result by `g` if there is one. -/
def renameTwice {m : Type → Type} [Monad m] (f : String → String) (g : String → m String)
    (source : String) : m (Except SignatureError String) :=
  match rename (m := Id) f source with
  | .ok renamed => rename g renamed
  | .error e => pure (.error e)

/-- The result, or which kind of error there is: a name that is refused or a signature that is. -/
def outcome (run : Except NameError (Except SignatureError String)) :
    Except Unit (Except Unit String) :=
  (run.map (·.mapError fun _ => ())).mapError fun _ => ()

/-- Names are asked for before the text behind them is read. So a function that fails at a name
is noticed before a flaw behind the name, which renaming by another function first would find. -/
theorem renameTwice_ne_of_flaw :
    ¬ ∀ (source : String) (f : String → String) (g : String → Except NameError String),
      (∀ name : Part, IsPart (f name.text)) →
      (∀ outer simple : Part, IsNested (f outer.text) (f (outer.text ++ "$" ++ simple.text))) →
      outcome (renameTwice f g source) = outcome (rename (fun name => g (f name)) source) := by
  intro h
  have hflaw := h "La;)" id (fun name => .error (.illegalCharacter name)) Part.isPart_text
    fun outer simple => ⟨simple.text, simple.isPart_text.1, rfl⟩
  have htwice : outcome (renameTwice id (fun name => .error (.illegalCharacter name)) "La;)") =
      .ok (.error ()) := by rfl
  have honce : outcome (rename (fun name => .error (.illegalCharacter (id name))) "La;)") =
      .error () := by rfl
  rw [htwice, honce] at hflaw
  cases hflaw

end JarRename.Signature
