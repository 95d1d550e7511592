import Mathlib
import JarRename.Proofs.Signature.Phrase

/-!
# Parts of the renaming that accept a phrase or refuse the text

Renaming decides by the marks of a text alone where the names are, and a name ends at the next mark.
So a part of the renaming does one of two things with a text, whatever the function is that gives
the names. It accepts a phrase at the beginning of the text and renames it, and does the same with
every phrase that is alike, as long as the character behind it is the same. Or it asks for some
names and then refuses the text. This holds of the smallest parts, and of two parts one after the
other if it holds of each.
-/
namespace JarRename.Signature

/-- A part of the renaming, in any monad and for any function that gives the names. `depth` bounds
how deep classes are nested and `rounds` how often a loop runs. -/
abbrev Walk := ∀ (m : Type → Type) [Monad m], (String → m String) → (depth rounds : Nat) → Step m

namespace Walk

/-- The walk copies `p`, which has at least `least` marks and class types, and leaves `left`. -/
structure Accepts (walk : Walk) (least : Nat) (rest : List Char) (p : Phrase) (left : List Char) :
    Prop where
  text : rest = p.text ++ left
  least_le : least ≤ p.size
  run : ∀ (m : Type → Type) [Monad m] [LawfulMonad m] (g : String → m String)
    (depth rounds : Nat) (written : List Char) {q : Phrase} {tail : List Char},
    p.Alike q → tail.head? = left.head? →
    (q.text ++ tail).length < depth → (q.text ++ tail).length < rounds →
    walk m g depth rounds ⟨written, q.text ++ tail⟩ =
      (do
        let out ← liftM (q.rename g)
        pure ⟨out.reverse ++ written, tail⟩)

/-- The walk asks for `names` and then gives up. -/
def Rejects (walk : Walk) (rest : List Char) (names : List String) (stop : Stop) : Prop :=
  ∀ (m : Type → Type) [Monad m] [LawfulMonad m] (g : String → m String) (depth rounds : Nat)
    (written : List Char), rest.length < depth → rest.length < rounds →
    walk m g depth rounds ⟨written, rest⟩ =
      (do
        let _ ← liftM (names.mapM g)
        throw stop)

def Decides (walk : Walk) (least : Nat) (rest : List Char) : Prop :=
  (∃ p left, walk.Accepts least rest p left) ∨ ∃ names stop, walk.Rejects rest names stop

/-- One walk and then another. The second one may have `a` less of depth and `b` rounds less. -/
def andThen (first : Walk) (a b : Nat) (next : Walk) : Walk := fun m _ g depth rounds cursor =>
  first m g depth rounds cursor >>= next m g (depth - a) (rounds - b)

section AndThen

variable {first next : Walk} {least more a b : Nat} {rest mid left : List Char} {p q : Phrase}

theorem Accepts.length_le (h : first.Accepts least rest p left) :
    least + left.length ≤ rest.length := by
  have hsize := p.size_le_length
  have hleast := h.least_le
  rw [h.text, List.length_append]
  omega

theorem Accepts.andThen (hf : first.Accepts least rest p mid) (hn : next.Accepts more mid q left)
    (ha : a ≤ least) (hb : b ≤ least) :
    (first.andThen a b next).Accepts (least + more) rest (p ++ q) left where
  text := by rw [hf.text, hn.text, Phrase.text_append, List.append_assoc]
  least_le := by
    rw [Phrase.size_append]
    exact Nat.add_le_add hf.least_le hn.least_le
  run m _ _ g depth rounds written r tail hr ht hd hs := by
    obtain ⟨p', q', rfl, hp, hq⟩ := Phrase.exists_of_append_alike p q hr
    rw [Phrase.text_append, List.append_assoc] at hd hs ⊢
    have hhead : (q'.text ++ tail).head? = mid.head? := by
      rw [hn.text]
      exact hq.head?_eq ht
    have hlen : least ≤ p'.text.length :=
      (hf.least_le.trans_eq hp.size_eq.symm).trans p'.size_le_length
    rw [List.length_append] at hd hs
    have hnext := fun written =>
      hn.run m g (depth - a) (rounds - b) written hq ht (by omega) (by omega)
    rw [Walk.andThen,
      hf.run m g depth rounds written hp hhead (by simpa using hd) (by simpa using hs)]
    simp only [bind_assoc, pure_bind, hnext, Phrase.rename_append, liftM_bind, liftM_pure,
      List.reverse_append, List.append_assoc]

section Refuse

variable {m : Type → Type} [Monad m] [LawfulMonad m]

theorem throw_bind {α β : Type} (stop : Stop) (f : α → ExceptT Stop m β) :
    (throw stop >>= f) = throw stop :=
  ExceptT.ext (by simp)

theorem liftM_rename_bind {α : Type} (p : Phrase) (g : String → m String) (f : ExceptT Stop m α) :
    ((liftM (p.rename g) : ExceptT Stop m (List Char)) >>= fun _ => f) =
      (liftM ((p.calls.map Call.name).mapM g) : ExceptT Stop m (List String)) >>= fun _ => f :=
  ExceptT.ext ((ExceptT.run_bind_lift ..).trans
    ((p.rename_bind g f.run).trans (ExceptT.run_bind_lift ..).symm))

end Refuse

theorem Rejects.andThen {names : List String} {stop : Stop} (h : first.Rejects rest names stop) :
    (first.andThen a b next).Rejects rest names stop := by
  intro m _ _ g depth rounds written hd hs
  simp only [Walk.andThen, h m g depth rounds written hd hs, bind_assoc, throw_bind]

theorem Accepts.andThen_rejects {names : List String} {stop : Stop}
    (hf : first.Accepts least rest p mid) (hn : next.Rejects mid names stop)
    (ha : a ≤ least) (hb : b ≤ least) :
    (first.andThen a b next).Rejects rest (p.calls.map Call.name ++ names) stop := by
  intro m _ _ g depth rounds written hd hs
  have hlen := hf.length_le
  have hnext := fun written =>
    hn m g (depth - a) (rounds - b) written (by omega) (by omega)
  have hrest := hf.text
  subst hrest
  rw [Walk.andThen, hf.run m g depth rounds written (Phrase.Alike.refl p) rfl hd hs]
  simp only [bind_assoc, pure_bind, hnext, List.mapM_append, liftM_bind, liftM_pure,
    liftM_rename_bind]

/-- Two walks one after the other decide, if the second one decides what the first one leaves. -/
theorem Decides.andThen (hf : first.Decides least rest)
    (hn : ∀ mid, least + mid.length ≤ rest.length → next.Decides more mid)
    (ha : a ≤ least) (hb : b ≤ least) : (first.andThen a b next).Decides (least + more) rest := by
  obtain ⟨p, mid, h⟩ | ⟨names, stop, h⟩ := hf
  · obtain ⟨q, left, hm⟩ | ⟨names, stop, hm⟩ := hn mid h.length_le
    · exact .inl ⟨p ++ q, left, h.andThen hm ha hb⟩
    · exact .inr ⟨_, stop, h.andThen_rejects hm ha hb⟩
  · exact .inr ⟨names, stop, h.andThen⟩

end AndThen

section Parts

variable {least : Nat} {rest : List Char}

/-- Deciding a text only takes that the walk does the same as another one wherever the next
character is the same. -/
theorem Decides.of_head {walk other : Walk} (h : other.Decides least rest)
    (heq : ∀ (m : Type → Type) [Monad m] [LawfulMonad m] (g : String → m String)
      (depth rounds : Nat) (cursor : Cursor), cursor.rest.head? = rest.head? →
      walk m g (depth + 1) (rounds + 1) cursor = other m g (depth + 1) (rounds + 1) cursor) :
    walk.Decides least rest := by
  have hpos : ∀ (m : Type → Type) [Monad m] [LawfulMonad m] (g : String → m String)
      {depth rounds k : Nat} (cursor : Cursor), cursor.rest.head? = rest.head? → k < depth →
      k < rounds → walk m g depth rounds cursor = other m g depth rounds cursor := by
    intro m _ _ g depth rounds k cursor hc hd hs
    obtain ⟨depth, rfl⟩ := Nat.exists_eq_succ_of_ne_zero (Nat.ne_zero_of_lt hd)
    obtain ⟨rounds, rfl⟩ := Nat.exists_eq_succ_of_ne_zero (Nat.ne_zero_of_lt hs)
    exact heq m g depth rounds cursor hc
  obtain ⟨p, left, h⟩ | ⟨names, stop, h⟩ := h
  · refine .inl ⟨p, left, h.text, h.least_le,
      fun m _ _ g depth rounds written q tail hq ht hd hs => ?_⟩
    rw [hpos m g ⟨written, q.text ++ tail⟩ (by rw [h.text]; exact hq.head?_eq ht) hd hs]
    exact h.run m g depth rounds written hq ht hd hs
  · refine .inr ⟨names, stop, fun m _ _ g depth rounds written hd hs => ?_⟩
    rw [hpos m g ⟨written, rest⟩ rfl hd hs]
    exact h m g depth rounds written hd hs

theorem Decides.mono {walk : Walk} {less : Nat} (h : walk.Decides least rest) (hl : less ≤ least) :
    walk.Decides less rest := by
  obtain ⟨p, left, h⟩ | h := h
  · exact .inl ⟨p, left, h.text, hl.trans h.least_le, h.run⟩
  · exact .inr h

def done : Walk := fun _ _ _ _ _ cursor => pure cursor

def copy : Walk := fun _ _ _ _ _ cursor => pure cursor.copy

def refuse (flaw : SignatureFlaw) : Walk := fun _ _ _ _ _ cursor => fail flaw cursor

/-- An identifier and the mark behind it. -/
def marked (mark : Char) : Walk := fun _ _ _ _ _ cursor => do
  let (name, cursor) ← identifier (· == mark) cursor
  expect mark (cursor.write name)

theorem decides_done (rest : List Char) : done.Decides 0 rest := by
  refine .inl ⟨.stop, rest, rfl, Nat.zero_le _, fun m _ _ g _ _ written q tail hq _ _ _ => ?_⟩
  cases hq
  simp [done, Phrase.rename, Phrase.text]

theorem decides_copy {c : Char} (more : List Char) (h : rest = c :: more) :
    copy.Decides 1 rest := by
  refine .inl ⟨.mark c .stop, more, h, Nat.le_refl 1,
    fun m _ _ g _ _ written q tail hq _ _ _ => ?_⟩
  obtain ⟨_⟩ | ⟨_, hq⟩ := hq
  cases hq
  simp [copy, Cursor.copy, Phrase.rename, Phrase.text]

theorem decides_refuse (flaw : SignatureFlaw) (least : Nat) (rest : List Char) :
    (refuse flaw).Decides least rest := by
  refine .inr ⟨[], ⟨flaw, rest⟩, fun m _ _ g _ _ written _ _ => ?_⟩
  simp [refuse, fail]

section Identifier

variable {isStop : Char → Bool}

theorem exists_identifier (isStop : Char → Bool) (rest : List Char) : ∃ name more,
    rest = name ++ more ∧ (∀ c ∈ name, isStop c = false) ∧ ∀ c ∈ more.head?, isStop c = true := by
  refine ⟨rest.takeWhile (!isStop ·), rest.dropWhile (!isStop ·),
    List.takeWhile_append_dropWhile.symm, fun c hc => ?_, fun c hc => ?_⟩
  · simpa using List.mem_takeWhile_imp hc
  · have := List.head?_dropWhile_not (!isStop ·) rest
    rw [hc] at this
    simpa using this

variable {m : Type → Type} [Monad m]

theorem identifier_append {name more : List Char} (hne : name ≠ [])
    (hname : ∀ c ∈ name, isStop c = false) (hmore : ∀ c ∈ more.head?, isStop c = true)
    (written : List Char) :
    (identifier isStop ⟨written, name ++ more⟩ : ExceptT Stop m (List Char × Cursor)) =
      pure (name, ⟨written, more⟩) := by
  have htake : (name ++ more).takeWhile (!isStop ·) = name := by
    rw [List.takeWhile_append_of_pos (by simpa using hname)]
    cases more with
    | nil => simp
    | cons c more => simp [hmore c rfl]
  have hdrop : (name ++ more).dropWhile (!isStop ·) = more := by
    rw [List.dropWhile_append_of_pos (by simpa using hname)]
    cases more with
    | nil => simp
    | cons c more => simp [hmore c rfl]
  unfold identifier
  dsimp only
  rw [htake, hdrop]
  split
  · contradiction
  · rfl

theorem identifier_stop (cursor : Cursor) (h : ∀ c ∈ cursor.rest.head?, isStop c = true) :
    (identifier isStop cursor : ExceptT Stop m (List Char × Cursor)) =
      fail .identifierExpected cursor := by
  have htake : cursor.rest.takeWhile (!isStop ·) = [] := by
    cases hr : cursor.rest with
    | nil => rfl
    | cons c more => simp [h c (by simp [hr])]
  unfold identifier
  rw [htake]

end Identifier

theorem decides_marked (mark : Char) (rest : List Char) : (marked mark).Decides 1 rest := by
  obtain ⟨name, more, rfl, hname, hmore⟩ := exists_identifier (· == mark) rest
  by_cases hne : name = []
  · subst hne
    refine (decides_refuse .identifierExpected 1 _).of_head fun m _ _ g depth rounds cursor hc => ?_
    rw [marked, identifier_stop cursor (by rw [hc]; exact hmore), fail, throw_bind]
    rfl
  · cases more with
    | nil =>
      refine .inr ⟨[], ⟨.markExpected mark, []⟩, fun m _ _ g depth rounds written _ _ => ?_⟩
      rw [marked, identifier_append hne hname hmore]
      simp [expect, fail, Cursor.at?, Cursor.write]
    | cons c more =>
      obtain rfl : c = mark := by simpa using hmore c rfl
      refine .inl ⟨.marks (name ++ [c]), more, by simp, by simp,
        fun m _ _ g depth rounds written q tail hq _ _ _ => ?_⟩
      rw [Phrase.eq_of_marks_alike hq, Phrase.text_marks, List.append_assoc, marked,
        identifier_append hne hname (by simp)]
      simp [expect, Cursor.at?, Cursor.write, Cursor.copy]

/-- A mark and what follows it. -/
theorem Decides.mark {next : Walk} {c : Char} {more : List Char} {k a b : Nat}
    (h : rest = c :: more)
    (hn : ∀ mid : List Char, mid.length < rest.length → next.Decides k mid) (ha : a ≤ 1)
    (hb : b ≤ 1) : (copy.andThen a b next).Decides 1 rest :=
  ((decides_copy more h).andThen (fun mid hm => hn mid (by omega)) ha hb).mono
    (Nat.le_add_right 1 k)

/-- One walk if the next character is `mark`, and another one if it is not. -/
def choose (mark : Char) (first second : Walk) : Walk := fun m _ g depth rounds cursor =>
  if cursor.at? mark then first m g depth rounds cursor else second m g depth rounds cursor

theorem Decides.choose {mark : Char} {first second : Walk}
    (hf : ∀ more, rest = mark :: more → first.Decides least rest) (hs : second.Decides least rest) :
    (choose mark first second).Decides least rest := by
  by_cases hmark : rest.head? = some mark
  · obtain ⟨more, hrest⟩ := List.head?_eq_some_iff.1 hmark
    refine (hf more hrest).of_head fun m _ _ g depth rounds cursor hc => ?_
    rw [Walk.choose, if_pos (by simp [Cursor.at?, hc, hmark])]
  · refine hs.of_head fun m _ _ g depth rounds cursor hc => ?_
    rw [Walk.choose, if_neg (by simpa [Cursor.at?, hc] using hmark)]

end Parts

end Walk

end JarRename.Signature

