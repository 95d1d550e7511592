import Mathlib
import JarRename.Proofs.Signature.Walk

/-!
# Every text is a phrase or is refused

Each function that reads a part of a signature accepts a phrase or refuses the text. A loop reads at
least one character in each round, and a class that is nested in another one stands behind it, so
the proofs are by induction on the length of the text.
-/
namespace JarRename.Signature

open Walk

def referenceWalk : Walk := fun _ _ g depth _ => reference g depth

def javaTypeWalk : Walk := fun _ _ g depth _ => javaType (reference g depth)

def argumentsWalk : Walk := fun _ _ g depth rounds => arguments (reference g depth) rounds

def parametersWalk : Walk := fun _ _ g depth rounds => parameters (reference g depth) rounds

def referencesWalk : Walk := fun _ _ g depth rounds => references (reference g depth) rounds

def boundsWalk : Walk := fun _ _ g depth rounds => bounds (reference g depth) rounds

def thrownWalk : Walk := fun _ _ g depth rounds => thrown (reference g depth) rounds

/-- The class bound of a type parameter, which may be empty. -/
def classBoundWalk : Walk :=
  choose 'L' referenceWalk (choose '[' referenceWalk (choose 'T' referenceWalk done))

def typeParametersWalk : Walk := fun _ _ g depth rounds =>
  typeParameters (reference g depth) rounds

def signatureWalk : Walk := fun _ _ g depth rounds => signature (reference g depth) rounds

theorem Cursor.exists_of_head {cursor : Cursor} {c : Char} (h : cursor.rest.head? = some c) :
    ∃ written more, cursor = ⟨written, c :: more⟩ := by
  obtain ⟨more, ht⟩ := List.head?_eq_some_iff.1 h
  exact ⟨cursor.written, more, by rw [← ht]⟩

/-- The type arguments of a class, if it has any. -/
def optionalArguments : Walk := choose '<' (copy.andThen 0 1 argumentsWalk) done

section ClassEnd

variable {m : Type → Type} [Monad m] (g : String → m String) (step : Step m) (rounds : Nat)
  (name mapped : String)

/-- What follows the type arguments of a class. -/
def classEnd : Step m := fun cursor =>
  match cursor.rest with
  | ';' :: _ => pure cursor.copy
  | '.' :: _ => do
    let (simple, cursor) ← identifier endsClassName cursor.copy
    let inner := name ++ "$" ++ String.ofList simple
    let innerMapped ← g inner
    let written := (simpleName innerMapped (some mapped)).toList
    classRest g step rounds inner innerMapped (cursor.write written)
  | _ => fail .classEndExpected cursor

theorem classRest_succ [LawfulMonad m] (depth : Nat) (cursor : Cursor) :
    classRest g (reference g depth) (rounds + 1) name mapped cursor =
      optionalArguments m g depth (rounds + 1) cursor >>=
        classEnd g (reference g depth) rounds name mapped := by
  rw [classRest, optionalArguments, Walk.choose]
  split
  · simp only [Walk.andThen, copy, pure_bind]
    rfl
  · rfl

variable (written : List Char)

theorem classEnd_semicolon (left : List Char) :
    classEnd g step rounds name mapped ⟨written, ';' :: left⟩ = pure ⟨';' :: written, left⟩ :=
  rfl

theorem classEnd_nested [LawfulMonad m] (simple : Part) {more : List Char}
    (hmore : ∀ c ∈ more.head?, endsClassName c = true) :
    classEnd g step rounds name mapped ⟨written, '.' :: (simple.spelling ++ more)⟩ = (do
      let inner := name ++ "$" ++ simple.text
      let innerMapped ← g inner
      classRest g step rounds inner innerMapped
        ⟨(simpleName innerMapped (some mapped)).toList.reverse ++ '.' :: written, more⟩) := by
  simp only [classEnd, Cursor.copy, identifier_append simple.ne_nil simple.clean hmore, pure_bind]
  rfl

/-- A point that no identifier follows. -/
theorem classEnd_point [LawfulMonad m] {more : List Char}
    (hmore : ∀ c ∈ more.head?, endsClassName c = true) :
    classEnd g step rounds name mapped ⟨written, '.' :: more⟩ =
      fail .identifierExpected ⟨'.' :: written, more⟩ := by
  simp only [classEnd, Cursor.copy, identifier_stop ⟨'.' :: written, more⟩ hmore, fail, throw_bind]

theorem classEnd_other {rest : List Char} (h : ∀ c ∈ rest.head?, c ≠ ';' ∧ c ≠ '.') :
    classEnd g step rounds name mapped ⟨written, rest⟩ =
      fail .classEndExpected ⟨written, rest⟩ := by
  rw [classEnd]
  split <;> simp_all

end ClassEnd

/-- The rest of a class type is copied, whatever the class is. -/
structure AcceptsBody (rest : List Char) (body : Body) (left : List Char) : Prop where
  text : rest = body.text ++ left
  run : ∀ (m : Type → Type) [Monad m] [LawfulMonad m] (g : String → m String) (depth rounds : Nat)
    (name mapped : String) (written : List Char) {b : Body} {tail : List Char},
    body.Alike b → tail.head? = left.head? →
    (b.text ++ tail).length < depth → (b.text ++ tail).length < rounds →
    classRest g (reference g depth) rounds name mapped ⟨written, b.text ++ tail⟩ =
      (do
        let out ← liftM (b.rename g name mapped)
        pure ⟨out.reverse ++ written, tail⟩)

/-- The class `name` is refused after `names name` have been asked for. -/
def RejectsBody (rest : List Char) (names : String → List String) (stop : Stop) : Prop :=
  ∀ (m : Type → Type) [Monad m] [LawfulMonad m] (g : String → m String) (depth rounds : Nat)
    (name mapped : String) (written : List Char), rest.length < depth → rest.length < rounds →
    classRest g (reference g depth) rounds name mapped ⟨written, rest⟩ =
      (do
        let _ ← liftM ((names name).mapM g)
        throw stop)

theorem AcceptsBody.stop {rest left : List Char} {p : Phrase}
    (h : optionalArguments.Accepts 0 rest p (';' :: left)) : AcceptsBody rest (.stop p) left where
  text := by simp [h.text, Body.text]
  run m _ _ g depth rounds name mapped written b tail hb ht hd hs := by
    obtain ⟨hq⟩ | _ := hb
    obtain ⟨rounds, rfl⟩ := Nat.exists_eq_succ_of_ne_zero (Nat.ne_zero_of_lt hs)
    simp only [Body.text, List.append_assoc, List.singleton_append] at hd hs ⊢
    have hend : (';' :: tail).head? = (';' :: left).head? := rfl
    rw [classRest_succ, h.run m g depth (rounds + 1) written hq hend hd hs]
    simp only [Body.rename, bind_assoc, pure_bind, classEnd_semicolon, liftM_bind, liftM_pure,
      List.reverse_append, List.reverse_singleton, List.cons_append, List.nil_append]

theorem AcceptsBody.nested {rest more left : List Char} {p : Phrase} {simple : Part} {body : Body}
    (h : optionalArguments.Accepts 0 rest p ('.' :: (simple.spelling ++ more)))
    (hmore : ∀ c ∈ more.head?, endsClassName c = true) (hbody : AcceptsBody more body left) :
    AcceptsBody rest (.nested p simple body) left where
  text := by simp [h.text, hbody.text, Body.text]
  run m _ _ g depth rounds name mapped written b tail hb ht hd hs := by
    obtain _ | ⟨_, other, hq, hb⟩ := hb
    obtain ⟨rounds, rfl⟩ := Nat.exists_eq_succ_of_ne_zero (Nat.ne_zero_of_lt hs)
    simp only [Body.text, List.append_assoc, List.cons_append] at hd hs ⊢
    have hpoint : ∀ left, ('.' :: left).head? = ('.' :: (simple.spelling ++ more)).head? :=
      fun _ => rfl
    rw [classRest_succ, h.run m g depth (rounds + 1) written hq (hpoint _) hd hs]
    rw [hbody.text, ← hb.head?_eq left tail] at hmore
    simp only [List.length_append, List.length_cons] at hd hs
    have hrest := fun name mapped written =>
      hbody.run m g depth rounds name mapped written hb ht (by simp; omega) (by simp; omega)
    simp only [Body.rename, bind_assoc, pure_bind, classEnd_nested _ _ _ _ _ _ other hmore, hrest,
      liftM_bind, liftM_pure, List.reverse_append, List.reverse_cons, List.append_assoc,
      List.cons_append, List.nil_append]

/-- What the end of the class asks for comes after what the type arguments ask for. -/
theorem RejectsBody.of_end {rest mid : List Char} {p : Phrase} {stop : Stop}
    (names : String → List String) (h : optionalArguments.Accepts 0 rest p mid)
    (hend : ∀ (m : Type → Type) [Monad m] [LawfulMonad m] (g : String → m String)
      (depth rounds : Nat) (name mapped : String) (written : List Char), mid.length < depth →
      mid.length ≤ rounds →
      classEnd g (reference g depth) rounds name mapped ⟨written, mid⟩ =
        (do
          let _ ← liftM ((names name).mapM g)
          throw stop)) :
    RejectsBody rest (fun name => p.calls.map Call.name ++ names name) stop := by
  intro m _ _ g depth rounds name mapped written hd hs
  obtain ⟨rounds, rfl⟩ := Nat.exists_eq_succ_of_ne_zero (Nat.ne_zero_of_lt hs)
  have hlen := h.length_le
  have hrest := h.text
  subst hrest
  have hnext := fun written =>
    hend m g depth rounds name mapped written (by omega) (by omega)
  rw [classRest_succ, h.run m g depth (rounds + 1) written (Phrase.Alike.refl p) rfl hd hs]
  simp only [bind_assoc, pure_bind, hnext, List.mapM_append, liftM_bind, liftM_pure,
    liftM_rename_bind]

theorem RejectsBody.nested {rest more : List Char} {p : Phrase} (simple : Part)
    {names : String → List String} {stop : Stop}
    (h : optionalArguments.Accepts 0 rest p ('.' :: (simple.spelling ++ more)))
    (hmore : ∀ c ∈ more.head?, endsClassName c = true) (hbody : RejectsBody more names stop) :
    ∃ names, RejectsBody rest names stop := by
  refine ⟨_, .of_end (fun name =>
    (name ++ "$" ++ simple.text) :: names (name ++ "$" ++ simple.text)) h ?_⟩
  intro m _ _ g depth rounds name mapped written hd hs
  have hpos := List.length_pos_iff.2 simple.ne_nil
  simp only [List.length_cons, List.length_append] at hd hs
  have hrest := fun name mapped written =>
    hbody m g depth rounds name mapped written (by omega) (by omega)
  simp [classEnd_nested g _ _ _ _ _ simple hmore, hrest]

def DecidesBody (rest : List Char) : Prop :=
  (∃ body left, AcceptsBody rest body left) ∨ ∃ names stop, RejectsBody rest names stop

section Loops

variable {n : Nat} (href : ∀ rest : List Char, rest.length ≤ n → referenceWalk.Decides 1 rest)
include href

theorem decides_javaType {rest : List Char} (hn : rest.length ≤ n) :
    javaTypeWalk.Decides 1 rest := by
  cases rest with
  | nil =>
    refine (href [] hn).of_head fun m _ _ g depth rounds cursor hc => ?_
    simp only [javaTypeWalk, javaType, List.head?_eq_none_iff.1 hc]
    rfl
  | cons c more =>
    by_cases hbase : isBaseLetter c
    · refine (decides_copy more rfl).of_head fun m _ _ g depth rounds cursor hc => ?_
      obtain ⟨written, more, rfl⟩ := Cursor.exists_of_head hc
      simp only [javaTypeWalk, javaType, hbase]
      rfl
    · refine (href _ hn).of_head fun m _ _ g depth rounds cursor hc => ?_
      obtain ⟨written, more, rfl⟩ := Cursor.exists_of_head hc
      simp only [javaTypeWalk, javaType, hbase]
      rfl

/-- A mark, a reference type behind it, and then the loop again. -/
theorem decides_mark_reference {mark : Char} {rest more : List Char} {least : Nat} {loop : Walk}
    (hn : rest.length ≤ n) (h : rest = mark :: more)
    (hloop : ∀ mid : List Char, mid.length < rest.length → loop.Decides least mid) :
    (copy.andThen 0 1 (referenceWalk.andThen 0 0 loop)).Decides 1 rest := by
  have hnext : ∀ mid : List Char, mid.length < rest.length →
      (referenceWalk.andThen 0 0 loop).Decides (1 + least) mid := fun mid hm =>
    (href mid (by omega)).andThen (fun left hl => hloop left (by omega)) (Nat.zero_le 1)
      (Nat.zero_le 1)
  exact .mark h hnext (Nat.zero_le 1) (Nat.le_refl 1)

omit href in
theorem arguments_succ {m : Type → Type} [Monad m] (step : Step m) (rounds : Nat)
    (cursor : Cursor) :
    arguments step (rounds + 1) cursor =
      if cursor.at? '>' then pure cursor.copy
      else if cursor.at? '*' then arguments step rounds cursor.copy
      else if cursor.at? '+' then step cursor.copy >>= arguments step rounds
      else if cursor.at? '-' then step cursor.copy >>= arguments step rounds
      else step cursor >>= arguments step rounds := by
  rw [arguments]
  split <;> simp_all [Cursor.at?, List.head?_eq_some_iff]

theorem decides_arguments {rest : List Char} (hn : rest.length ≤ n) :
    argumentsWalk.Decides 1 rest := by
  induction hk : rest.length using Nat.strong_induction_on generalizing rest with
  | _ k ih =>
    subst hk
    have hloop : ∀ mid : List Char, mid.length < rest.length → argumentsWalk.Decides 0 mid :=
      fun mid hm => (ih mid.length hm (by omega) rfl).mono (Nat.zero_le 1)
    have hplain : (referenceWalk.andThen 0 1 argumentsWalk).Decides 1 rest :=
      (href rest hn).andThen (fun mid hm => hloop mid (by omega)) (Nat.zero_le 1) (Nat.le_refl 1)
    have hbound : ∀ (c : Char) more, rest = c :: more →
        (copy.andThen 0 1 (referenceWalk.andThen 0 0 argumentsWalk)).Decides 1 rest :=
      fun _ _ h => decides_mark_reference href hn h hloop
    have hany : ∀ more, rest = '*' :: more → (copy.andThen 0 1 argumentsWalk).Decides 1 rest :=
      fun _ h => .mark h hloop (Nat.zero_le 1) (Nat.le_refl 1)
    have hclose : ∀ more, rest = '>' :: more → copy.Decides 1 rest := decides_copy
    have hread := Decides.choose (hbound '+') (.choose (hbound '-') hplain)
    have hall := Decides.choose hclose (.choose hany hread)
    refine hall.of_head fun m _ _ g depth rounds cursor _ => ?_
    simp only [argumentsWalk, arguments_succ, Walk.choose, Walk.andThen, copy, pure_bind]
    rfl

/-- A loop that goes on for as long as the next character is a certain mark. -/
theorem decides_repeated {mark : Char} {loop : Walk}
    (hloop : ∀ (m : Type → Type) [Monad m] [LawfulMonad m] (g : String → m String)
      (depth rounds : Nat) (cursor : Cursor), loop m g depth (rounds + 1) cursor =
        if cursor.at? mark then reference g depth cursor.copy >>= loop m g depth rounds
        else pure cursor)
    {rest : List Char} (hn : rest.length ≤ n) : loop.Decides 0 rest := by
  induction hk : rest.length using Nat.strong_induction_on generalizing rest with
  | _ k ih =>
    subst hk
    have hmark : ∀ more, rest = mark :: more →
        (copy.andThen 0 1 (referenceWalk.andThen 0 0 loop)).Decides 0 rest := fun _ h =>
      (decides_mark_reference href hn h fun mid hm => ih mid.length hm (by omega) rfl).mono
        (Nat.zero_le 1)
    refine (Decides.choose hmark (decides_done rest)).of_head
      fun m _ _ g depth rounds cursor _ => ?_
    simp only [hloop, Walk.choose, Walk.andThen, copy, pure_bind]
    rfl

theorem decides_parameters {rest : List Char} (hn : rest.length ≤ n) :
    parametersWalk.Decides 1 rest := by
  induction hk : rest.length using Nat.strong_induction_on generalizing rest with
  | _ k ih =>
    subst hk
    have hread : (javaTypeWalk.andThen 0 1 parametersWalk).Decides 1 rest :=
      ((decides_javaType href hn).andThen (fun mid hm => ih mid.length (by omega) (by omega) rfl)
        (Nat.zero_le 1) (Nat.le_refl 1)).mono (Nat.le_succ 1)
    exact (Decides.choose decides_copy hread).of_head fun _ _ _ _ _ _ _ _ => rfl

theorem decides_references {rest : List Char} (hn : rest.length ≤ n) :
    referencesWalk.Decides 0 rest := by
  induction hk : rest.length using Nat.strong_induction_on generalizing rest with
  | _ k ih =>
    subst hk
    cases rest with
    | nil =>
      refine (decides_done []).of_head fun m _ _ g depth rounds cursor hc => ?_
      simp only [referencesWalk, references, List.head?_eq_none_iff.1 hc]
      rfl
    | cons c more =>
      refine (((href _ hn).andThen (fun mid hm => ih mid.length (by omega) (by omega) rfl)
        (Nat.zero_le 1) (Nat.le_refl 1)).mono (Nat.zero_le 1)).of_head
        fun m _ _ g depth rounds cursor hc => ?_
      obtain ⟨written, more, rfl⟩ := Cursor.exists_of_head hc
      rfl

omit href in
theorem classBoundWalk_apply {m : Type → Type} [Monad m] (g : String → m String)
    (depth rounds : Nat) (cursor : Cursor) :
    classBoundWalk m g depth rounds cursor =
      if cursor.at? 'L' || cursor.at? '[' || cursor.at? 'T' then reference g depth cursor
      else pure cursor := by
  simp only [classBoundWalk, Walk.choose]
  cases cursor.at? 'L' <;> cases cursor.at? '[' <;> cases cursor.at? 'T' <;> rfl

theorem decides_classBound {rest : List Char} (hn : rest.length ≤ n) :
    classBoundWalk.Decides 0 rest := by
  have hread : ∀ (c : Char) more, rest = c :: more → referenceWalk.Decides 0 rest :=
    fun _ _ _ => (href rest hn).mono (Nat.zero_le 1)
  exact .choose (hread 'L') (.choose (hread '[') (.choose (hread 'T') (decides_done rest)))

theorem decides_typeParameters {rest : List Char} (hn : rest.length ≤ n) :
    typeParametersWalk.Decides 1 rest := by
  induction hk : rest.length using Nat.strong_induction_on generalizing rest with
  | _ k ih =>
    subst hk
    have hclose : ∀ mid : List Char, 1 + mid.length ≤ rest.length →
        (choose '>' copy typeParametersWalk).Decides 1 mid := fun mid hm =>
      .choose decides_copy (ih mid.length (by omega) (by omega) rfl)
    have hbounds : ∀ mid : List Char, 1 + mid.length ≤ rest.length →
        (boundsWalk.andThen 0 0 (choose '>' copy typeParametersWalk)).Decides 1 mid := fun mid hm =>
      (decides_repeated href (fun _ _ _ _ _ _ _ => rfl) (by omega)).andThen
        (fun left hl => hclose left (by omega)) (Nat.zero_le 0) (Nat.zero_le 0)
    have hafter : ∀ mid : List Char, 1 + mid.length ≤ rest.length →
        (classBoundWalk.andThen 0 0
          (boundsWalk.andThen 0 0 (choose '>' copy typeParametersWalk))).Decides 1 mid :=
      fun mid hm => (decides_classBound href (by omega)).andThen
        (fun left hl => hbounds left (by omega)) (Nat.zero_le 0) (Nat.zero_le 0)
    refine (((decides_marked ':' rest).andThen hafter (Nat.zero_le 1) (Nat.le_refl 1)).mono
      (Nat.le_succ 1)).of_head fun m _ _ g depth rounds cursor hc => ?_
    simp only [typeParametersWalk, typeParameters, Walk.andThen, marked, bind_assoc]
    refine bind_congr fun pair => bind_congr fun cursor => ?_
    rw [Walk.andThen, classBoundWalk_apply]
    split <;> rfl

theorem decides_optionalArguments {rest : List Char} (hn : rest.length ≤ n) :
    optionalArguments.Decides 0 rest := by
  refine .choose (fun more hrest => ?_) (decides_done rest)
  exact (Decides.mark hrest (fun mid hm => decides_arguments href (by omega)) (Nat.zero_le 1)
    (Nat.le_refl 1)).mono (Nat.zero_le 1)

/-- By induction on the text, as each class is nested in the one before it. -/
theorem decides_classRest {rest : List Char} (hn : rest.length ≤ n) : DecidesBody rest := by
  induction hk : rest.length using Nat.strong_induction_on generalizing rest with
  | _ k ih =>
    subst hk
    obtain ⟨p, mid, h⟩ | ⟨names, stop, h⟩ := decides_optionalArguments href hn
    · have hlen := h.length_le
      by_cases hend : mid.head? = some ';'
      · obtain ⟨left, rfl⟩ := List.head?_eq_some_iff.1 hend
        exact .inl ⟨.stop p, left, .stop h⟩
      by_cases hpoint : mid.head? = some '.'
      · obtain ⟨left, rfl⟩ := List.head?_eq_some_iff.1 hpoint
        obtain ⟨name, more, rfl, hname, hmore⟩ := exists_identifier endsClassName left
        by_cases hne : name = []
        · subst hne
          refine .inr ⟨_, ⟨.identifierExpected, more⟩, .of_end (fun _ => []) h ?_⟩
          intro m _ _ g depth rounds name mapped written _ _
          simp [classEnd_point g _ _ _ _ _ hmore, fail]
        let simple : Part := ⟨name, hne, hname⟩
        simp only [List.length_cons, List.length_append] at hlen
        obtain ⟨body, left, hbody⟩ | ⟨names, stop, hbody⟩ :=
          ih more.length (by omega) (by omega) rfl
        · exact .inl ⟨.nested p simple body, left, .nested h hmore hbody⟩
        · obtain ⟨names, hrejects⟩ := RejectsBody.nested simple h hmore hbody
          exact .inr ⟨names, stop, hrejects⟩
      · refine .inr ⟨_, ⟨.classEndExpected, mid⟩, .of_end (fun _ => []) h ?_⟩
        intro m _ _ g depth rounds name mapped written _ _
        rw [classEnd_other]
        · simp [fail]
        · intro c hc
          refine ⟨?_, ?_⟩
          · rintro rfl
            exact hend hc
          · rintro rfl
            exact hpoint hc
    · refine .inr ⟨fun _ => names, stop, fun m _ _ g depth rounds name mapped written hd hs => ?_⟩
      obtain ⟨rounds, rfl⟩ := Nat.exists_eq_succ_of_ne_zero (Nat.ne_zero_of_lt hs)
      rw [classRest_succ, h m g depth (rounds + 1) written hd hs, bind_assoc]
      simp only [throw_bind]

end Loops

section ClassType

variable {m : Type → Type} [Monad m] [LawfulMonad m] (g : String → m String) (depth : Nat)

theorem reference_classType (name : Part) {more : List Char}
    (hmore : ∀ c ∈ more.head?, endsClassName c = true) (written : List Char) :
    reference g (depth + 1) ⟨written, 'L' :: (name.spelling ++ more)⟩ = (do
      let mapped ← g name.text
      classRest g (reference g depth) (depth + 1) name.text mapped
        ⟨mapped.toList.reverse ++ 'L' :: written, more⟩) := by
  simp only [reference, Cursor.copy, identifier_append name.ne_nil name.clean hmore, pure_bind]
  rfl

/-- An `L` that no identifier follows. -/
theorem reference_unnamed {more : List Char} (hmore : ∀ c ∈ more.head?, endsClassName c = true)
    (written : List Char) :
    reference g (depth + 1) ⟨written, 'L' :: more⟩ =
      fail .identifierExpected ⟨'L' :: written, more⟩ := by
  simp only [reference, Cursor.copy, identifier_stop ⟨'L' :: written, more⟩ hmore, fail, throw_bind]

end ClassType

theorem decides_named (name : Part) {more : List Char}
    (hmore : ∀ c ∈ more.head?, endsClassName c = true) (h : DecidesBody more) :
    referenceWalk.Decides 1 ('L' :: (name.spelling ++ more)) := by
  obtain ⟨body, left, hbody⟩ | ⟨names, stop, hbody⟩ := h
  · refine .inl ⟨.classType name body .stop, left, by simp [hbody.text, Phrase.text],
      Nat.le_refl 1, fun m _ _ g depth rounds written q tail hq ht hd hs => ?_⟩
    obtain _ | _ | ⟨_, other, hb, hq⟩ := hq
    cases hq
    obtain ⟨depth, rfl⟩ := Nat.exists_eq_succ_of_ne_zero (Nat.ne_zero_of_lt hd)
    rw [hbody.text, ← hb.head?_eq left tail] at hmore
    simp only [Phrase.text, List.append_nil, List.cons_append, List.append_assoc,
      List.length_cons, List.length_append] at hd ⊢
    have hrest := fun mapped written =>
      hbody.run m g depth (depth + 1) other.text mapped written hb ht (by simp; omega)
        (by simp; omega)
    simp [referenceWalk, reference_classType g depth other hmore, hrest, Phrase.rename]
  · refine .inr ⟨name.text :: names name.text, stop,
      fun m _ _ g depth rounds written hd hs => ?_⟩
    obtain ⟨depth, rfl⟩ := Nat.exists_eq_succ_of_ne_zero (Nat.ne_zero_of_lt hd)
    simp only [List.length_cons, List.length_append] at hd
    have hrest := fun mapped written =>
      hbody m g depth (depth + 1) name.text mapped written (by omega) (by omega)
    simp [referenceWalk, reference_classType g depth name hmore, hrest]

theorem decides_classType {more : List Char}
    (h : ∀ left : List Char, left.length ≤ more.length → DecidesBody left) :
    referenceWalk.Decides 1 ('L' :: more) := by
  obtain ⟨name, left, rfl, hname, hleft⟩ := exists_identifier endsClassName more
  by_cases hne : name = []
  · subst hne
    refine .inr ⟨[], ⟨.identifierExpected, left⟩, fun m _ _ g depth rounds written hd _ => ?_⟩
    obtain ⟨depth, rfl⟩ := Nat.exists_eq_succ_of_ne_zero (Nat.ne_zero_of_lt hd)
    simp [referenceWalk, reference_unnamed g depth hleft, fail]
  · exact decides_named ⟨name, hne, hname⟩ hleft (h left (by simp))

theorem reference_succ {m : Type → Type} [Monad m] (g : String → m String) (depth : Nat)
    (cursor : Cursor) :
    reference g (depth + 1) cursor =
      if cursor.at? 'L' then reference g (depth + 1) cursor
      else if cursor.at? 'T' then do
        let (name, cursor) ← identifier (· == ';') cursor.copy
        expect ';' (cursor.write name)
      else if cursor.at? '[' then javaType (reference g depth) cursor.copy
      else fail .referenceExpected cursor := by
  rw [reference]
  split <;> simp_all [Cursor.at?, List.head?_eq_some_iff]

/-- By induction on the text, of which everything behind the first character is shorter. -/
theorem decides_reference (rest : List Char) : referenceWalk.Decides 1 rest := by
  induction hk : rest.length using Nat.strong_induction_on generalizing rest with
  | _ k ih =>
    subst hk
    have hrefuse : (refuse .referenceExpected).Decides 1 rest := decides_refuse _ 1 rest
    have harray : ∀ more, rest = '[' :: more → (copy.andThen 1 0 javaTypeWalk).Decides 1 rest := by
      intro more hrest
      have hread : ∀ mid : List Char, mid.length < rest.length → javaTypeWalk.Decides 1 mid :=
        fun mid hm =>
          decides_javaType (fun left hl => ih left.length (by omega) left rfl) (Nat.le_refl _)
      exact .mark hrest hread (Nat.le_refl 1) (Nat.zero_le 1)
    have hvariable : ∀ more, rest = 'T' :: more →
        (copy.andThen 0 0 (marked ';')).Decides 1 rest := fun _ hrest =>
      .mark hrest (fun mid _ => decides_marked ';' mid) (Nat.zero_le 1) (Nat.zero_le 1)
    have hclass : ∀ more, rest = 'L' :: more → referenceWalk.Decides 1 rest := by
      intro more hrest
      subst hrest
      have href : ∀ left : List Char, left.length ≤ more.length → referenceWalk.Decides 1 left :=
        fun left hl => ih left.length (by simp; omega) left rfl
      exact decides_classType fun left hl => decides_classRest href hl
    have hall := Decides.choose hclass (.choose hvariable (.choose harray hrefuse))
    refine hall.of_head fun m _ _ g depth rounds cursor _ => ?_
    rw [referenceWalk, reference_succ]
    simp only [Walk.choose, Walk.andThen, copy, pure_bind]
    rfl

/-- A method type behind its opening parenthesis. -/
def methodWalk : Walk :=
  parametersWalk.andThen 0 0 ((choose 'V' copy javaTypeWalk).andThen 0 0 thrownWalk)

/-- A method type, or reference types one after the other. -/
def typesWalk : Walk :=
  choose '(' (copy.andThen 0 0 methodWalk) (referenceWalk.andThen 0 0 referencesWalk)

def optionalTypeParameters : Walk := choose '<' (copy.andThen 0 0 typeParametersWalk) done

/-- Nothing may be left at the end. -/
def endWalk : Walk := fun _ _ _ _ _ cursor =>
  if cursor.rest.isEmpty then pure cursor else fail .trailingInput cursor

section Equations

variable {m : Type → Type} [Monad m] [LawfulMonad m] (g : String → m String) (depth rounds : Nat)
  (cursor : Cursor)

theorem methodWalk_end :
    (methodWalk.andThen 0 0 endWalk) m g depth rounds cursor = (do
      let cursor ← parameters (reference g depth) rounds cursor
      let cursor ← if cursor.at? 'V' then pure cursor.copy else javaType (reference g depth) cursor
      let cursor ← thrown (reference g depth) rounds cursor
      if cursor.rest.isEmpty then pure cursor else fail .trailingInput cursor) := by
  simp only [methodWalk, Walk.andThen, bind_assoc]
  refine bind_congr fun cursor => ?_
  rw [Walk.choose]
  split
  · simp only [copy, pure_bind]
    rfl
  · rfl

theorem signatureWalk_apply :
    signatureWalk m g depth rounds cursor =
      (optionalTypeParameters.andThen 0 0 (typesWalk.andThen 0 0 endWalk)) m g depth rounds
        cursor := by
  have htypes : ∀ cursor, (typesWalk.andThen 0 0 endWalk) m g depth rounds cursor =
      if cursor.at? '(' then (methodWalk.andThen 0 0 endWalk) m g depth rounds cursor.copy
      else (do
        let cursor ← reference g depth cursor
        let cursor ← references (reference g depth) rounds cursor
        if cursor.rest.isEmpty then pure cursor else fail .trailingInput cursor) := by
    intro cursor
    rw [typesWalk, Walk.andThen, Walk.choose]
    split
    · simp only [Walk.andThen, copy, pure_bind]
      rfl
    · simp only [Walk.andThen, bind_assoc]
      rfl
  rw [Walk.andThen, optionalTypeParameters, Walk.choose, signatureWalk, signature]
  split
  · simp only [Walk.andThen, copy, pure_bind]
    refine bind_congr fun cursor =>
      (?_ : _ = (typesWalk.andThen 0 0 endWalk) m g depth rounds cursor)
    simp only [htypes, methodWalk_end, pure_bind]
  · simp only [done, pure_bind, Nat.sub_zero, htypes, methodWalk_end]

end Equations

theorem decides_method (rest : List Char) : methodWalk.Decides 1 rest := by
  have href : ∀ left : List Char, left.length ≤ rest.length → referenceWalk.Decides 1 left :=
    fun left _ => decides_reference left
  have hreturn : ∀ mid : List Char, 1 + mid.length ≤ rest.length →
      ((choose 'V' copy javaTypeWalk).andThen 0 0 thrownWalk).Decides 1 mid := by
    intro mid hm
    exact (Decides.choose decides_copy (decides_javaType href (by omega))).andThen
      (fun left hl => decides_repeated href (fun _ _ _ _ _ _ _ => rfl) (by omega))
      (Nat.zero_le 1) (Nat.zero_le 1)
  exact ((decides_parameters href (Nat.le_refl _)).andThen hreturn (Nat.zero_le 1)
    (Nat.zero_le 1)).mono (Nat.le_succ 1)

theorem decides_types (rest : List Char) : typesWalk.Decides 1 rest := by
  refine .choose (fun more hrest => ?_) ?_
  · exact .mark hrest (fun mid _ => decides_method mid) (Nat.zero_le 1) (Nat.zero_le 1)
  · exact (decides_reference rest).andThen
      (fun mid _ => decides_references (fun left _ => decides_reference left) (Nat.le_refl _))
      (Nat.zero_le 1) (Nat.zero_le 1)

theorem decides_optionalTypeParameters (rest : List Char) :
    optionalTypeParameters.Decides 0 rest := by
  refine .choose (fun more hrest => ?_) (decides_done rest)
  exact (Decides.mark hrest
    (fun mid _ => decides_typeParameters (fun left _ => decides_reference left) (Nat.le_refl _))
    (Nat.zero_le 1) (Nat.zero_le 1)).mono (Nat.zero_le 1)

theorem endWalk_accepts : endWalk.Accepts 0 [] .stop [] where
  text := rfl
  least_le := Nat.zero_le _
  run m _ _ g depth rounds written q tail hq ht _ _ := by
    cases hq
    obtain rfl := List.head?_eq_none_iff.1 ht
    simp [endWalk, Phrase.text, Phrase.rename]

theorem endWalk_rejects {rest : List Char} (h : rest ≠ []) :
    endWalk.Rejects rest [] ⟨.trailingInput, rest⟩ := by
  intro m _ _ g depth rounds written _ _
  simp [endWalk, h, fail]

/-- A signature is a phrase up to its end, or it is refused. -/
theorem signature_cases (rest : List Char) :
    (∃ p, signatureWalk.Accepts 0 rest p []) ∨
    ∃ names stop, signatureWalk.Rejects rest names stop := by
  have hread : (optionalTypeParameters.andThen 0 0 typesWalk).Decides 1 rest :=
    (decides_optionalTypeParameters rest).andThen (fun mid _ => decides_types mid) (Nat.le_refl 0)
      (Nat.le_refl 0)
  have happly : ∀ (m : Type → Type) [Monad m] [LawfulMonad m] (g : String → m String)
      (depth rounds : Nat) (cursor : Cursor), signatureWalk m g depth rounds cursor =
        ((optionalTypeParameters.andThen 0 0 typesWalk).andThen 0 0 endWalk) m g depth rounds
          cursor := by
    intro m _ _ g depth rounds cursor
    rw [signatureWalk_apply]
    simp only [Walk.andThen, bind_assoc]
    rfl
  obtain ⟨p, left, h⟩ | ⟨names, stop, h⟩ := hread
  · by_cases hleft : left = []
    · subst hleft
      have hend := h.andThen endWalk_accepts (Nat.zero_le 1) (Nat.zero_le 1)
      refine .inl ⟨p ++ .stop, hend.text, Nat.zero_le _,
        fun m _ _ g depth rounds written q tail => ?_⟩
      rw [happly]
      exact hend.run m g depth rounds written
    · have hend := h.andThen_rejects (endWalk_rejects hleft) (Nat.zero_le 1) (Nat.zero_le 1)
      refine .inr ⟨p.calls.map Call.name ++ [], ⟨.trailingInput, left⟩,
        fun m _ _ g depth rounds written => ?_⟩
      rw [happly]
      exact hend m g depth rounds written
  · refine .inr ⟨names, stop, fun m _ _ g depth rounds written => ?_⟩
    rw [happly]
    exact h.andThen m g depth rounds written

/-- `p` is what `source` consists of, and it is renamed as `p` is, as is every phrase like it. -/
structure Phrase.IsReading (p : Phrase) (source : String) : Prop where
  text : p.text = source.toList
  rename : ∀ (m : Type → Type) [Monad m] [LawfulMonad m] (g : String → m String) {q : Phrase},
    p.Alike q → Signature.rename g (String.ofList q.text) =
      (fun out => .ok (String.ofList out)) <$> q.rename g

/-- Every function that gives the names is asked for the same ones before `source` is refused. -/
def Refuses (source : String) (names : List String) (e : SignatureError) : Prop :=
  ∀ (m : Type → Type) [Monad m] [LawfulMonad m] (g : String → m String),
    rename g source = (fun _ => .error e) <$> names.mapM g

theorem rename_cases (source : String) :
    (∃ p : Phrase, p.IsReading source) ∨ ∃ names e, Refuses source names e := by
  obtain ⟨p, h⟩ | ⟨names, stop, h⟩ := signature_cases source.toList
  · have htext : p.text = source.toList := by rw [h.text, List.append_nil]
    refine .inl ⟨p, htext, fun m _ _ g q hq => ?_⟩
    have hrun := h.run m g (q.text.length + 1) (q.text.length + 1) [] hq rfl (by simp) (by simp)
    simp only [List.append_nil, signatureWalk] at hrun
    simp only [Signature.rename, String.toList_ofList, hrun]
    simp [Except.map]
  · refine .inr ⟨names, ⟨stop.flaw, Text.utf8Length source.toList - Text.utf8Length stop.rest,
      source⟩, fun m _ _ g => ?_⟩
    have hrun := h m g (source.toList.length + 1) (source.toList.length + 1) []
      (Nat.lt_succ_self _) (Nat.lt_succ_self _)
    simp only [signatureWalk] at hrun
    simp only [Signature.rename, hrun]
    simp

end JarRename.Signature
