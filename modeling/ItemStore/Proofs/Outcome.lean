import ItemStore.Error
import Mathlib.Data.List.Forall2

/-
Taking a computation that may fail apart.

Everything in this library that can fail is a sequence of steps in `Except`, so a
proof about a success begins by asking what each step came to. The two equivalences
here turn one step into that question; a `do` block is opened by using them as often
as it has steps. `Follows` is for two computations that are taken apart together, because
one of them does what the other does on other terms. The last part is about which errors a
computation can end with. `Avoids` is stated for any set of errors, because a set is closed
under sequencing as soon as it is closed under each step.
-/
set_option autoImplicit false

namespace ItemStore

variable {ε α β : Type}

/-- A sequence succeeds when its first step does and the rest does on its result. -/
theorem bind_eq_ok {x : Except ε α} {f : α → Except ε β} {b : β} :
    (x >>= f) = .ok b ↔ ∃ a, x = .ok a ∧ f a = .ok b := by
  cases x with
  | error e => simp [bind, Except.bind]
  | ok a => simp [bind, Except.bind]

/-- A result can only be changed if there is one. -/
theorem map_eq_ok {x : Except ε α} {f : α → β} {b : β} :
    x.map f = .ok b ↔ ∃ a, x = .ok a ∧ f a = b := by
  cases x with
  | error e => simp [Except.map]
  | ok a => simp [Except.map]

/-- Changing a result changes no error. -/
theorem map_eq_error {x : Except ε α} {f : α → β} {e : ε} :
    x.map f = .error e ↔ x = .error e := by
  cases x with
  | error e => simp [Except.map]
  | ok a => simp [Except.map]

/-- A result can be changed in two goes. -/
theorem map_map {γ : Type} {x : Except ε α} {f : α → β} {g : β → γ} :
    (x.map f).map g = x.map fun a => g (f a) := by
  cases x <;> rfl

/-- A list is read if each of its members is. -/
theorem mapM_eq_ok {read : α → Except ε β} {members : List α} {results : List β} :
    members.mapM read = .ok results ↔
      List.Forall₂ (fun a b => read a = .ok b) members results := by
  induction members generalizing results with
  | nil =>
    rw [List.mapM_nil, List.forall₂_nil_left_iff]
    exact ⟨fun h => by cases h; rfl, fun h => by rw [h]; rfl⟩
  | cons a members ih =>
    rw [List.mapM_cons, bind_eq_ok]
    constructor
    · rintro ⟨b, hb, hrest⟩
      obtain ⟨bs, hbs, he⟩ := bind_eq_ok.1 hrest
      cases he
      exact .cons hb (ih.1 hbs)
    · rintro (_ | ⟨hb, hbs⟩)
      exact ⟨_, hb, bind_eq_ok.2 ⟨_, ih.2 hbs, rfl⟩⟩

/-- What is written member by member is read member by member. -/
theorem mapM_map_eq_ok {γ : Type} {read : β → Except ε γ} {write : α → β} {form : α → γ}
    {members : List α} (h : ∀ a ∈ members, read (write a) = .ok (form a)) :
    (members.map write).mapM read = .ok (members.map form) := by
  rw [mapM_eq_ok, List.forall₂_map_left_iff, List.forall₂_map_right_iff]
  exact List.forall₂_same.2 h

/-- What every step keeps, all of them keep, one after the other. -/
theorem foldlM_keeps {Keeps : β → Prop} {step : β → α → Except ε β} {members : List α}
    (hstep : ∀ {a b b'}, a ∈ members → Keeps b → step b a = .ok b' → Keeps b') {b b' : β}
    (hb : Keeps b) (h : members.foldlM step b = .ok b') : Keeps b' := by
  induction members generalizing b with
  | nil =>
    cases h
    exact hb
  | cons a members ih =>
    rw [List.foldlM_cons] at h
    obtain ⟨between, hfirst, hrest⟩ := bind_eq_ok.1 h
    have hbetween := hstep List.mem_cons_self hb hfirst
    exact ih (fun hmem => hstep (List.mem_cons_of_mem a hmem)) hbetween hrest

/-- Errors that are put in other words are still errors. -/
theorem mapError_eq_ok {ε' : Type} {x : Except ε α} {f : ε → ε'} {a : α} :
    x.mapError f = .ok a ↔ x = .ok a := by
  cases x with
  | error e =>
    constructor
    · intro h
      cases h
    · intro h
      cases h
  | ok a' =>
    constructor
    · intro h
      cases h
      rfl
    · intro h
      cases h
      rfl

/-- A success can be found by computing it, even where results cannot be compared: it is
enough to compute something of the result that can. -/
theorem exists_ok_of_toOption_map {x : Except ε α} {f : α → β} {b : β}
    (h : x.toOption.map f = some b) : ∃ a, x = .ok a ∧ f a = b := by
  cases x with
  | error e => cases h
  | ok a => exact ⟨a, rfl, Option.some.inj h⟩

/-- So can a failure. -/
theorem exists_error_of_isNone {x : Except ε α} (h : x.toOption.isNone = true) :
    ∃ e, x = .error e := by
  cases x with
  | error e => exact ⟨e, rfl⟩
  | ok a => cases h

/-! ## The error of a computation -/

section Faults

variable {α β : Type}

/-- The error a computation ends with, if it fails. It forgets the result, which is what is wanted
where only the first fault matters. -/
def fault? : Except Error α → Option Error
  | .ok _ => none
  | .error e => some e

theorem fault?_eq_none_iff {x : Except Error α} : fault? x = none ↔ ∃ a, x = .ok a := by
  cases x with
  | ok a => simp [fault?]
  | error e => simp [fault?]

theorem fault?_eq_some_iff {x : Except Error α} {e : Error} :
    fault? x = some e ↔ x = .error e := by
  cases x with
  | ok a => simp [fault?]
  | error e => simp [fault?]

theorem fault?_map {x : Except Error α} {f : α → β} : fault? (x.map f) = fault? x := by
  cases x <;> rfl

/-- Of two steps the first one that fails decides. -/
theorem fault?_bind {x : Except Error α} {y : Except Error β} {f : α → β → β} :
    fault? (x >>= fun a => y >>= fun b => .ok (f a b)) = (fault? x).or (fault? y) := by
  cases x with
  | error e => rfl
  | ok a => cases y <;> rfl

end Faults

/-! ## Computations side by side -/

section Follows

variable {ε' α' β' : Type} {R : α → α' → Prop} {S : β → β' → Prop}

/-- Where the first computation succeeds the second one does, and the results go together. The
errors may be of different types, since the computations may be about different things. -/
def Follows (R : α → α' → Prop) (x : Except ε α) (y : Except ε' α') : Prop :=
  ∀ a, x = .ok a → ∃ b, y = .ok b ∧ R a b

/-- Both computations succeed or none of them does, and the results go together. Errors are not
compared. Two orders of doing the same thing can stop at different faults. -/
def Agree (R : α → α' → Prop) (x : Except ε α) (y : Except ε' α') : Prop :=
  Follows R x y ∧ Follows (fun b a => R a b) y x

theorem Follows.ok {a : α} {b : α'} (h : R a b) :
    Follows R (.ok a : Except ε α) (.ok b : Except ε' α') := by
  intro a' ha
  cases ha
  exact ⟨b, rfl, h⟩

/-- Nothing has to be done where the first computation fails. -/
theorem Follows.error (e : ε) (y : Except ε' α') : Follows R (.error e) y := by
  intro a ha
  cases ha

theorem Follows.refl {R : α → α → Prop} (hR : ∀ a, R a a) (x : Except ε α) : Follows R x x := by
  intro a ha
  exact ⟨a, ha, hR a⟩

/-- Steps that are taken side by side, on results that go together. -/
theorem Follows.bind {x : Except ε α} {y : Except ε' α'} {f : α → Except ε β}
    {g : α' → Except ε' β'} (h : Follows R x y) (hstep : ∀ a b, R a b → Follows S (f a) (g b)) :
    Follows S (x >>= f) (y >>= g) := by
  intro c hc
  obtain ⟨a, ha, hc⟩ := bind_eq_ok.1 hc
  obtain ⟨b, hb, hab⟩ := h a ha
  obtain ⟨d, hd, hcd⟩ := hstep a b hab c hc
  exact ⟨d, bind_eq_ok.2 ⟨b, hb, hd⟩, hcd⟩

/-- Two computations agree if each succeeds where the other one does, and one of the relations
says how their results go together. -/
theorem Follows.agree {S : α' → α → Prop} {x : Except ε α} {y : Except ε' α'}
    (h : Follows R x y) (h' : Follows S y x) : Agree R x y := by
  refine ⟨h, ?_⟩
  intro b hb
  obtain ⟨a, ha, -⟩ := h' b hb
  obtain ⟨b', hb', hab⟩ := h a ha
  rw [hb] at hb'
  cases hb'
  exact ⟨a, ha, hab⟩

end Follows

/-! ## Errors that cannot arise -/

/-- The computation does not end with one of the given errors. Nothing is said of success. -/
def Avoids (bad : ε → Prop) (x : Except ε α) : Prop := ∀ e, x = .error e → ¬ bad e

theorem Avoids.ok (bad : ε → Prop) (a : α) : Avoids bad (.ok a : Except ε α) := by
  intro e h
  cases h

theorem Avoids.error {bad : ε → Prop} {e : ε} (h : ¬ bad e) :
    Avoids bad (.error e : Except ε α) := by
  intro e' he
  cases he
  exact h

/-- The second step only has to be looked at on results of the first. -/
theorem Avoids.bind {bad : ε → Prop} {x : Except ε α} {f : α → Except ε β}
    (hx : Avoids bad x) (hf : ∀ a, x = .ok a → Avoids bad (f a)) : Avoids bad (x >>= f) := by
  cases x with
  | error e =>
    -- an error of the first step is that of the sequence
    exact fun e' he => by cases he; exact hx e rfl
  | ok a => exact hf a rfl

theorem Avoids.map {bad : ε → Prop} {x : Except ε α} (f : α → β) (hx : Avoids bad x) :
    Avoids bad (x.map f) := by
  cases x with
  | error e => exact fun e' he => by cases he; exact hx e rfl
  | ok a => exact fun e' he => by cases he

end ItemStore
