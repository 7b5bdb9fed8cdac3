import ItemStore.Proofs.Outcome

/-
Computations on a state that is changed in place.

In `InPlace` everything that was done before a failure stays done. `Realizes` says that such a
computation does what a function of the state does as long as nothing fails, and says nothing about
the state otherwise; it is closed under sequencing (`Realizes.bind`). `Commits` says in addition
that the state is left alone by a failure. It is closed under sequencing only where what comes later
cannot fail (`Commits.andThen`), or where what comes first does not change anything
(`Commits.ofExcept`, `Commits.reading`); otherwise it takes a copy (`Realizes.onCopy`).

The compilers work on a context that is passed to them by reference, and this is the form in which
their steps are written when it matters what a failure leaves behind.
-/
set_option autoImplicit false

namespace ItemStore

/-- A computation that changes a state as it goes. What was done before it failed stays done. The
state is outside of the error, so that an error does not take it away. -/
abbrev InPlace (σ α : Type) : Type := ExceptT Error (StateM σ) α

namespace InPlace

variable {σ τ α β : Type}

/-- What a computation comes to and the state that it leaves behind. It always gives a state. -/
def run (x : InPlace σ α) (s : σ) : Except Error α × σ := StateT.run (ExceptT.run x) s

/-- Works on a part of the state. The rest of the state stays as it is. -/
def onPart (part : τ → σ) (put : σ → τ → τ) (x : InPlace σ α) : InPlace τ α :=
  ExceptT.mk fun t => ((run x (part t)).1, put (run x (part t)).2 t)

/-- Works on a copy of the state, which takes its place if nothing failed. This is how a table is
filled on the side and then put in the place of the old one. -/
def onCopy (x : InPlace σ α) : InPlace σ α :=
  ExceptT.mk fun s =>
    match run x s with
    | (.ok a, s') => (.ok a, s')
    | (.error e, _) => (.error e, s)

section Realizing

variable {Good : σ → Prop} {x : InPlace σ α} {y : α → InPlace σ β}
  {f : σ → Except Error (α × σ)} {g : α → σ → Except Error (β × σ)}

theorem run_bind (x : InPlace σ α) (y : α → InPlace σ β) (s : σ) :
    run (x >>= y) s =
      match run x s with
      | (.ok a, s') => run (y a) s'
      | (.error e, s') => (.error e, s') := by
  have hrun : run (x >>= y) s = ExceptT.bindCont y (run x s).1 (run x s).2 := rfl
  rw [hrun]
  rcases run x s with ⟨e | a, s'⟩
  · rfl
  · rfl

/-- The computation does what the function says as long as nothing fails, and it fails as the
function does, in some state. A success leads from a good state to a good one. The two fields
cover everything there is to say of a result, since the function succeeds or fails. -/
structure Realizes (Good : σ → Prop) (x : InPlace σ α) (f : σ → Except Error (α × σ)) : Prop where
  ok : ∀ s a s', Good s → f s = .ok (a, s') → run x s = (.ok a, s') ∧ Good s'
  error : ∀ s e, Good s → f s = .error e → ∃ s', run x s = (.error e, s')

/-- The computation does what the function says, and where it fails it leaves the state alone. It
is what lets a caller try something and go on with the old tables. -/
structure Commits (Good : σ → Prop) (x : InPlace σ α) (f : σ → Except Error (α × σ)) : Prop where
  ok : ∀ s a s', Good s → f s = .ok (a, s') → run x s = (.ok a, s') ∧ Good s'
  error : ∀ s e, Good s → f s = .error e → run x s = (.error e, s)

theorem Commits.realizes (h : Commits Good x f) : Realizes Good x f :=
  ⟨h.ok, fun s e hs he => ⟨s, h.error s e hs he⟩⟩

theorem Realizes.congr {f' : σ → Except Error (α × σ)} (hx : Realizes Good x f)
    (h : ∀ s, f s = f' s) : Realizes Good x f' := (funext h : f = f') ▸ hx

theorem Commits.congr {f' : σ → Except Error (α × σ)} (hx : Commits Good x f)
    (h : ∀ s, f s = f' s) : Commits Good x f' := (funext h : f = f') ▸ hx

/-- What only changes the state or leaves it as it is. -/
theorem Commits.of_run {x : InPlace σ Unit} {f : σ → Except Error σ}
    (hrun : ∀ s, run x s =
      match f s with
      | .ok s' => (.ok (), s')
      | .error e => (.error e, s))
    (hgood : ∀ s s', Good s → f s = .ok s' → Good s') :
    Commits Good x fun s => (f s).map fun s' => ((), s') := by
  constructor
  · intro s u s'' hs h
    obtain ⟨s', hf, he⟩ := map_eq_ok.1 h
    cases he
    rw [hrun, hf]
    exact ⟨rfl, hgood s _ hs hf⟩
  · intro s e hs h
    rw [hrun, map_eq_error.1 h]

theorem Commits.pure (a : α) : Commits Good (Pure.pure a) fun s => .ok (a, s) := by
  constructor
  · intro s a' s' hs h
    cases h
    exact ⟨rfl, hs⟩
  · intro s e hs h
    cases h

theorem Commits.throw (e : Error) :
    Commits Good (MonadExcept.throw e : InPlace σ α) fun _ => .error e := by
  constructor
  · intro s a s' hs h
    cases h
  · intro s e' hs h
    cases h
    rfl

theorem Realizes.pure (a : α) : Realizes Good (Pure.pure a) fun s => .ok (a, s) :=
  (Commits.pure a).realizes

theorem Realizes.throw (e : Error) :
    Realizes Good (MonadExcept.throw e : InPlace σ α) fun _ => .error e :=
  (Commits.throw e).realizes

/-- One computation after the other. -/
theorem Realizes.bind (hx : Realizes Good x f) (hy : ∀ a, Realizes Good (y a) (g a)) :
    Realizes Good (x >>= y) fun s => f s >>= fun r => g r.1 r.2 := by
  constructor
  · intro s b s'' hs h
    obtain ⟨⟨a, s'⟩, hfirst, h⟩ := bind_eq_ok.1 h
    obtain ⟨hrun, hs'⟩ := hx.ok s a s' hs hfirst
    rw [run_bind, hrun]
    exact (hy a).ok s' b s'' hs' h
  · intro s e hs h
    rw [run_bind]
    cases hfirst : f s with
    | error e' =>
      rw [hfirst] at h
      cases h
      obtain ⟨s', hrun⟩ := hx.error s e hs hfirst
      rw [hrun]
      exact ⟨s', rfl⟩
    | ok r =>
      obtain ⟨a, s'⟩ := r
      rw [hfirst] at h
      obtain ⟨hrun, hs'⟩ := hx.ok s a s' hs hfirst
      rw [hrun]
      exact (hy a).error s' e hs' h

/-- What cannot fail may come after what leaves the state alone when it fails. -/
theorem Commits.andThen (hx : Commits Good x f) {h : α → σ → β × σ}
    (hy : ∀ a s, run (y a) s = (.ok (h a s).1, (h a s).2))
    (hgood : ∀ a s, Good s → Good (h a s).2) :
    Commits Good (x >>= y) fun s => f s >>= fun r => .ok (h r.1 r.2) := by
  constructor
  · intro s b s'' hs hb
    obtain ⟨⟨a, s'⟩, hfirst, hb⟩ := bind_eq_ok.1 hb
    obtain ⟨hrun, hs'⟩ := hx.ok s a s' hs hfirst
    have hlast : h a s' = (b, s'') := Except.ok.inj hb
    rw [run_bind, hrun]
    refine ⟨(hy a s').trans ?_, ?_⟩
    · rw [hlast]
    · have hgood' := hgood a s' hs'
      rwa [hlast] at hgood'
  · intro s e hs he
    cases hfirst : f s with
    | error e' =>
      rw [hfirst] at he
      cases he
      rw [run_bind, hx.error s e hs hfirst]
    | ok r =>
      rw [hfirst] at he
      cases he

/-- What does not look at the state at all may come first. -/
theorem Realizes.ofExcept {r : Except Error α} (hy : ∀ a, Realizes Good (y a) (g a)) :
    Realizes Good (MonadExcept.ofExcept r >>= y) fun s => r >>= fun a => g a s := by
  cases r with
  | ok a => exact hy a
  | error e => exact .throw e

theorem Commits.ofExcept {r : Except Error α} (hy : ∀ a, Commits Good (y a) (g a)) :
    Commits Good (MonadExcept.ofExcept r >>= y) fun s => r >>= fun a => g a s := by
  cases r with
  | ok a => exact hy a
  | error e => exact Commits.throw e

/-- What comes next may depend on the state. -/
theorem Commits.reading {y : τ → InPlace σ β} {g : τ → σ → Except Error (β × σ)}
    (look : σ → τ) (hy : ∀ t, Commits Good (y t) (g t)) :
    Commits Good (get >>= fun s => y (look s)) fun s => g (look s) s :=
  ⟨fun s => (hy (look s)).ok s, fun s => (hy (look s)).error s⟩

theorem Commits.run_eq (hx : Commits Good x f) {s : σ} (hs : Good s) :
    run x s =
      match f s with
      | .ok (a, s') => (.ok a, s')
      | .error e => (.error e, s) := by
  cases hf : f s with
  | ok r =>
    obtain ⟨a, s'⟩ := r
    exact (hx.ok s a s' hs hf).1
  | error e => exact hx.error s e hs hf

/-- On a copy nothing can be left half done. -/
theorem Realizes.onCopy (hx : Realizes Good x f) : Commits Good (InPlace.onCopy x) f := by
  have hrun : ∀ s, run (InPlace.onCopy x) s =
      match run x s with
      | (.ok a, s') => (.ok a, s')
      | (.error e, _) => (.error e, s) := fun _ => rfl
  constructor
  · intro s a s' hs h
    obtain ⟨hok, hs'⟩ := hx.ok s a s' hs h
    rw [hrun, hok]
    exact ⟨rfl, hs'⟩
  · intro s e hs h
    obtain ⟨s', herror⟩ := hx.error s e hs h
    rw [hrun, herror]

variable {Whole : τ → Prop} {part : τ → σ} {put : σ → τ → τ}

/-- What is done on a part of the state is done on the state. -/
theorem Realizes.onPart (hx : Realizes Good x f) (hpart : ∀ t, Whole t → Good (part t))
    (hput : ∀ s t, Whole t → Good s → Whole (put s t)) :
    Realizes Whole (InPlace.onPart part put x) fun t =>
      (f (part t)).map fun r => (r.1, put r.2 t) := by
  have hrun : ∀ t, run (InPlace.onPart part put x) t =
      ((run x (part t)).1, put (run x (part t)).2 t) := fun _ => rfl
  constructor
  · intro t a t' ht h
    obtain ⟨⟨a, s'⟩, hf, he⟩ := map_eq_ok.1 h
    cases he
    obtain ⟨hok, hs'⟩ := hx.ok _ a s' (hpart t ht) hf
    rw [hrun, hok]
    exact ⟨rfl, hput s' t ht hs'⟩
  · intro t e ht h
    obtain ⟨s', herror⟩ := hx.error _ e (hpart t ht) (map_eq_error.1 h)
    rw [hrun, herror]
    exact ⟨_, rfl⟩

theorem Commits.onPart (hx : Commits Good x f) (hpart : ∀ t, Whole t → Good (part t))
    (hput : ∀ s t, Whole t → Good s → Whole (put s t)) (hsame : ∀ t, put (part t) t = t) :
    Commits Whole (InPlace.onPart part put x) fun t =>
      (f (part t)).map fun r => (r.1, put r.2 t) := by
  refine ⟨(hx.realizes.onPart hpart hput).ok, ?_⟩
  intro t e ht h
  have hrun : run (InPlace.onPart part put x) t =
      ((run x (part t)).1, put (run x (part t)).2 t) := rfl
  rw [hrun, hx.error _ e (hpart t ht) (map_eq_error.1 h)]
  dsimp only
  rw [hsame]

end Realizing

end InPlace

end ItemStore
