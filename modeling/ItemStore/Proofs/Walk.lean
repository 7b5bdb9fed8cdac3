import Mathlib.Data.List.Lex

/-
The first fault of a tree.

Schemas are checked, and values along schemas, by walking through them: a node first, then its
children one after the other, each of them with everything below it. The walk ends at the first
fault. What that is can be said without walking. A node stands at a site, the row of numbers of the
children that lead to it, and sites are in the order of lists: `[]` is before `[0]`, that is before
`[0, 3]`, and that is before `[1]`. The first fault is one at some site such that nothing is wrong
at any earlier one.

A check that walks is tied to the tree by `Meets`: it finds nothing where nothing is wrong, and
otherwise what is said of the first fault. This is shown of a node from its children, taken one by
one from the last to the first (`MeetsFrom`), and so a check only has to be compared with the tree
in one place: where it goes from one child on to the next.

The walks are those of `build` through a schema and of `encode_value` through a value.
-/
set_option autoImplicit false

namespace ItemStore

/-- Where a node stands in a tree: the numbers of the children that lead to it, from the root
down. Lists of numbers are compared as words are, which puts a node before what is below it. -/
abbrev Site := List Nat

/-- A tree as far as it matters to a walk: the children of each node in order, and what may be
wrong with a node, leaving aside what is below it. Children are given by number, so a walk can be
followed without knowing how many there are. -/
structure Walk (α φ : Type) where
  child? : α → Nat → Option α
  Fault : α → φ → Prop

namespace Walk

variable {α φ ε : Type} (w : Walk α φ)

/-- What stands at a site below a node. It is the walk along one branch. -/
def at? (a : α) (site : Site) : Option α := site.foldlM w.child? a

/-- Nothing is wrong with the node or with anything below it. The node itself is at the empty
site. -/
def Clean (a : α) : Prop := ∀ site b f, w.at? a site = some b → ¬ w.Fault b f

/-- Something is wrong with what stands at the site, and with nothing at an earlier one. There is
one such site at most, as sites are in a linear order. -/
structure First (a : α) (site : Site) (b : α) (f : φ) : Prop where
  reached : w.at? a site = some b
  fault : w.Fault b f
  earliest : ∀ site' c g, site' < site → w.at? a site' = some c → ¬ w.Fault c g

/-! ## One level down -/

variable {w} {a b c : α} {f g : φ} {i : Nat} {site site' : Site}

theorem at?_cons : w.at? a (i :: site) = (w.child? a i).bind fun c => w.at? c site := rfl

theorem at?_concat : w.at? a (site ++ [i]) = (w.at? a site).bind fun b => w.child? b i := by
  simp only [at?, List.foldlM_append, List.foldlM_cons, List.foldlM_nil, bind_pure]
  rfl

theorem clean_iff :
    w.Clean a ↔ (∀ f, ¬ w.Fault a f) ∧ ∀ i c, w.child? a i = some c → w.Clean c := by
  constructor
  · intro h
    refine ⟨fun f => h [] a f rfl, fun i c hc site b f hb => h (i :: site) b f ?_⟩
    rw [at?_cons, hc, Option.bind_some, hb]
  · rintro ⟨hself, hchildren⟩ site b f hb
    cases site with
    | nil =>
      cases hb
      exact hself f
    | cons i site =>
      obtain ⟨c, hc, hb⟩ := Option.bind_eq_some_iff.1 hb
      exact hchildren i c hc site b f hb

/-- Whatever stands below a node is a child of something. -/
theorem clean_iff_forall_child : w.Clean a ↔ (∀ f, ¬ w.Fault a f) ∧
    ∀ site b, w.at? a site = some b → ∀ i c, w.child? b i = some c → ∀ f, ¬ w.Fault c f := by
  constructor
  · intro h
    refine ⟨fun f => h [] a f rfl, fun site b hb i c hc f => h (site ++ [i]) c f ?_⟩
    rw [at?_concat, hb, Option.bind_some, hc]
  · rintro ⟨hself, hchildren⟩ site c f hc
    rcases List.eq_nil_or_concat site with rfl | ⟨site, i, rfl⟩
    · cases hc
      exact hself f
    · rw [List.concat_eq_append, at?_concat] at hc
      obtain ⟨b, hb, hc⟩ := Option.bind_eq_some_iff.1 hc
      exact hchildren site b hb i c hc f

/-- Nothing is earlier than the node itself. -/
theorem first_self (h : w.Fault a f) : w.First a [] a f where
  reached := rfl
  fault := h
  earliest := fun _ _ _ hlt => absurd hlt (List.not_lt_nil _)

/-- What is first below a child is first below the node, if the node and the children before this
one are in order. -/
theorem First.child (hself : ∀ g, ¬ w.Fault a g) (hc : w.child? a i = some c)
    (hbefore : ∀ j d, j < i → w.child? a j = some d → w.Clean d) (h : w.First c site b f) :
    w.First a (i :: site) b f where
  reached := by rw [at?_cons, hc, Option.bind_some, h.reached]
  fault := h.fault
  earliest := by
    intro site' d g hlt hd
    cases site' with
    | nil =>
      cases hd
      exact hself g
    | cons j site' =>
      obtain ⟨c', hc', hd⟩ := Option.bind_eq_some_iff.1 hd
      rcases List.cons_lt_cons_iff.1 hlt with hj | ⟨rfl, hbelow⟩
      · exact hbefore j c' hj hc' site' d g hd
      · rw [hc] at hc'
        cases hc'
        exact h.earliest site' d g hbelow hd

/-- There is only one first site. -/
theorem First.site_eq (h : w.First a site b f) (h' : w.First a site' c g) : site = site' := by
  rcases lt_trichotomy site site' with hlt | he | hlt
  · exact absurd h.fault (h'.earliest site b f hlt h.reached)
  · exact he
  · exact absurd h'.fault (h.earliest site' c g hlt h'.reached)

/-! ## Checks -/

/-- What a check of the node and of everything below it finds, if `say` is what it says about a
fault. A check that meets this finds something just where something is wrong, and says so about
the first of it. -/
structure Meets (w : Walk α φ) (say : α → φ → ε) (a : α) (found : Option ε) : Prop where
  clean : found = none → w.Clean a
  first : ∀ e, found = some e → ∃ site b f, w.First a site b f ∧ e = say b f

/-- What a check of the children finds, from the `k`-th one on. The number is what the induction
over the children runs on. -/
structure MeetsFrom (w : Walk α φ) (say : α → φ → ε) (a : α) (k : Nat) (found : Option ε) :
    Prop where
  clean : found = none → ∀ i c, k ≤ i → w.child? a i = some c → w.Clean c
  first : ∀ e, found = some e → ∃ i c site b f, w.child? a i = some c ∧
    (∀ j d, k ≤ j → j < i → w.child? a j = some d → w.Clean d) ∧ w.First c site b f ∧ e = say b f

variable {say : α → φ → ε} {k : Nat} {found rest : Option ε}

/-- After the last child there is nothing to find. -/
theorem MeetsFrom.none (h : ∀ i, k ≤ i → w.child? a i = none) :
    w.MeetsFrom say a k Option.none where
  clean := by
    intro _ i c hi hc
    rw [h i hi] at hc
    cases hc
  first := by
    intro e he
    cases he

/-- One child after the other. -/
theorem MeetsFrom.or (hc : w.child? a k = some c) (h : w.Meets say c found)
    (hrest : w.MeetsFrom say a (k + 1) rest) : w.MeetsFrom say a k (found.or rest) := by
  constructor
  · intro hnone i d hi hd
    obtain ⟨hfound, hrest'⟩ := Option.or_eq_none_iff.1 hnone
    rcases Nat.eq_or_lt_of_le hi with rfl | hlt
    · rw [hc] at hd
      cases hd
      exact h.clean hfound
    · exact hrest.clean hrest' i d hlt hd
  · intro e he
    cases hfound : found with
    | some e' =>
      obtain rfl : e' = e := by rwa [hfound, Option.some_or, Option.some_inj] at he
      obtain ⟨site, b, f, hfirst, rfl⟩ := h.first e' hfound
      exact ⟨k, c, site, b, f, hc, fun j d hj hlt => absurd hlt (Nat.not_lt_of_le hj), hfirst, rfl⟩
    | none =>
      rw [hfound, Option.none_or] at he
      obtain ⟨i, d, site, b, f, hd, hbefore, hfirst, rfl⟩ := hrest.first e he
      refine ⟨i, d, site, b, f, hd, ?_, hfirst, rfl⟩
      intro j d' hj hlt hd'
      rcases Nat.eq_or_lt_of_le hj with rfl | hj
      -- nothing was found in this child
      · rw [hc] at hd'
        cases hd'
        exact h.clean hfound
      · exact hbefore j d' hj hlt hd'

/-- A check of the only child there is. -/
theorem MeetsFrom.single (hc : w.child? a 0 = some c)
    (honly : ∀ i, 1 ≤ i → w.child? a i = Option.none) (h : w.Meets say c found) :
    w.MeetsFrom say a 0 found := by
  have hfrom := MeetsFrom.or hc h (.none honly)
  rwa [Option.or_none] at hfrom

/-- A fault of the node itself is found before anything below it. -/
theorem Meets.of_fault (h : w.Fault a f) : w.Meets say a (some (say a f)) where
  clean := by
    intro hnone
    cases hnone
  first := by
    intro e he
    cases he
    exact ⟨[], a, f, first_self h, rfl⟩

/-- If nothing is wrong with the node itself, its children are checked. -/
theorem MeetsFrom.meets (hself : ∀ f, ¬ w.Fault a f) (h : w.MeetsFrom say a 0 found) :
    w.Meets say a found where
  clean := fun hnone => clean_iff.2 ⟨hself, fun i c hc => h.clean hnone i c (Nat.zero_le i) hc⟩
  first := by
    intro e he
    obtain ⟨i, c, site, b, f, hc, hbefore, hfirst, rfl⟩ := h.first e he
    refine ⟨i :: site, b, f, hfirst.child hself hc ?_, rfl⟩
    exact fun j d hlt hd => hbefore j d (Nat.zero_le j) hlt hd

/-- Nothing is found exactly where nothing is wrong. -/
theorem Meets.eq_none_iff (h : w.Meets say a found) : found = Option.none ↔ w.Clean a := by
  constructor
  · exact h.clean
  · intro hclean
    cases he : found with
    | none => rfl
    | some e =>
      obtain ⟨site, b, f, hfirst, -⟩ := h.first e he
      exact absurd hfirst.fault (hclean site b f hfirst.reached)

/-- What is found is what is said of the first fault, if only one thing can be wrong with a
node. -/
theorem Meets.eq_some_iff (hunique : ∀ b f g, w.Fault b f → w.Fault b g → f = g)
    (h : w.Meets say a found) {e : ε} :
    found = some e ↔ ∃ site b f, w.First a site b f ∧ e = say b f := by
  constructor
  · exact h.first e
  · rintro ⟨site, b, f, hfirst, rfl⟩
    cases he : found with
    | none => exact absurd hfirst.fault (h.clean he site b f hfirst.reached)
    | some e' =>
      obtain ⟨site', c, g, hfirst', rfl⟩ := h.first e' he
      obtain rfl := hfirst.site_eq hfirst'
      obtain rfl : b = c := Option.some.inj (hfirst.reached.symm.trans hfirst'.reached)
      rw [hunique b f g hfirst.fault hfirst'.fault]

end Walk

end ItemStore
