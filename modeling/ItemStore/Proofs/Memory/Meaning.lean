import ItemStore.Memory.Shop
import ItemStore.Proofs.Decimal.Plain
import ItemStore.Proofs.Draft.ValueTokens
import ItemStore.Proofs.Expression.Acceptance
import ItemStore.Proofs.Expression.History
import ItemStore.Proofs.Memory.Clauses
import ItemStore.Proofs.Schema.Descent

/-
What an update means.

The actions of an update are meant to happen at once: each says what becomes of one attribute, and
what it says depends on what that attribute held before and on nothing else (`Change.after`). A
store does not do them at once. It reads them out of a text, assignments first, and carries them
out one after the other on an item that changes under its hands. Both come to the same because no
two actions have the same path: whatever a clause does to its own attribute, the attributes of the
clauses after it are still as they were (`Alters`, `run_clauses`).

Names that collide after sanitizing have tokens with numbers, and a condition may have bound
tokens before. Neither is seen here any more: a clause comes with tables in which its token stands
for its attribute, and tables that are added to keep that.

Numbers are calculated with as `evaluate` does it: as doubles, whose text the attribute then
holds.
-/
set_option autoImplicit false

namespace ItemStore

open Entries Bindings Memory

/-! ## Changes -/

namespace Change

/-- Whether the change can be made to what an attribute holds: a number can be calculated with,
and a list can be appended to, also one that is not there yet. It is what `evaluate` asks before
it comes to a value, less what has been encoded for it. -/
def Suits (old : Option Descriptor) : Change → Prop
  | set _ => True
  | increment _ => ∃ d base, old = some d ∧ numberOf? d = some base
  | decrement _ => ∃ d base, old = some d ∧ numberOf? d = some base
  | append _ => old = none ∨ ∃ items, old = some (.list items)
  | remove => True

/-- The number that comes of the one in an attribute and an amount. It has no value where there is
no number to begin with or the amount is none. -/
def calculation (operation : Float → Float → Float) (old : Option Descriptor) (amount : Value) :
    Option Float := do
  let base ← old.bind numberOf?
  let amount ← amount.number?
  some (operation base amount)

/-- What is stored of a calculation. The number is written back as a text. -/
def calculate (operation : Float → Float → Float) (old : Option Descriptor) (amount : Value) :
    Option Descriptor :=
  (calculation operation old amount).map fun x => .number (Decimal.plain x)

/-- The result of an arithmetic change. It is the number and not its text, since what is asked of
it later is that it is finite. -/
def result? (old : Option Descriptor) : Change → Option Float
  | increment amount => calculation (· + ·) old amount
  | decrement amount => calculation (· - ·) old amount
  | _ => none

/-- What an attribute with the given node holds after the change, if it held `old` before. It
looks at one attribute alone and not at the item, which is why the order of actions cannot matter.
-/
def after (node : Schema) (old : Option Descriptor) : Change → Option Descriptor
  | set v => (node.encode v).toOption
  | increment amount => calculate (· + ·) old amount
  | decrement amount => calculate (· - ·) old amount
  | append values => do
    let more ← (node.encode (.list values)).toOption.bind Descriptor.items?
    some (.list ((old.bind Descriptor.items?).getD [] ++ more))
  | remove => none

end Change

/-- Only finite numbers are amounts, and only at attributes that hold numbers. -/
theorem encodeAmount_eq_ok {path : Path} {node : Schema} {amount : Value} {d : Descriptor}
    (h : encodeAmount path node amount = .ok d) :
    ∃ m x, node = .scalar m .number ∧ amount = .number x ∧ x.isFinite = true ∧
      d = .number (Decimal.plain x) := by
  unfold encodeAmount at h
  split at h
  · next m =>
    cases amount with
    | number x =>
      obtain ⟨text, htext, rfl⟩ := map_eq_ok.1 h
      obtain ⟨hx, rfl⟩ := encodeNumber_eq_ok.1 htext
      exact ⟨m, x, rfl, rfl, hx, rfl⟩
    | _ => cases h
  · cases h

/-- Only lists are appended, and only at attributes that hold lists. -/
theorem encodeAppended_eq_ok {path : Path} {node : Schema} {values : List Value} {d : Descriptor}
    (h : encodeAppended path node values = .ok d) :
    ∃ m element more, node = .list m element ∧ node.encode (.list values) = .ok d ∧
      d = .list more := by
  unfold encodeAppended at h
  split at h
  · next m element =>
    obtain ⟨items, more, -, -, hd⟩ := (Schema.encodeAt_list_eq_ok rfl).1 h
    exact ⟨m, element, more, rfl, h, hd⟩
  · cases h

/-! ## One clause -/

namespace Memory

theorem attributeOf_of_get? {b : Bindings} {token name : String}
    (h : get? token b.names = some name) : attributeOf b token.toList = .ok name := by
  rw [attributeOf, String.ofList_toList, h]

theorem valueOf_of_get? {b : Bindings} {token : String} {d : Descriptor}
    (h : get? token b.values = some d) : valueOf b token.toList = .ok d := by
  rw [valueOf, String.ofList_toList, h]

section Calculation

variable {b : Bindings} {item : Item} {name token target : String} {y : Float}
  (operation : Float → Float → Float)

theorem calculated_of_number (hname : get? name b.names = some target)
    (htoken : get? token b.values = some (.number (Decimal.plain y))) (hy : y.isFinite = true)
    {d : Descriptor} {base : Float} (hold : get? target item = some d)
    (hbase : numberOf? d = some base) :
    calculated b item operation name.toList token.toList =
      .ok (.number (Decimal.plain (operation base y))) := by
  have hamount : numberOf? (.number (Decimal.plain y)) = some y := Decimal.read?_toList_plain hy
  simp only [calculated, attributeOf_of_get? hname, valueOf_of_get? htoken, bind, Except.bind, hold,
    hbase, hamount]

theorem calculated_of_other (hname : get? name b.names = some target)
    (hold : ¬ ∃ d base, get? target item = some d ∧ numberOf? d = some base) :
    ∃ fault, calculated b item operation name.toList token.toList = .error fault := by
  simp only [calculated, attributeOf_of_get? hname, bind, Except.bind]
  cases hget : get? target item with
  | none => exact ⟨_, rfl⟩
  | some d =>
    cases hnumber : numberOf? d with
    | none =>
      refine ⟨.arithmeticOnOther, ?_⟩
      simp only [hnumber]
    | some base => exact absurd ⟨d, base, hget, hnumber⟩ hold

/-- Calculating needs a number in the attribute, and then it comes to a number. -/
theorem calculated_spec (hname : get? name b.names = some target)
    (htoken : get? token b.values = some (.number (Decimal.plain y))) (hy : y.isFinite = true) :
    ((∃ d base, get? target item = some d ∧ numberOf? d = some base) →
      ∃ d, calculated b item operation name.toList token.toList = .ok d ∧
        Change.calculate operation (get? target item) (.number y) = some d) ∧
      ((¬ ∃ d base, get? target item = some d ∧ numberOf? d = some base) →
        ∃ fault, calculated b item operation name.toList token.toList = .error fault) := by
  refine ⟨?_, calculated_of_other operation hname⟩
  rintro ⟨d, base, hold, hbase⟩
  refine ⟨_, calculated_of_number operation hname htoken hy hold hbase, ?_⟩
  simp [Change.calculate, Change.calculation, hold, hbase, Value.number?]

end Calculation

section Appending

variable {b : Bindings} {item : Item} {name token target : String} {more : List Descriptor}

/-- Where nothing is, there is an empty list. -/
theorem listIn_of_suits
    (h : get? target item = none ∨ ∃ items, get? target item = some (.list items)) :
    listIn item target = .ok (((get? target item).bind Descriptor.items?).getD []) := by
  rw [listIn]
  rcases h with hold | ⟨items, hold⟩
  · rw [hold]
    rfl
  · rw [hold]
    rfl

theorem listIn_of_other
    (h : ¬ (get? target item = none ∨ ∃ items, get? target item = some (.list items))) :
    ∃ fault, listIn item target = .error fault := by
  rw [listIn]
  cases hold : get? target item with
  | none => exact absurd (.inl hold) h
  | some d =>
    cases d with
    | list items => exact absurd (.inr ⟨items, hold⟩) h
    | _ => exact ⟨_, rfl⟩

/-- Appending needs a list in the attribute or nothing, and then it comes to a list. -/
theorem appended_spec (hplain : IsPlain name.toList) (hname : get? name b.names = some target)
    (htoken : get? token b.values = some (.list more)) :
    ((get? target item = none ∨ ∃ items, get? target item = some (.list items)) →
      appended b item (name.toList ++ (", ".toList ++ token.toList)) =
        .ok (.list (((get? target item).bind Descriptor.items?).getD [] ++ more))) ∧
      ((¬ (get? target item = none ∨ ∃ items, get? target item = some (.list items))) →
        ∃ fault, appended b item (name.toList ++ (", ".toList ++ token.toList)) =
          .error fault) := by
  have hcut : Text.cut? ", ".toList (name.toList ++ (", ".toList ++ token.toList)) =
      some (name.toList, token.toList) := Text.cut?_of_notMem (hplain.notMem (by decide)) _
  rw [appended, hcut]
  dsimp only
  rw [attributeOf_of_get? hname, valueOf_of_get? htoken]
  constructor
  · intro hsuits
    exact bind_eq_ok.2 ⟨target, rfl, bind_eq_ok.2 ⟨_, listIn_of_suits hsuits, rfl⟩⟩
  · intro hsuits
    obtain ⟨fault, hfault⟩ : ∃ fault, listIn item target = .error fault := listIn_of_other hsuits
    refine ⟨fault, ?_⟩
    simp only [bind, Except.bind, hfault]

end Appending

end Memory

/-- What a change of one attribute does to an item. It says all there is to say of the new item up
to the order of its entries: the one attribute, and every other. -/
structure Alters (node : Schema) (name : String) (change : Change) (item item' : Item) : Prop where
  nodup : (keys item').Nodup
  target : get? name item' = change.after node (get? name item)
  others : ∀ other, other ≠ name → get? other item' = get? other item

theorem alters_insert {node : Schema} {name : String} {change : Change} {item : Item}
    {d : Descriptor} (hnodup : (keys item).Nodup)
    (h : change.after node (get? name item) = some d) :
    Alters node name change item (insert name d item) := by
  refine ⟨nodup_keys_insert hnodup, ?_, ?_⟩
  · rw [get?_insert, if_pos rfl, h]
  · intro other hne
    rw [get?_insert, if_neg hne]

theorem alters_erase {node : Schema} {name : String} {item : Item} (hnodup : (keys item).Nodup) :
    Alters node name .remove item (erase name item) := by
  refine ⟨nodup_keys_erase hnodup, ?_, ?_⟩
  · rw [get?_erase_self hnodup, Change.after]
  · exact fun other hne => get?_erase_of_ne hne item

namespace Clause

variable {schema : Schema} {b : Bindings} {c : Clause} {item : Item}

/-- At the top level the form of a path is the token of its attribute. -/
theorem StandsIn.names_attribute (h : c.StandsIn schema b)
    (htop : c.action.path.isTopLevel = true) : b.Names c.name c.action.path.text := by
  have hnames := h.names
  rw [Path.segments_of_isTopLevel htop] at hnames
  obtain ⟨tokens, hname⟩ : ∃ token, c.tokens = [token] := List.length_eq_one_iff.1 hnames.length_eq
  rw [hname] at hnames
  cases hnames with
  | cons hfirst _ =>
    rw [name, hname, dotted, String.intercalate_singleton]
    exact hfirst

/-- An assignment stores what its right side comes to. -/
theorem StandsIn.assign_eq (h : c.StandsIn schema b) (htop : c.action.path.isTopLevel = true) :
    assign b item c.assignment =
      (evaluate b item (c.action.change.source c.name c.token).toList).map fun d =>
        insert c.action.path.text d item := by
  have hcut : Text.cut? " = ".toList c.assignment =
      some (c.name.toList, (c.action.change.source c.name c.token).toList) :=
    cut?_sign h.isPlain_name _
  rw [assign, hcut]
  simp only
  rw [attributeOf_of_get? (h.names_attribute htop).1]
  cases evaluate b item (c.action.change.source c.name c.token).toList <;> rfl

/-- **The right side of a clause** comes to what the change is meant to come to. The amount was
encoded by the node before, so its failure has been ruled out by the compiler and the attribute is
all that can be unsuitable. -/
theorem StandsIn.evaluate_spec (h : c.StandsIn schema b) (htop : c.action.path.isTopLevel = true)
    (hsends : c.action.change.sends = true) (item : Item) :
    (c.action.change.Suits (get? c.action.path.text item) →
      ∃ d, evaluate b item (c.action.change.source c.name c.token).toList = .ok d ∧
        c.action.change.after c.node (get? c.action.path.text item) = some d) ∧
      (¬ c.action.change.Suits (get? c.action.path.text item) →
        ∃ fault, evaluate b item (c.action.change.source c.name c.token).toList =
          .error fault) := by
  have hname := (h.names_attribute htop).1
  have hplain := h.isPlain_name
  have hvalue := h.value
  cases hchange : c.action.change with
  | set v =>
    rw [hchange] at hvalue
    obtain ⟨d, hd, hbound⟩ := hvalue _ rfl
    refine ⟨fun _ => ⟨d, ?_, ?_⟩, fun hsuits => absurd trivial hsuits⟩
    · rw [Change.source, evaluate_token c.isPlain_token c.head?_token, valueOf_of_get? hbound]
    · rw [Change.after, hd]
      rfl
  | increment amount =>
    rw [hchange] at hvalue
    obtain ⟨d, hd, hbound⟩ := hvalue _ rfl
    obtain ⟨m, y, -, rfl, hy, rfl⟩ := encodeAmount_eq_ok hd
    have htext : (Change.source c.name c.token (.increment (.number y))).toList =
        c.name.toList ++ (" + ".toList ++ c.token.toList) := by
      simp [Change.source]
    rw [htext, evaluate_sum hplain h.head?_name]
    exact calculated_spec (· + ·) hname hbound hy
  | decrement amount =>
    rw [hchange] at hvalue
    obtain ⟨d, hd, hbound⟩ := hvalue _ rfl
    obtain ⟨m, y, -, rfl, hy, rfl⟩ := encodeAmount_eq_ok hd
    have htext : (Change.source c.name c.token (.decrement (.number y))).toList =
        c.name.toList ++ (" - ".toList ++ c.token.toList) := by
      simp [Change.source]
    rw [htext, evaluate_difference hplain h.head?_name c.isPlain_token]
    exact calculated_spec (· - ·) hname hbound hy
  | append values =>
    rw [hchange] at hvalue
    obtain ⟨d, hd, hbound⟩ := hvalue _ rfl
    obtain ⟨m, element, more, -, hencode, rfl⟩ := encodeAppended_eq_ok hd
    have htext : (Change.source c.name c.token (.append values)).toList =
        "list_append(".toList ++ (c.name.toList ++ (", ".toList ++ (c.token.toList ++ [')']))) := by
      simp [Change.source]
    obtain ⟨hok, herror⟩ := @appended_spec b item c.name c.token c.action.path.text more hplain
      hname hbound
    rw [htext, evaluate_append, Change.after, hencode]
    exact ⟨fun hsuits => ⟨_, hok hsuits, rfl⟩, herror⟩
  | remove =>
    rw [hchange] at hsends
    cases hsends

/-- **One clause.** The store makes the change if it suits what the attribute holds, and does it
to that attribute alone; else it fails. Names are asked to be different in the item because an
attribute that came twice would be changed once. -/
theorem StandsIn.carryOut_spec (h : c.StandsIn schema b) (htop : c.action.path.isTopLevel = true)
    (hnodup : (keys item).Nodup) :
    (c.action.change.Suits (get? c.action.path.text item) →
      ∃ item', c.carryOut b item = .ok item' ∧
        Alters c.node c.action.path.text c.action.change item item') ∧
      (¬ c.action.change.Suits (get? c.action.path.text item) →
        ∃ fault, c.carryOut b item = .error fault) := by
  by_cases hsends : c.action.change.sends = true
  · obtain ⟨hok, herror⟩ := h.evaluate_spec htop hsends item
    rw [carryOut, if_pos hsends, h.assign_eq htop]
    constructor
    · intro hsuits
      obtain ⟨d, hd, hafter⟩ := hok hsuits
      exact ⟨_, map_eq_ok.2 ⟨d, hd, rfl⟩, alters_insert hnodup hafter⟩
    · intro hsuits
      obtain ⟨fault, hfault⟩ := herror hsuits
      exact ⟨fault, by rw [hfault]; rfl⟩
  · have hremove : c.action.change = .remove := by
      cases hchange : c.action.change with
      | remove => rfl
      | _ => exact absurd (by rw [hchange]; rfl) hsends
    have hcarry : c.carryOut b item = .ok (erase c.action.path.text item) := by
      rw [carryOut, if_neg hsends, remove, attributeOf_of_get? (h.names_attribute htop).1]
      rfl
    rw [hcarry, hremove]
    exact ⟨fun _ => ⟨_, rfl, alters_erase hnodup⟩, fun hsuits => absurd trivial hsuits⟩

end Clause

/-! ## All clauses -/

/-- **Clauses in a row.** As long as they are about different attributes, each finds its attribute
as it was at the start and leaves the others alone. That the attributes are different is used in
one place: a clause leaves the attributes of those behind it alone, so what suited at first still
suits. -/
theorem run_clauses {schema : Schema} {b : Bindings} {cs : List Clause} {item : Item}
    (hstand : ∀ c ∈ cs, c.StandsIn schema b)
    (htop : ∀ c ∈ cs, c.action.path.isTopLevel = true)
    (hpaths : (cs.map fun c => c.action.path.text).Nodup) (hnodup : (keys item).Nodup) :
    ((steps (Clause.carryOut b) item cs).1 = none ↔
        ∀ c ∈ cs, c.action.change.Suits (get? c.action.path.text item)) ∧
      ((steps (Clause.carryOut b) item cs).1 = none →
        (keys (steps (Clause.carryOut b) item cs).2).Nodup ∧
        (∀ c ∈ cs, get? c.action.path.text (steps (Clause.carryOut b) item cs).2 =
          c.action.change.after c.node (get? c.action.path.text item)) ∧
        ∀ other, (∀ c ∈ cs, c.action.path.text ≠ other) →
          get? other (steps (Clause.carryOut b) item cs).2 = get? other item) := by
  -- induction on the clauses; the item is the one that the clauses before have left
  induction cs generalizing item with
  | nil => simp [steps, hnodup]
  | cons c cs ih =>
    obtain ⟨hnew, hpaths⟩ := List.nodup_cons.1 hpaths
    have hne : ∀ c' ∈ cs, c'.action.path.text ≠ c.action.path.text :=
      fun c' hc' he => hnew (List.mem_map.2 ⟨c', hc', he⟩)
    obtain ⟨hok, herror⟩ := (hstand c List.mem_cons_self).carryOut_spec
      (htop c List.mem_cons_self) hnodup
    rw [List.forall_mem_cons, steps]
    by_cases hsuits : c.action.change.Suits (get? c.action.path.text item)
    · obtain ⟨item₁, hitem₁, halters⟩ := hok hsuits
      obtain ⟨hiff, hrest⟩ := ih (fun c' hc' => hstand c' (List.mem_cons_of_mem c hc'))
        (fun c' hc' => htop c' (List.mem_cons_of_mem c hc')) hpaths halters.nodup
      have hsame : ∀ c' ∈ cs, get? c'.action.path.text item₁ = get? c'.action.path.text item :=
        fun c' hc' => halters.others _ (hne c' hc')
      rw [hitem₁]
      simp only
      constructor
      · rw [hiff]
        constructor
        · intro hall
          refine ⟨hsuits, fun c' hc' => ?_⟩
          rw [← hsame c' hc']
          exact hall c' hc'
        · rintro ⟨-, hall⟩ c' hc'
          rw [hsame c' hc']
          exact hall c' hc'
      · intro hnone
        obtain ⟨hnodup', htargets, hothers⟩ := hrest hnone
        refine ⟨hnodup', ?_, ?_⟩
        · intro c' hc'
          rcases List.mem_cons.1 hc' with rfl | hc'
          -- the clauses after the first one do not touch its attribute
          · rw [hothers _ hne, halters.target]
          · rw [htargets c' hc', hsame c' hc']
        · intro other hother
          rw [hothers other fun c' hc' => hother c' (List.mem_cons_of_mem c hc'),
            halters.others other (Ne.symm (hother c List.mem_cons_self))]
    · obtain ⟨fault, hfault⟩ := herror hsuits
      rw [hfault]
      simp [hsuits]

/-! ## Names that end with the keyword -/

/-- A token ends with the keyword only if the name it is spelled after does. -/
theorem keyword_suffix_of_token {segment : String} {n : Nat}
    (h : keyword <:+ (tokenVariant (nameToken "" segment) n).toList) :
    keyword <:+ (Path.sanitize segment).toList := by
  cases n with
  | zero =>
    rw [tokenVariant, nameToken] at h
    by_cases hempty : Path.sanitize segment = ""
    · rw [hempty] at h
      exact absurd h (by decide)
    · have htoken : ("#" ++ (if Path.sanitize segment = "" then "_" else Path.sanitize segment) ++
          tokenTail "").toList = '#' :: (Path.sanitize segment).toList := by
        rw [if_neg hempty]
        simp [tokenTail]
      rw [htoken, List.suffix_cons_iff] at h
      rcases h with he | h
      · have hfirst : some 'R' = some '#' := congrArg List.head? he
        exact absurd hfirst (by decide)
      · exact h
  | succ n =>
    -- a number stands at the end
    obtain ⟨digits, digit, hdigits, hdigit⟩ : ∃ digits digit,
        Nat.toDigits 10 (n + 1) = digits ++ [digit] ∧ digit.isDigit = true := by
      have hne : Nat.toDigits 10 (n + 1) ≠ [] := Nat.toDigits_ne_nil
      refine ⟨_, _, (List.dropLast_append_getLast hne).symm, ?_⟩
      exact Nat.isDigit_of_mem_toDigits (by omega) (by omega) (List.getLast_mem hne)
    have htoken : (tokenVariant (nameToken "" segment) (n + 1)).toList =
        ((nameToken "" segment).toList ++ ('_' :: digits)) ++ [digit] := by
      rw [tokenVariant, String.toList_append, String.toList_append, Nat.toString_eq_repr,
        Nat.toList_repr, hdigits]
      simp
    rw [htoken] at h
    refine absurd h (not_keyword_suffix_append ?_)
    rintro rfl
    cases hdigit

/-- No field has a name that ends with the keyword once it is sanitized. It is about what the text
of a token ends with, so a field `do-REMOVE` counts as well as `REMOVE`. -/
def SparesKeyword (fields : List (String × Schema)) : Prop :=
  ∀ name ∈ keys fields, ¬ keyword <:+ (Path.sanitize name).toList

instance (fields : List (String × Schema)) : Decidable (SparesKeyword fields) :=
  inferInstanceAs (Decidable (∀ name ∈ keys fields, _))

/-- At the top level a path leads to a field. -/
theorem Schema.get?_of_resolve {m : Modifiers} {fields : List (String × Schema)} {p : Path}
    {node : Schema} (htop : p.isTopLevel = true) (h : (Schema.map m fields).resolve p = .ok node) :
    get? p.text fields = some node := by
  have hresolve : (Schema.map m fields).resolve? p = get? p.text fields := by
    rw [Schema.resolve?, Path.segments_of_isTopLevel htop]
    simp [Schema.descend?, Schema.step?]
  rw [Schema.resolve, hresolve] at h
  cases hget : get? p.text fields with
  | none =>
    rw [hget] at h
    cases h
  | some node' =>
    rw [hget] at h
    cases h
    rfl

/-! ## Updates -/

/-- What an item becomes if all actions happen at once: every attribute that an action is about
holds what the action makes of what it held, and all others hold what they held. It does not
mention clauses, tokens or an order, so it is what the application means by its list of actions. -/
structure Fulfils (schema : Schema) (actions : List Action) (item item' : Item) : Prop where
  nodup : (keys item').Nodup
  targets : ∀ action ∈ actions, ∃ node, action.Accepted schema node ∧
    get? action.path.text item' = action.change.after node (get? action.path.text item)
  others : ∀ name, (∀ action ∈ actions, action.path.text ≠ name) →
    get? name item' = get? name item

/-- The order of the actions does not matter, and neither does that of the attributes. -/
theorem Fulfils.get?_eq {schema : Schema} {actions actions' : List Action}
    {item item₁ item₂ : Item} (h : Fulfils schema actions item item₁)
    (h' : Fulfils schema actions' item item₂) (hmem : ∀ a, a ∈ actions ↔ a ∈ actions')
    (name : String) : get? name item₂ = get? name item₁ := by
  by_cases htarget : ∃ a ∈ actions, a.path.text = name
  · obtain ⟨a, ha, rfl⟩ := htarget
    obtain ⟨node, haccepted, hget⟩ := h.targets a ha
    obtain ⟨node', haccepted', hget'⟩ := h'.targets a ((hmem a).1 ha)
    rw [haccepted.node_eq haccepted'.resolve] at hget
    rw [hget, hget']
  · push Not at htarget
    rw [h.others name htarget, h'.others name fun a ha => htarget a ((hmem a).2 ha)]

namespace Clause.Write

variable {m : Modifiers} {fields : List (String × Schema)} {actions : List Action}
  {update : Compiled} {cs : List Clause}

theorem exists_clause {schema : Schema} (h : Write schema actions update cs) {action : Action}
    (haction : action ∈ actions) : ∃ c ∈ cs, c.action = action := by
  rw [← h.actions] at haction
  exact List.mem_map.1 haction

/-- No assigned form ends with the keyword if no field does. -/
theorem not_keyword_suffix (h : Write (.map m fields) actions update cs)
    (hnames : SparesKeyword fields) (htop : ∀ a ∈ actions, a.path.isTopLevel = true) :
    ∀ c ∈ assigning cs, ¬ keyword <:+ c.name.toList := by
  intro c hc
  have hmem := (List.mem_filter.1 hc).1
  have htop' := htop _ (h.action_mem hmem)
  obtain ⟨-, n, hname⟩ := (h.stand c hmem).names_attribute htop'
  have hfield := Schema.get?_of_resolve htop' (h.stand c hmem).accepted.resolve
  intro hends
  rw [hname] at hends
  exact hnames _ (mem_keys_iff.2 ⟨_, hfield⟩) (keyword_suffix_of_token hends)

/-- No two clauses are about the same attribute. -/
theorem nodup_texts {schema : Schema} (h : Write schema actions update cs)
    (hcompile : compileUpdate schema actions = .ok update) :
    (cs.map fun c => c.action.path.text).Nodup := by
  have hactions := (exists_compileUpdate_iff.1 ⟨update, hcompile⟩).2.1
  rw [← h.actions, List.map_map] at hactions
  have htexts : ((cs.map (Action.path ∘ Clause.action)).map Path.text).Nodup :=
    hactions.map Path.text_injective
  rw [List.map_map] at htexts
  exact htexts

end Clause.Write

/-- **What a compiled update does**, also with tables that were added to. The success of the store
is characterised in both directions, and what comes of it is told for success only. -/
theorem compileUpdate_fulfils {m : Modifiers} {fields : List (String × Schema)}
    {actions : List Action} {update : Compiled} {b : Bindings} {item : Item}
    (hnames : SparesKeyword fields) (htop : ∀ a ∈ actions, a.path.isTopLevel = true)
    (h : compileUpdate (.map m fields) actions = .ok update)
    (hgrows : Bindings.Grows update.bindings b) (hnodup : (keys item).Nodup) :
    ((applyUpdate b update.expression item).1 = none ↔
        ∀ a ∈ actions, a.change.Suits (get? a.path.text item)) ∧
      ((applyUpdate b update.expression item).1 = none →
        Fulfils (.map m fields) actions item (applyUpdate b update.expression item).2) := by
  obtain ⟨cs, hwrite⟩ := exists_clauses_compileUpdate h
  -- the store takes the clauses in another order, which has the same clauses
  have hperm : (assigning cs ++ removing cs).Perm cs := List.filter_append_perm _ cs
  have hmem : ∀ c, c ∈ assigning cs ++ removing cs ↔ c ∈ cs := fun c => hperm.mem_iff
  have hstand : ∀ c ∈ assigning cs ++ removing cs, c.StandsIn (.map m fields) b :=
    fun c hc => (hwrite.stand c ((hmem c).1 hc)).grows hgrows
  have haction : ∀ c ∈ assigning cs ++ removing cs, c.action ∈ actions :=
    fun c hc => hwrite.action_mem ((hmem c).1 hc)
  have hpaths : ((assigning cs ++ removing cs).map fun c => c.action.path.text).Nodup :=
    (hperm.map _).nodup_iff.2 (hwrite.nodup_texts h)
  obtain ⟨hiff, hrun⟩ := run_clauses hstand (fun c hc => htop _ (haction c hc)) hpaths hnodup
  rw [hwrite.applyUpdate_eq_steps (hwrite.not_keyword_suffix hnames htop)]
  constructor
  · rw [hiff]
    constructor
    · intro hall a ha
      obtain ⟨c, hc, rfl⟩ := hwrite.exists_clause ha
      exact hall c ((hmem c).2 hc)
    · exact fun hall c hc => hall _ (haction c hc)
  · intro hnone
    obtain ⟨hnodup', htargets, hothers⟩ := hrun hnone
    refine ⟨hnodup', ?_, ?_⟩
    · intro a ha
      obtain ⟨c, hc, rfl⟩ := hwrite.exists_clause ha
      exact ⟨c.node, (hwrite.stand c hc).accepted, htargets c ((hmem c).2 hc)⟩
    · intro name hname
      exact hothers name fun c hc => hname _ (haction c hc)

/-! ## Drafts -/

/-- A condition that compiles with some tables compiles with all tables that have no values of
its tests. -/
theorem exists_compileOptional {schema : Schema} {condition : Option Condition} {p p' : Progress}
    {r : Option String × Progress} (h : compileOptional schema condition p = .ok r)
    (hb : p.bindings.From (ValueOrigin.Before p.position))
    (hb' : p'.bindings.From (ValueOrigin.Before p'.position)) :
    ∃ r', compileOptional schema condition p' = .ok r' := by
  cases condition with
  | none => exact ⟨_, rfl⟩
  | some c =>
    obtain ⟨r₁, hcompile, -⟩ := bind_eq_ok.1 h
    have hfault : fault? (c.compile schema p') = none := by
      rw [c.fault?_compile hb', ← c.fault?_compile hb]
      exact fault?_eq_none_iff.2 ⟨r₁, hcompile⟩
    obtain ⟨r₂, hcompile'⟩ := fault?_eq_none_iff.1 hfault
    exact ⟨_, bind_eq_ok.2 ⟨r₂, hcompile', rfl⟩⟩

namespace UpdateDraft

variable {t : Table} {d : UpdateDraft} {r : UpdateRequest} {entity : Schema}

/-- A request to update has the text of its actions, and tables that were added to at most. -/
theorem build_eq_ok (hentity : t.entity d.entity = .ok entity) (h : d.build t = .ok r) :
    ∃ update, compileUpdate entity d.actions = .ok update ∧ r.update = update.expression ∧
      Bindings.Grows update.bindings r.bindings := by
  obtain ⟨entity', hentity', h⟩ := bind_eq_ok.1 h
  rw [hentity] at hentity'
  cases hentity'
  obtain ⟨key, -, h⟩ := bind_eq_ok.1 h
  obtain ⟨update, hupdate, h⟩ := bind_eq_ok.1 h
  obtain ⟨⟨text, progress⟩, hcondition, he⟩ := bind_eq_ok.1 h
  cases he
  exact ⟨update, hupdate, rfl, grows_compileOptional hcondition⟩

/-- A draft that can be built can be built with its actions in any order. -/
theorem exists_build_of_perm (h : d.build t = .ok r) {actions : List Action}
    (hperm : d.actions.Perm actions) :
    ∃ r', ({ d with actions := actions } : UpdateDraft).build t = .ok r' := by
  obtain ⟨entity, hentity, h⟩ := bind_eq_ok.1 h
  obtain ⟨key, hkey, h⟩ := bind_eq_ok.1 h
  obtain ⟨update, hupdate, h⟩ := bind_eq_ok.1 h
  obtain ⟨⟨text, progress⟩, hcondition, -⟩ := bind_eq_ok.1 h
  obtain ⟨update', hupdate'⟩ := exists_compileUpdate_of_perm hupdate hperm
  obtain ⟨r', hcondition'⟩ :
      ∃ r', compileOptional entity d.condition { position := 0, bindings := update'.bindings } =
        .ok r' :=
    exists_compileOptional hcondition ((Opening.update hupdate).from_before 0)
      ((Opening.update hupdate').from_before 0)
  exact ⟨_, bind_eq_ok.2 ⟨entity, hentity, bind_eq_ok.2 ⟨key, hkey, bind_eq_ok.2
    ⟨update', hupdate', bind_eq_ok.2 ⟨r', hcondition', rfl⟩⟩⟩⟩⟩

/-- **An update does what its actions say.** Let no field of the entity have a name that ends with
`REMOVE` once it is sanitized, and let all actions of a draft be about top-level attributes. If
the draft can be built, then a store carries it out on an item just when every number that is
calculated with is there, and nothing but a list is appended to. Every attribute then holds what
its action makes of what it held, and every other attribute is as it was. With its actions in
another order the draft can be built as well, and the store does the same. The two conditions on
the draft are each needed: a keyword in a name is taken for the start of the removals, and the
store knows no paths below the top level. The last part compares two builds and not two runs of
one build, since the order of actions also decides about numbers of tokens and about the text. -/
theorem update_means_actions {m : Modifiers} {fields : List (String × Schema)} {item : Item}
    (hentity : t.entity d.entity = .ok (.map m fields)) (hnames : SparesKeyword fields)
    (htop : ∀ a ∈ d.actions, a.path.isTopLevel = true) (hbuild : d.build t = .ok r)
    (hitem : (keys item).Nodup) :
    ((applyUpdate r.bindings r.update item).1 = none ↔
        ∀ a ∈ d.actions, a.change.Suits (get? a.path.text item)) ∧
      ((applyUpdate r.bindings r.update item).1 = none →
        Fulfils (.map m fields) d.actions item (applyUpdate r.bindings r.update item).2) ∧
      ∀ actions, d.actions.Perm actions →
        ∃ r', ({ d with actions := actions } : UpdateDraft).build t = .ok r' ∧
          ((applyUpdate r'.bindings r'.update item).1 = none ↔
            (applyUpdate r.bindings r.update item).1 = none) ∧
          ((applyUpdate r.bindings r.update item).1 = none →
            ∀ name, get? name (applyUpdate r'.bindings r'.update item).2 =
              get? name (applyUpdate r.bindings r.update item).2) := by
  obtain ⟨update, hupdate, htext, hgrows⟩ := build_eq_ok hentity hbuild
  obtain ⟨hiff, hfulfils⟩ := compileUpdate_fulfils hnames htop hupdate hgrows hitem
  rw [← htext] at hiff hfulfils
  refine ⟨hiff, hfulfils, ?_⟩
  intro actions hperm
  obtain ⟨r', hbuild'⟩ := exists_build_of_perm hbuild hperm
  obtain ⟨update', hupdate', htext', hgrows'⟩ :=
    build_eq_ok (d := { d with actions := actions }) hentity hbuild'
  obtain ⟨hiff', hfulfils'⟩ := compileUpdate_fulfils hnames
    (fun a ha => htop a (hperm.mem_iff.2 ha)) hupdate' hgrows' hitem
  rw [← htext'] at hiff' hfulfils'
  have hboth : (applyUpdate r'.bindings r'.update item).1 = none ↔
      (applyUpdate r.bindings r.update item).1 = none := by
    rw [hiff, hiff']
    exact ⟨fun hall a ha => hall a (hperm.mem_iff.1 ha),
      fun hall a ha => hall a (hperm.mem_iff.2 ha)⟩
  refine ⟨r', hbuild', hboth, ?_⟩
  intro hnone
  exact (hfulfils hnone).get?_eq (hfulfils' (hboth.2 hnone)) fun a => hperm.mem_iff

end UpdateDraft

/-- The fields of a page; two of their names are the same word. -/
def Shop.pageFields : List (String × Schema) :=
  Shop.keyFields ++
    [("visits", Shop.number), ("vis-its", Shop.number), ("title", Shop.text),
      ("log", .list Shop.mayBeMissing Shop.text), ("note", .scalar Shop.mayBeMissing .string)]

/-- A table of pages. -/
def Shop.pages : Except Error Table :=
  (TableDeclaration.mk [("pages", Shop.pageFields)] []).build.map fun schema =>
    { schema, config := Shop.config .strict }

/-- Every kind of action, and a condition whose tokens are spelled like those of the actions. -/
def Shop.pageDraft : UpdateDraft :=
  { UpdateDraft.start "pages" with
    key := some (.map [("pk", .string "p"), ("sk", .string "1")])
    actions :=
      [⟨⟨"note"⟩, .remove⟩, ⟨⟨"visits"⟩, .increment (.number 1)⟩,
        ⟨⟨"vis-its"⟩, .decrement (.number 0.5)⟩, ⟨⟨"log"⟩, .append [.string "x"]⟩,
        ⟨⟨"title"⟩, .set (.string "a = b, REMOVE c")⟩]
    condition := some (.test ⟨"vis-its"⟩ .gt (.single (.number 1))) }

/-- A page that has no log yet. -/
def Shop.page : Item :=
  [("pk", .string "p"), ("sk", .string "1"), ("visits", .number "3"), ("vis-its", .number "7"),
    ("title", .string "t"), ("note", .string "n")]

/-- The page has what is calculated with, and nothing but a list is appended to. -/
theorem Shop.page_suits :
    ∀ a ∈ Shop.pageDraft.actions, a.change.Suits (get? a.path.text Shop.page) := by
  simp only [Shop.pageDraft, List.forall_mem_cons]
  refine ⟨trivial, ⟨.number "3", 3, rfl, ?_⟩, ⟨.number "7", 7, rfl, ?_⟩, .inl rfl, trivial, ?_⟩
  · decide +kernel
  · decide +kernel
  · simp

/-- Two attributes with one word, a value that is written like a part of the expression, and the
list that was not there: all actions come out as they are meant. -/
theorem Shop.page_updated : ∃ t r, Shop.pages = .ok t ∧ Shop.pageDraft.build t = .ok r ∧
    r.update = "SET #visits = #visits + :visits_u1, #visits_1 = #visits_1 - :visits_u2, " ++
      "#log = list_append(#log, :log_u3), #title = :title_u4 REMOVE #note" ∧
    (applyUpdate r.bindings r.update Shop.page).1 = none ∧
    Fulfils (.map .none Shop.pageFields) Shop.pageDraft.actions Shop.page
      (applyUpdate r.bindings r.update Shop.page).2 ∧
    get? "visits" (applyUpdate r.bindings r.update Shop.page).2 = some (.number "4") ∧
    get? "vis-its" (applyUpdate r.bindings r.update Shop.page).2 = some (.number "6.5") ∧
    get? "note" (applyUpdate r.bindings r.update Shop.page).2 = none := by
  have hrun : ((Shop.pages >>= fun t => Shop.pageDraft.build t).toOption.map
      UpdateRequest.update) =
      some ("SET #visits = #visits + :visits_u1, #visits_1 = #visits_1 - :visits_u2, " ++
        "#log = list_append(#log, :log_u3), #title = :title_u4 REMOVE #note") := by
    decide +kernel
  obtain ⟨r, hbuild, htext⟩ := exists_ok_of_toOption_map hrun
  obtain ⟨t, ht, hr⟩ := bind_eq_ok.1 hbuild
  have hentity : t.entity "pages" = .ok (.map .none Shop.pageFields) := by
    obtain ⟨schema, hschema, rfl⟩ := map_eq_ok.1 ht
    cases hschema
    rfl
  have hpage : (keys Shop.page).Nodup := by decide
  obtain ⟨hiff, hfulfils, -⟩ := UpdateDraft.update_means_actions hentity
    (by decide +kernel) (by decide) hr hpage
  have hnone : (applyUpdate r.bindings r.update Shop.page).1 = none := hiff.2 Shop.page_suits
  have hall := hfulfils hnone
  obtain ⟨_, _, hvisits⟩ := hall.targets ⟨⟨"visits"⟩, .increment (.number 1)⟩
    (by simp [Shop.pageDraft])
  obtain ⟨_, _, hits⟩ := hall.targets ⟨⟨"vis-its"⟩, .decrement (.number 0.5)⟩
    (by simp [Shop.pageDraft])
  obtain ⟨_, _, hnote⟩ := hall.targets ⟨⟨"note"⟩, .remove⟩ (by simp [Shop.pageDraft])
  refine ⟨t, r, ht, hr, htext, hnone, hall, ?_, ?_, hnote⟩
  · rw [hvisits]
    have hsum : Decimal.plain ((3 : Float) + 1) = "4" := by decide +kernel
    have hbase : numberOf? (.number "3") = some (3 : Float) := by decide +kernel
    simp [Change.after, Change.calculate, Change.calculation, Shop.page, get?, hbase,
      Value.number?, hsum]
  · rw [hits]
    have hdifference : Decimal.plain ((7 : Float) - 0.5) = "6.5" := by decide +kernel
    have hbase : numberOf? (.number "7") = some (7 : Float) := by decide +kernel
    simp [Change.after, Change.calculate, Change.calculation, Shop.page, get?, hbase,
      Value.number?, hdifference]

end ItemStore
