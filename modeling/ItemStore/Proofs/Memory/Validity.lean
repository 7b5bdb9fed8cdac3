import ItemStore.Proofs.Memory.Meaning
import ItemStore.Proofs.Schema.Holding

/-
Updates keep items valid.

An update is checked against the schema alone: the compiler never sees the item. That is enough
because every kind of action is refused wherever it could leave something behind that its node
does not admit. What is assigned was encoded by the node, what is calculated goes where a number
belongs, what is appended was encoded as a list of the node's elements, what is removed may be
missing. So it is enough to look at one attribute at a time (`admits_after`), and each is looked at
at most once, as no two actions have the same path.

Two things the compiler cannot promise. A result of arithmetic may be infinite, and no number is
stored for that. And an attribute that is null, because its node allows null, is neither calculated
with nor appended to; there the store fails and the item need not be looked at.
-/
set_option autoImplicit false

namespace ItemStore

open Entries Memory

/-! ## One attribute -/

/-- Only optional attributes of an item are removed. -/
theorem isOptional_of_checkRemovable {m : Modifiers} {fields : List (String × Schema)} {p : Path}
    {node : Schema} (htop : p.isTopLevel = true)
    (h : checkRemovable (.map m fields) p node = .ok ()) : node.isOptional = true := by
  have hparent : p.parent? = none := by
    rw [Path.parent?, Path.segments_of_isTopLevel htop]
    rfl
  rw [checkRemovable, hparent] at h
  by_contra hoptional
  rw [Bool.not_eq_true] at hoptional
  have hcheck : (Schema.map m fields).fields?.isSome ∧ node.isOptional = false := ⟨rfl, hoptional⟩
  simp only [bind, Except.bind] at h
  rw [if_pos hcheck] at h
  cases h

/-- A finite number is what a node for numbers makes of it. -/
theorem admits_number {m : Modifiers} {x : Float} (hx : x.isFinite = true) :
    (Schema.scalar m .number).Admits (.number (Decimal.plain x)) := by
  apply Schema.admits_of_encode (v := .number x) rfl
  rw [Schema.encode, Schema.encodeAt_scalar rfl]
  exact map_eq_ok.2 ⟨_, encodeNumber_eq_ok.2 ⟨hx, rfl⟩, rfl⟩

/-- What a change is calculated from, if it suits what the attribute holds. -/
theorem exists_calculation {operation : Float → Float → Float} {old : Option Descriptor} {y : Float}
    (hsuits : ∃ d base, old = some d ∧ numberOf? d = some base) :
    ∃ x, Change.calculation operation old (.number y) = some x := by
  obtain ⟨d, base, rfl, hbase⟩ := hsuits
  refine ⟨operation base y, ?_⟩
  simp [Change.calculation, hbase, Value.number?]

/-- **One action.** What the node admits is turned into something that it admits. Both conditions
on the outcome are about the store: that it can make the change at all, and that what it
calculates is a number with a text. -/
theorem Action.Accepted.admits_after {m : Modifiers} {fields : List (String × Schema)}
    {action : Action} {node : Schema} {old : Option Descriptor}
    (h : action.Accepted (.map m fields) node) (htop : action.path.isTopLevel = true)
    (hnames : node.repeatedName? = none) (hold : node.AdmitsOptional old)
    (hsuits : action.change.Suits old)
    (hfinite : ∀ x, action.change.result? old = some x → x.isFinite = true) :
    node.AdmitsOptional (action.change.after node old) := by
  obtain ⟨-, -, hencode, hremovable⟩ := h
  -- a calculation at a node for numbers
  have hnumber : ∀ (operation : Float → Float → Float) (amount : Value) (d : Descriptor),
      encodeAmount action.path node amount = .ok d →
      (∃ d base, old = some d ∧ numberOf? d = some base) →
      (∀ x, Change.calculation operation old amount = some x → x.isFinite = true) →
      node.AdmitsOptional (Change.calculate operation old amount) := by
    intro operation amount d hd hsuits hfinite
    obtain ⟨m', y, rfl, rfl, -, -⟩ := encodeAmount_eq_ok hd
    obtain ⟨x, hx⟩ : ∃ x, Change.calculation operation old (.number y) = some x :=
      exists_calculation hsuits
    rw [Change.calculate, hx]
    exact admits_number (hfinite x hx)
  cases hchange : action.change with
  | set v =>
    rw [hchange] at hencode
    obtain ⟨d, hd⟩ := hencode _ rfl
    rw [Change.after, hd]
    exact Schema.admits_of_encode hnames hd
  | increment amount =>
    rw [hchange] at hencode hsuits hfinite
    obtain ⟨d, hd⟩ := hencode _ rfl
    exact hnumber (· + ·) amount d hd hsuits hfinite
  | decrement amount =>
    rw [hchange] at hencode hsuits hfinite
    obtain ⟨d, hd⟩ := hencode _ rfl
    exact hnumber (· - ·) amount d hd hsuits hfinite
  | append values =>
    rw [hchange] at hencode hsuits
    obtain ⟨d, hd⟩ := hencode _ rfl
    obtain ⟨m', element, more, rfl, hmore, rfl⟩ := encodeAppended_eq_ok hd
    rw [Change.after, hmore]
    rcases hsuits with rfl | ⟨items, rfl⟩
    -- the list starts with what is appended, or goes on with it
    · exact Schema.admits_of_encode hnames (v := .list values) hmore
    · have hitems : (Schema.list m' element).Admits (.list items) := hold
      exact Schema.admits_append (by exact hnames) hitems hmore
  | remove => exact isOptional_of_checkRemovable htop (hremovable hchange)

/-! ## The whole item -/

/-- A key attribute is no action's. -/
theorem Action.Accepted.text_ne_of_isKey {m : Modifiers} {fields : List (String × Schema)}
    {action : Action} {node key : Schema} {name : String}
    (h : action.Accepted (.map m fields) node) (htop : action.path.isTopLevel = true)
    (hkey : get? name fields = some key) (hmark : key.isKey = true) :
    action.path.text ≠ name := by
  have hne := h.root_ne_of_isKey hkey hmark
  rw [Path.root, Path.segments_of_isTopLevel htop, List.headD_cons] at hne
  exact hne

/-- **Accepted updates keep items valid.** Let no field of an entity have a name that ends with
`REMOVE` once it is sanitized. If an item belongs to the entity, actions on top-level attributes
compile, and the store carries them out without a result that is not finite, then the item that
comes of it belongs to the entity as well, and its key attributes are as they were. The conditions
are of three kinds. The schema and the item have to be as `build` and earlier writes leave them;
the update has to be one that the store reads as it was meant; and what is calculated has to be
finite, since the text of an infinite double is no number. Keys are in a part of their own,
because what is filed under them depends on it. -/
theorem Schema.holds_of_applyUpdate {m : Modifiers} {fields : List (String × Schema)}
    {actions : List Action} {update : Compiled} {item item' : Item}
    (hschema : (Schema.map m fields).validate = .ok (.map m fields)) (hnames : SparesKeyword fields)
    (hitem : (keys item).Nodup) (hholds : (Schema.map m fields).Holds item)
    (htop : ∀ a ∈ actions, a.path.isTopLevel = true)
    (hcompile : compileUpdate (.map m fields) actions = .ok update)
    (happly : applyUpdate update.bindings update.expression item = (none, item'))
    (hfinite : ∀ a ∈ actions, ∀ x, a.change.result? (get? a.path.text item) = some x →
      x.isFinite = true) :
    (Schema.map m fields).Holds item' ∧
      ∀ name key, get? name fields = some key → key.isKey = true →
        get? name item' = get? name item := by
  have hunrepeated := repeatedName?_eq_none_of_validate hschema
  obtain ⟨hnodup, -, hnodes⟩ := repeatedNameAmong?_eq_none hunrepeated
  obtain ⟨hiff, hfulfils⟩ := compileUpdate_fulfils hnames htop hcompile (.refl _) hitem
  rw [happly] at hiff hfulfils
  have hsuits := hiff.1 rfl
  obtain ⟨hnodup', htargets, hothers⟩ := hfulfils rfl
  obtain ⟨hdeclared, hadmits⟩ := (holds_iff hnodup hitem).1 hholds
  constructor
  · rw [holds_iff hnodup hnodup']
    constructor
    · intro name hname
      by_cases htarget : ∃ a ∈ actions, a.path.text = name
      · obtain ⟨a, ha, rfl⟩ := htarget
        obtain ⟨node, haccepted, -⟩ := htargets a ha
        exact mem_keys_iff.2 ⟨node, get?_of_resolve (htop a ha) haccepted.resolve⟩
      · push Not at htarget
        rw [mem_keys_iff, hothers name htarget, ← mem_keys_iff] at hname
        exact hdeclared name hname
    · intro name node hnode
      by_cases htarget : ∃ a ∈ actions, a.path.text = name
      · obtain ⟨a, ha, rfl⟩ := htarget
        obtain ⟨node', haccepted, hget⟩ := htargets a ha
        have hfield := get?_of_resolve (htop a ha) haccepted.resolve
        rw [hnode] at hfield
        cases hfield
        rw [hget]
        exact haccepted.admits_after (htop a ha) (hnodes _ (mem_of_get? hnode))
          (hadmits _ _ hnode) (hsuits a ha) (hfinite a ha)
      · push Not at htarget
        rw [hothers name htarget]
        exact hadmits name node hnode
  · intro name key hkey hmark
    apply hothers
    intro a ha
    obtain ⟨node, haccepted, -⟩ := htargets a ha
    exact haccepted.text_ne_of_isKey (htop a ha) hkey hmark

/-- The value of the page. -/
def Shop.pageValue : Value :=
  .map
    [("title", .string "t"), ("note", .string "n"), ("pk", .string "p"), ("sk", .string "1"),
      ("visits", .number 3), ("vis-its", .number 7)]

/-- All kinds of actions on the page leave a page, with a list that was not there before. -/
theorem Shop.page_stays_valid : ∃ update item',
    compileUpdate (.map .none Shop.pageFields) Shop.pageDraft.actions = .ok update ∧
    applyUpdate update.bindings update.expression Shop.page = (none, item') ∧
    get? "pk" item' = some (.string "p") ∧ get? "sk" item' = some (.string "1") ∧
    (Schema.map .none Shop.pageFields).Holds item' := by
  have hrun : ((compileUpdate (.map .none Shop.pageFields) Shop.pageDraft.actions).toOption.map
      fun _ => ()) = some () := by
    decide +kernel
  obtain ⟨update, hupdate, -⟩ := exists_ok_of_toOption_map hrun
  have hpage : (keys Shop.page).Nodup := by decide
  have hspares : SparesKeyword Shop.pageFields := by decide +kernel
  have htop : ∀ a ∈ Shop.pageDraft.actions, a.path.isTopLevel = true := by decide
  have hnone := (compileUpdate_fulfils hspares htop hupdate (.refl _) hpage).1.2 Shop.page_suits
  have happly : applyUpdate update.bindings update.expression Shop.page =
      (none, (applyUpdate update.bindings update.expression Shop.page).2) := by
    rw [← hnone]
  have hholds : (Schema.map .none Shop.pageFields).Holds Shop.page := by
    have hencode : ((Schema.map .none Shop.pageFields).encodeItem Shop.pageValue).toOption.map
        (fun stored => Item.same Shop.page stored) = some true := by
      decide +kernel
    obtain ⟨stored, hstored, hsame⟩ := exists_ok_of_toOption_map hencode
    exact ⟨Shop.pageValue, stored, hstored, hsame⟩
  have hfinite : ∀ a ∈ Shop.pageDraft.actions, ∀ x,
      a.change.result? (get? a.path.text Shop.page) = some x → x.isFinite = true := by
    have hvisits : (Change.calculation (· + ·) (some (.number "3")) (.number 1)).map
        Float.isFinite = some true := by
      decide +kernel
    have hits : (Change.calculation (· - ·) (some (.number "7")) (.number 0.5)).map
        Float.isFinite = some true := by
      decide +kernel
    have hsome : ∀ {result : Option Float}, result.map Float.isFinite = some true →
        ∀ x, result = some x → x.isFinite = true := by
      rintro result h x rfl
      exact Option.some.inj h
    have hnone : ∀ x : Float, (none : Option Float) = some x → x.isFinite = true := by
      intro x h
      cases h
    simp only [Shop.pageDraft, List.forall_mem_cons]
    exact ⟨hnone, hsome hvisits, hsome hits, hnone, hnone, by simp⟩
  obtain ⟨hvalid, hkeys⟩ :=
    Schema.holds_of_applyUpdate rfl hspares hpage hholds htop hupdate happly hfinite
  exact ⟨update, _, hupdate, happly, hkeys "pk" _ rfl rfl, hkeys "sk" _ rfl rfl, hvalid⟩

end ItemStore
