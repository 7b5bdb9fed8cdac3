import ItemStore.Proofs.Descriptor.WireOrder
import ItemStore.Proofs.Draft.KeyPaths
import ItemStore.Proofs.Expression.Comparison
import ItemStore.Proofs.Expression.History
import ItemStore.Proofs.Expression.Merging
import ItemStore.Proofs.Memory.Filing

/-
What a query lists.

A store is not told which partition a query is about. It takes the tokens that stand for the
partition key, looks for each of them in the text of the key condition and reads the value that is
compared with it. A projection may bring further tokens for the same attribute, but these are not in
the text, so the partition is the one that the draft has named (`Memory.partitionOf?_build`).

Then the items of the partition are listed in the order in which they are kept, and that is the
order of the wire texts of their sort keys. It is the order of the sort keys themselves exactly
where the wire texts of those that are stored are in this order (`Items.Lists.lt_iff`), and for two
sort keys one of which goes on with a blank they are not.

The partition is found by `partition_value`, and limits are kept by `page`.
-/
set_option autoImplicit false

namespace ItemStore

open Entries Memory

/-! ## The tables of a query -/

theorem ascending_projectPaths {schema : Schema} {paths : List Path} {written parts : List String}
    {b b' : Bindings} (h : projectPaths schema written paths b = .ok (parts, b'))
    (hb : Ascending b.names) : Ascending b'.names := by
  induction paths generalizing written b with
  | nil =>
    cases h
    exact hb
  | cons p paths ih =>
    obtain ⟨node, -, h⟩ := bind_eq_ok.1 h
    exact ih h (Bindings.ascending_bindSegments _ hb)

theorem ascending_compileSelection {schema : Schema} {paths : List Path} {text : Option String}
    {b b' : Bindings} (h : compileSelection schema paths b = .ok (text, b'))
    (hb : Ascending b.names) : Ascending b'.names := by
  rcases compileSelection_eq_ok h with ⟨-, rfl⟩ | ⟨written, -, hp⟩
  · exact hb
  · obtain ⟨⟨parts, b₁⟩, hparts, he⟩ := bind_eq_ok.1 hp
    cases he
    exact ascending_projectPaths hparts hb

theorem sorted_compileOptional {schema : Schema} {condition : Option Condition}
    {progress progress' : Progress} {text : Option String}
    (h : compileOptional schema condition progress = .ok (text, progress'))
    (hb : progress.bindings.Sorted) : progress'.bindings.Sorted := by
  rcases compileOptional_eq_ok h with ⟨-, rfl⟩ | ⟨c, written, -, hc⟩
  · exact hb
  · obtain ⟨texts, hleaves, -⟩ := c.compile_eq_ok hc
    exact sorted_compileLeaves hleaves hb

/-- A query has the text of its key condition, and tables that were added to at most. -/
theorem QueryDraft.build_eq_ok {t : Table} {d : QueryDraft} {r : QueryRequest} {c : Condition}
    (hc : d.keyCondition = some c) (h : d.build t = .ok r) :
    ∃ schema p, t.combined d.index = .ok schema ∧ checkQueryPaths schema c d.filter = .ok () ∧
      c.compile schema .start = .ok (r.keyCondition, p) ∧ Bindings.Grows p.bindings r.bindings ∧
      Ascending r.bindings.names ∧ r.limit = d.limit ∧ r.forward = d.forward := by
  rw [build] at h
  obtain ⟨schema, hschema, h⟩ := bind_eq_ok.1 h
  rw [hc] at h
  obtain ⟨⟨⟩, hcheck, h⟩ := bind_eq_ok.1 h
  obtain ⟨⟨key, p⟩, hkey, h⟩ := bind_eq_ok.1 h
  obtain ⟨⟨filter, p₁⟩, hfilter, h⟩ := bind_eq_ok.1 h
  obtain ⟨⟨projection, b⟩, hselection, he⟩ := bind_eq_ok.1 h
  cases he
  obtain ⟨texts, hleaves, -⟩ := c.compile_eq_ok hkey
  have hsorted := sorted_compileOptional hfilter
    (sorted_compileLeaves hleaves Bindings.sorted_empty)
  exact ⟨schema, p, hschema, hcheck, hkey,
    (grows_compileOptional hfilter).trans (grows_compileSelection hselection),
    ascending_compileSelection hselection hsorted.names, rfl, rfl⟩

/-! ## The partition of a query -/

namespace Memory

variable {r : QueryRequest} {c : Comparison} {d : Descriptor}

/-- The partition key is named in one place of the text, and every token for it leads there or
nowhere. -/
theorem partitionOf?_eq (htext : r.keyCondition.toList = c.text)
    (h : c.SinglesOut r.bindings partitionName d) (hnames : Ascending r.bindings.names)
    (htokens : ∀ token ∈ keys r.bindings.names, IsToken '#' token) :
    partitionOf? r = some d := by
  have hown : comparedWith? r.keyCondition r.bindings.values c.name = some d := by
    rw [comparedWith?, htext, h.cut?_eq]
    dsimp only
    rw [h.takeWhile_eq, String.ofList_toList, h.get?_value]
  have hother : ∀ token, get? token r.bindings.names = some partitionName → token ≠ c.name →
      comparedWith? r.keyCondition r.bindings.values token = none := by
    intro token htoken hne
    have hcut : Text.cut? (token ++ " = ").toList r.keyCondition.toList = none := by
      rw [htext, Text.cut?_eq_none_iff]
      intro hinside
      exact h.notMem htoken hne
        (mem_occurrences_of_inside (htokens token (mem_keys_iff.2 ⟨_, htoken⟩)) hinside)
    rw [comparedWith?, hcut]
  obtain ⟨before, after, hsplit⟩ := List.append_of_mem (mem_of_get? h.get?_name)
  rw [partitionOf?, List.findSome?_eq_some_iff]
  refine ⟨before, (c.name, partitionName), after, hsplit, ?_, ?_⟩
  · dsimp only
    rw [if_pos rfl, hown]
  · rintro ⟨token, name⟩ hmem
    dsimp only
    have hbound : get? token r.bindings.names = some name :=
      get?_of_mem hnames.nodup (hsplit ▸ List.mem_append_left _ hmem)
    by_cases hname : name = partitionName
    · subst hname
      rw [if_pos rfl]
      refine hother token hbound ?_
      -- the own token stands behind, and it does not come twice
      rintro rfl
      have hnodup := hnames.nodup
      rw [hsplit, keys, List.map_append, List.nodup_append] at hnodup
      exact hnodup.2.2 _ (List.mem_map_of_mem hmem) _ List.mem_cons_self rfl
    · rw [if_neg hname]

end Memory

/-- **The partition.** A store reads from a query the value that the key condition of the draft
compares the partition key with, in encoded form, whatever filter and projection there are. The
draft is any with a key condition that fixes the partition key. What `Condition.Fixes` leaves open
is what else the condition says. -/
theorem Memory.partitionOf?_build {t : Table} {d : QueryDraft} {r : QueryRequest} {c : Condition}
    {v : Value} (hc : d.keyCondition = some c) (hfixes : c.Fixes partitionName v)
    (h : d.build t = .ok r) :
    ∃ schema node partition, t.combined d.index = .ok schema ∧
      schema.resolve ⟨partitionName⟩ = .ok node ∧ node.encode v = .ok partition ∧
      partitionOf? r = some partition := by
  obtain ⟨schema, p, hschema, -, hcompile, hgrows, hnames, -, -⟩ := d.build_eq_ok hc h
  obtain ⟨node, partition, hnode, hencode, cmp, htext, hsingle⟩ :=
    hfixes.exists_singlesOut (by decide) hcompile (Bindings.from_empty _)
  refine ⟨schema, node, partition, hschema, hnode, hencode, ?_⟩
  refine partitionOf?_eq htext (hsingle.grows hgrows) hnames ?_
  intro token htoken
  obtain ⟨text, -, hfound⟩ := List.mem_flatMap.1 ((d.balanced_build h).names token |>.2 htoken)
  exact isToken_of_mem_tokensOf hfound

/-! ## Pages -/

namespace Memory

/-- A response that shows a list up to a limit and says where to go on. This is `page`. Where to
go on is said by the last item that was shown and only if there was more to show. -/
structure Pages (listed : List Item) (limit : Option Nat) (response : Response) : Prop where
  all : limit = none → response.items = listed
  first : ∀ n, limit = some n → response.items = listed.take n
  count : response.count = count? response.items.length
  /-- Something was cut off, and something is shown. -/
  isSome_lastKey : response.lastKey.isSome ↔ ∃ n, limit = some n ∧ 1 ≤ n ∧ n < listed.length
  lastKey : ∀ item, response.lastKey = some item → response.items.getLast? = some item

theorem pages_page (listed : List Item) (limit : Option Nat) :
    Pages listed limit (page listed limit) := by
  refine ⟨?_, ?_, rfl, ?_, ?_⟩
  · rintro rfl
    exact List.take_length
  · rintro n rfl
    rfl
  · cases limit with
    | none => simp [page]
    | some n =>
      have hshown : (listed.take n).length < listed.length ↔ n < listed.length := by
        rw [List.length_take]
        omega
      simp only [page, Option.getD_some, hshown]
      by_cases hcut : n < listed.length
      · rw [if_pos hcut, List.getLast?_isSome, Ne, List.take_eq_nil_iff]
        constructor
        · intro hne
          exact ⟨n, rfl, Nat.one_le_iff_ne_zero.2 fun hn => hne (.inl hn), hcut⟩
        · rintro ⟨_, he, hle, -⟩ (hn | hnil)
          · cases he
            omega
          · rw [hnil] at hcut
            exact absurd hcut (Nat.not_lt_zero n)
      · rw [if_neg hcut]
        constructor
        · intro hnone
          cases hnone
        · rintro ⟨_, he, -, hlt⟩
          cases he
          exact absurd hlt hcut
  · intro item hitem
    simp only [page] at hitem ⊢
    split at hitem
    · exact hitem
    · cases hitem

end Memory

/-! ## The items of a partition -/

/-- An item has one sort key. -/
theorem Item.HasTexts.sort_eq {item : Item} {partition sort sort' : String}
    (h : item.HasTexts partition sort) (h' : item.HasTexts partition sort') : sort = sort' := by
  have hsort := h.2
  rw [h'.2] at hsort
  cases hsort
  rfl

namespace Memory

theorem isIn_string {partition : String} {item : Item} :
    isIn (.string partition) item = true ↔ get? partitionName item = some (.string partition) := by
  rw [isIn]
  cases get? partitionName item with
  | none => simp
  | some d => cases d <;> simp [Descriptor.same]

/-- The order of sort keys by their wire texts. It is a relation between sort keys and not between
entries, so that it can be compared with the order of strings. -/
def WireBefore (sort sort' : String) : Prop :=
  (Descriptor.string sort).wire < (Descriptor.string sort').wire

namespace Items

variable {items : Items} {partition : String}

/-- There is an item with the two strings. Only the two strings matter for the order, not what
else an item has. -/
def Has (items : Items) (partition sort : String) : Prop :=
  ∃ item ∈ items.map Prod.snd, item.HasTexts partition sort

/-- The list has the stored items of a partition, each once and in an order of their sort keys.
The order is a parameter, because the same list is looked at by two of them. -/
structure Lists (items : Items) (partition : String) (before : String → String → Prop)
    (listed : List Item) : Prop where
  mem_iff : ∀ item, item ∈ listed ↔
    item ∈ items.map Prod.snd ∧ get? partitionName item = some (.string partition)
  nodup : listed.Nodup
  texts : ∀ item ∈ listed, ∃ sort, item.HasTexts partition sort
  ordered : listed.Pairwise fun a b => ∀ sort sort', a.HasTexts partition sort →
    b.HasTexts partition sort' → before sort sort'

/-- The wire texts of the sort keys in a partition are in the order of the sort keys. It is about
the sort keys that are there, since two orders that differ somewhere may still agree on these. -/
def OrderedAlike (items : Items) (partition : String) : Prop :=
  ∀ sort sort', items.Has partition sort → items.Has partition sort' → sort < sort' →
    WireBefore sort sort'

theorem orderedAlike_of_forall (h : ∀ sort, items.Has partition sort → ∀ c ∈ sort.toList, '"' < c) :
    items.OrderedAlike partition :=
  fun _ _ hsort hsort' hlt => Descriptor.wire_lt_wire (h _ hsort) (h _ hsort') hlt

/-- **What is filed is listed by wire texts.** That items are filed is enough for it; how they
came to be there does not matter. -/
theorem Filed.lists (h : items.Filed) (partition : String) :
    items.Lists partition WireBefore
      ((items.map Prod.snd).filter (isIn (.string partition))) := by
  have htexts : ∀ entry ∈ items, ∀ sort, entry.2.HasTexts partition sort →
      entry.1 = .ofTexts partition sort := by
    intro entry hentry sort hsort
    obtain ⟨partition', sort', htexts', hkey⟩ := h.own entry hentry
    have hsame := StorageKey.ofItem_of_hasTexts hsort
    rw [StorageKey.ofItem_of_hasTexts htexts'] at hsame
    rw [hkey]
    exact Except.ok.inj hsame
  refine ⟨?_, ?_, ?_, ?_⟩
  · intro item
    rw [List.mem_filter, isIn_string]
  · refine (List.Pairwise.imp_of_mem ?_ h.apart).filter _
    rintro a b ha - hne rfl
    obtain ⟨entry, hentry, rfl⟩ := List.mem_map.1 ha
    obtain ⟨partition', sort', htexts', -⟩ := h.own entry hentry
    exact hne ⟨partition', sort', htexts', htexts'⟩
  · intro item hitem
    obtain ⟨hmem, hin⟩ := List.mem_filter.1 hitem
    obtain ⟨entry, hentry, rfl⟩ := List.mem_map.1 hmem
    obtain ⟨partition', sort', htexts', -⟩ := h.own entry hentry
    have hpartition := htexts'.1
    rw [isIn_string.1 hin] at hpartition
    cases hpartition
    exact ⟨sort', htexts'⟩
  · refine List.Pairwise.filter _ (List.pairwise_map.2 ?_)
    have hkeys : items.Pairwise fun a b => a.1 < b.1 := List.pairwise_map.1 h.ascending
    refine hkeys.imp_of_mem ?_
    intro a b ha hb hlt sort sort' hsort hsort'
    rw [htexts a ha sort hsort, htexts b hb sort' hsort'] at hlt
    rcases StorageKey.lt_iff.1 hlt with hpartition | ⟨-, hbefore⟩
    · exact absurd hpartition (lt_irrefl _)
    · exact hbefore

/-- **What is listed by wire texts** is in the order of the sort keys exactly where the two orders
agree. One list cannot be in two orders that disagree on two of its members, which is the
direction from left to right. -/
theorem Lists.lt_iff {listed : List Item} (h : items.Lists partition WireBefore listed) :
    items.Lists partition (· < ·) listed ↔ items.OrderedAlike partition := by
  have hmem : ∀ sort, items.Has partition sort ↔ ∃ item ∈ listed, item.HasTexts partition sort := by
    intro sort
    constructor
    · rintro ⟨item, hitem, htexts⟩
      exact ⟨item, (h.mem_iff item).2 ⟨hitem, htexts.1⟩, htexts⟩
    · rintro ⟨item, hitem, htexts⟩
      exact ⟨item, ((h.mem_iff item).1 hitem).1, htexts⟩
  constructor
  · intro hlt
    -- what comes earlier in the list comes earlier in both orders
    have hagree : ∀ ⦃a⦄, a ∈ listed → ∀ ⦃b⦄, b ∈ listed → ∀ sort sort',
        a.HasTexts partition sort → b.HasTexts partition sort' → sort < sort' →
          WireBefore sort sort' := by
      apply List.Pairwise.forall_of_forall_of_flip (R := fun (a b : Item) => ∀ sort sort',
        a.HasTexts partition sort → b.HasTexts partition sort' → sort < sort' →
          WireBefore sort sort')
      · intro item _ sort sort' htexts htexts' hbefore
        exact absurd (htexts.sort_eq htexts' ▸ hbefore) (lt_irrefl _)
      · exact h.ordered.imp fun hwire sort sort' hsort hsort' _ => hwire sort sort' hsort hsort'
      · refine hlt.ordered.imp ?_
        intro a b hab sort sort' hsort hsort' hbefore
        exact absurd (hab sort' sort hsort' hsort) (lt_asymm hbefore)
    intro sort sort' hsort hsort' hbefore
    obtain ⟨a, ha, hatexts⟩ := (hmem sort).1 hsort
    obtain ⟨b, hb, hbtexts⟩ := (hmem sort').1 hsort'
    exact hagree ha hb sort sort' hatexts hbtexts hbefore
  · intro halike
    refine ⟨h.mem_iff, h.nodup, h.texts, h.ordered.imp_of_mem ?_⟩
    intro a b ha hb hbefore sort sort' hatexts hbtexts
    have hwire : WireBefore sort sort' := hbefore sort sort' hatexts hbtexts
    by_contra hnot
    rcases lt_or_eq_of_le (not_lt.1 hnot) with hgt | rfl
    · have hback := halike sort' sort ((hmem sort').2 ⟨b, hb, hbtexts⟩)
        ((hmem sort).2 ⟨a, ha, hatexts⟩) hgt
      exact lt_asymm hwire hback
    · exact lt_irrefl _ hwire

end Items

end Memory

/-! ## The shop -/

namespace Shop

/-- Wherever a key condition may be about the partition key, that is a string. -/
theorem IsTable.resolve_partition {t : Table} (ht : IsTable t) {index : Option String}
    {schema : Schema} (hschema : t.combined index = .ok schema) {c : Condition}
    {filter : Option Condition} (hcheck : checkQueryPaths schema c filter = .ok ())
    (hpath : ⟨partitionName⟩ ∈ c.paths) :
    schema.resolve ⟨partitionName⟩ = .ok (.partitionKey .none text) := by
  obtain ⟨names, hnames, hkeys, -⟩ := checkQueryPaths_eq_ok.1 hcheck
  have hkey := hkeys _ hpath
  cases index with
  | none =>
    have hcombined : schema = t.schema.combined := (Except.ok.inj hschema).symm
    rw [hcombined, ht.schema_eq]
    rfl
  | some name =>
    obtain ⟨i, hindex, rfl⟩ := map_eq_ok.1 hschema
    rw [ht.schema_eq, TableSchema.index] at hindex
    split at hindex
    · next found hfound =>
      cases hindex
      -- in the only index there is, users are found by their email
      obtain he := List.mem_singleton.1 (mem_of_get? hfound)
      cases he
      cases hnames
      exact absurd hkey (by decide)
    · cases hindex

/-- **What a query lists.** Let any drafts be executed by a store that is empty at first, and then
a query whose key condition says what the partition key is, alone or together with conditions on
the sort key. The query is answered. Its answer is a page of the items that are stored in the
partition, each once and in the order of the wire texts of their sort keys, or in the reverse
order if that is asked for. This is the order of the sort keys themselves exactly where the wire
texts are ordered like them, as they are where no sort key has a character up to the quote. The
value of the partition key is shown to be a string and not asked to be one, as no other value
passes the key field. The list, its pages and its order are separate parts, because only the last
one depends on the characters in sort keys; there an equivalence is stated first, and then a
condition that is easy to check. -/
theorem query_lists_partition {steps : List (Table × Draft)}
    (hsteps : ∀ step ∈ steps, IsTable step.1) {t : Table} (ht : IsTable t) {d : QueryDraft}
    {r : QueryRequest} (hbuild : d.build t = .ok r) {c : Condition} {v : Value}
    (hcondition : d.keyCondition = some c) (hfixes : c.Fixes "pk" v) :
    ∃ partition listed response, v = .string partition ∧
      ((Draft.query d).execute t Store.transport (Store.empty.after steps)).1 = .ok response ∧
      Pages (if d.forward = some false then listed.reverse else listed) d.limit response ∧
      (Store.empty.after steps).items.Lists partition WireBefore listed ∧
      ((Store.empty.after steps).items.Lists partition (· < ·) listed ↔
        (Store.empty.after steps).items.OrderedAlike partition) ∧
      ((∀ sort, (Store.empty.after steps).items.Has partition sort → ∀ x ∈ sort.toList, '"' < x) →
        (Store.empty.after steps).items.Lists partition (· < ·) listed) := by
  have hfiled : (Store.empty.after steps).items.Filed :=
    Store.filed_after (fun step hstep => (hsteps step hstep).filedByTexts) Items.filed_nil
  obtain ⟨schema, p, hschema, hcheck, -, -, -, hlimit, hforward⟩ := d.build_eq_ok hcondition hbuild
  obtain ⟨schema', node, d', hschema', hnode, hencode, hpartition⟩ :=
    partitionOf?_build hcondition hfixes hbuild
  rw [hschema] at hschema'
  cases hschema'
  rw [ht.resolve_partition hschema hcheck hfixes.mem_paths] at hnode
  cases hnode
  obtain ⟨partition, rfl, rfl⟩ := Schema.eq_string_of_encode (.inl rfl) hencode
  have hlists := hfiled.lists partition
  refine ⟨partition, _, _, rfl, ?_, pages_page _ _, hlists, hlists.lt_iff,
    fun hplain => hlists.lt_iff.2 (Items.orderedAlike_of_forall hplain)⟩
  have hquery : (Draft.query d).build t = .ok (.query r) := map_eq_ok.2 ⟨r, hbuild, rfl⟩
  rw [Draft.execute_of_build_eq_ok hquery, ← hlimit, ← hforward]
  refine mapError_eq_ok.2 (mapError_eq_ok.2 ?_)
  show query (Store.empty.after steps).items r = _
  rw [query, hpartition]

/-- What a list of items has for sort keys. -/
def sortKeys (listed : List Item) : List (Option String) :=
  listed.map fun item => (get? sortName item).bind Descriptor.string?

/-- Puts of orders of one customer, with these sort keys. -/
def ordersWith (sorts : List String) : List (Table × Draft) :=
  sorts.map fun sort =>
    (tableIn .strict,
      .put
        { PutDraft.start "orders" with
          item := some (.map [("pk", .string "ada"), ("sk", .string sort), ("total", .number 5),
            ("items", .list [])]) })

theorem isTable_tableIn (mode : DecodeMode) : IsTable (tableIn mode) := ⟨mode, rfl⟩

theorem isTable_of_mem_ordersWith (sorts : List String) :
    ∀ step ∈ ordersWith sorts, IsTable step.1 :=
  List.forall_mem_map.2 fun _ _ => isTable_tableIn .strict

/-- The orders of the customer. -/
def ofAda : QueryDraft :=
  { QueryDraft.start with
    keyCondition := some (.test ⟨"pk"⟩ .eq (.single (.string "ada"))) }

/-- The last of the orders whose sort keys are not too small, with some of its attributes. -/
def lastOfAda : QueryDraft :=
  { QueryDraft.start with
    keyCondition := some (.group .and
      [.test ⟨"sk"⟩ .ge (.single (.string "a")), .test ⟨"pk"⟩ .eq (.single (.string "ada"))])
    projection := [⟨"pk"⟩, ⟨"total"⟩]
    limit := some 1
    forward := some false }

/-- Three orders that were not put in order, read from the end: one is shown, and it is said that
there are more. The partition key has two tokens. -/
theorem lastOfAda_lists_partition : ∃ r listed response,
    lastOfAda.build (tableIn .strict) = .ok r ∧
      keys r.bindings.names = ["#pk", "#pk_1", "#sk_0", "#total"] ∧
      ((Draft.query lastOfAda).execute (tableIn .strict) Store.transport
        (Store.empty.after (ordersWith ["b#2", "c", "a#1"]))).1 = .ok response ∧
      (Store.empty.after (ordersWith ["b#2", "c", "a#1"])).items.Lists "ada" (· < ·) listed ∧
      Pages listed.reverse (some 1) response ∧ sortKeys response.items = [some "c"] ∧
      response.count = some 1 ∧ response.lastKey.isSome = true := by
  have hbuild : ((lastOfAda.build (tableIn .strict)).toOption.map fun r => keys r.bindings.names) =
      some ["#pk", "#pk_1", "#sk_0", "#total"] := by
    decide +kernel
  have hrun : (((Draft.query lastOfAda).execute (tableIn .strict) Store.transport
      (Store.empty.after (ordersWith ["b#2", "c", "a#1"]))).1.toOption.map fun response =>
        (sortKeys response.items, response.count, response.lastKey.isSome)) =
      some ([some "c"], some 1, true) := by
    decide +kernel
  have hstored :
      sortKeys ((Store.empty.after (ordersWith ["b#2", "c", "a#1"])).items.map Prod.snd) =
        [some "a#1", some "b#2", some "c"] := by
    decide +kernel
  obtain ⟨r, hr, hnames⟩ := exists_ok_of_toOption_map hbuild
  have hfixes : Condition.Fixes "pk" (.string "ada") (.group .and
      ([.test ⟨"sk"⟩ .ge (.single (.string "a"))] ++
        [.test ⟨"pk"⟩ .eq (.single (.string "ada"))])) :=
    .and (List.forall_mem_singleton.2 (by decide)) .test (fun _ h => absurd h List.not_mem_nil)
  obtain ⟨partition, listed, response, hpartition, hresponse, hpages, -, -, hplain⟩ :=
    query_lists_partition (isTable_of_mem_ordersWith ["b#2", "c", "a#1"])
      (isTable_tableIn .strict) hr rfl hfixes
  cases hpartition
  obtain ⟨response', hresponse', hseen⟩ := exists_ok_of_toOption_map hrun
  rw [hresponse] at hresponse'
  cases hresponse'
  obtain ⟨hshown, hcount, hlast⟩ : sortKeys response.items = [some "c"] ∧
      response.count = some 1 ∧ response.lastKey.isSome = true := by
    simpa using hseen
  refine ⟨r, listed, response, hr, hnames, hresponse, hplain ?_, hpages, hshown, hcount, hlast⟩
  rintro sort ⟨item, hitem, htexts⟩
  have hsort : some sort ∈
      sortKeys ((Store.empty.after (ordersWith ["b#2", "c", "a#1"])).items.map Prod.snd) := by
    refine List.mem_map.2 ⟨item, hitem, ?_⟩
    rw [htexts.2]
    rfl
  rw [hstored] at hsort
  simp only [List.mem_cons, Option.some.injEq, List.not_mem_nil, or_false] at hsort
  rcases hsort with rfl | rfl | rfl <;> simp

/-- The longer sort key is the larger one, and its item is listed first. -/
theorem longer_is_listed_first :
    (∀ step ∈ ordersWith ["a", "a b"], IsTable step.1) ∧
      Condition.Fixes "pk" (.string "ada") (.test ⟨"pk"⟩ .eq (.single (.string "ada"))) ∧
      (∃ r, ofAda.build (tableIn .strict) = .ok r) ∧ "a" < "a b" ∧
      ∃ response, ((Draft.query ofAda).execute (tableIn .strict) Store.transport
        (Store.empty.after (ordersWith ["a", "a b"]))).1 = .ok response ∧
        sortKeys response.items = [some "a b", some "a"] := by
  have hbuild : ((ofAda.build (tableIn .strict)).toOption.map fun _ => ()) = some () := by
    decide +kernel
  have hrun : (((Draft.query ofAda).execute (tableIn .strict) Store.transport
      (Store.empty.after (ordersWith ["a", "a b"]))).1.toOption.map fun response =>
        sortKeys response.items) = some [some "a b", some "a"] := by
    decide +kernel
  obtain ⟨r, hr, -⟩ := exists_ok_of_toOption_map hbuild
  obtain ⟨response, hresponse, hshown⟩ := exists_ok_of_toOption_map hrun
  exact ⟨isTable_of_mem_ordersWith _, .test, ⟨r, hr⟩, by decide, response, hresponse, hshown⟩

end Shop

end ItemStore
