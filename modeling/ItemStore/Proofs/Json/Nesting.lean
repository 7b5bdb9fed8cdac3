import ItemStore.Proofs.Json.Reading

/-
Texts that are nested too deeply.

They are texts of a document like others, but they are not read: the scanner takes an array or an
object only while there is a level left for it. What it makes of a text that goes deeper is cut off
at the bracket for which there is none. The documents around that bracket are not whole then,
however well the rest of them is written, and so is nothing that stands around these.
-/
set_option autoImplicit false

namespace ItemStore.Json

open Document

namespace Document

/-- One of the items is as deep as all of them. -/
theorem exists_lt_depth_of_items {n : Nat} {items : List Document} (h : n < depthOfItems items) :
    ∃ d ∈ items, n < d.depth := by
  induction items with
  | nil => cases h
  | cons d items ih =>
    rw [depthOfItems] at h
    have hor : n < d.depth ∨ n < depthOfItems items := by omega
    rcases hor with hd | hitems
    · exact ⟨d, List.mem_cons_self, hd⟩
    · obtain ⟨d', hd', hdeep⟩ := ih hitems
      exact ⟨d', List.mem_cons_of_mem d hd', hdeep⟩

theorem exists_lt_depth_of_members {n : Nat} {members : List (String × Document)}
    (h : n < depthOfMembers members) : ∃ m ∈ members, n < m.2.depth := by
  induction members with
  | nil => cases h
  | cons m members ih =>
    obtain ⟨key, d⟩ := m
    rw [depthOfMembers] at h
    have hor : n < d.depth ∨ n < depthOfMembers members := by omega
    rcases hor with hd | hmembers
    · exact ⟨(key, d), List.mem_cons_self, hd⟩
    · obtain ⟨m', hm', hdeep⟩ := ih hmembers
      exact ⟨m', List.mem_cons_of_mem _ hm', hdeep⟩

end Document

/-- A scanner makes nothing whole of a text, whatever stands behind it. The scanner stands for
`scan` with a number of levels left. -/
def Breaks (scan : List Char → Document × List Char) (p : Padded) : Prop :=
  ∀ rest, Number.EndsNumber rest → (scan (p.chars ++ rest)).1.isWhole = false

/-! ## Runs with something broken in them -/

section Items

variable {scan : List Char → Document × List Char} {cs cs' rest : List Char} {d : Document}

/-- A broken item breaks the run that it begins. -/
theorem isWhole_scanItems_head (h : (scan cs).1.isWhole = false) (bound : Nat) :
    (arrayOf (scanItems scan bound cs)).1.isWhole = false := by
  cases bound with
  | zero => rfl
  | succ bound =>
    rw [scanItems]
    dsimp only
    split <;> simp [arrayOf, Document.isWhole, areWhole, h]

/-- A run is broken if it is broken behind its first item. -/
theorem isWhole_scanItems_tail (h : scan cs = (d, cs')) (hcomma : skipSpace cs' = ',' :: rest)
    {bound : Nat} (hrest : (arrayOf (scanItems scan bound rest)).1.isWhole = false) :
    (arrayOf (scanItems scan (bound + 1) cs)).1.isWhole = false := by
  rw [scanItems_next h hcomma]
  simp only [arrayOf, Document.isWhole, areWhole, Bool.and_eq_false_iff] at hrest ⊢
  tauto

/-- An item is followed by what ends a number. -/
theorem exists_itemsRun_eq (i : Document × Padded) (items : List (Document × Padded))
    (rest : List Char) :
    ∃ behind, itemsRun (i :: items) rest = i.2.chars ++ behind ∧ Number.EndsNumber behind := by
  cases items with
  | nil =>
    refine ⟨']' :: rest, ?_, endsNumber_separator (.inr (.inl rfl)) rest⟩
    rw [itemsRun, List.map_singleton, List.intercalate_singleton]
  | cons i' items =>
    exact ⟨_, itemsRun_cons i i' items rest, endsNumber_separator (.inl rfl) _⟩

/-- A run is broken if one of its items is and the others are found. -/
theorem isWhole_scanItems {items : List (Document × Padded)}
    (hscan : ∀ i ∈ items, Finds scan i.1 i.2 ∨ Breaks scan i.2)
    (hbreaks : ∃ i ∈ items, Breaks scan i.2) (bound : Nat) (rest : List Char) :
    (arrayOf (scanItems scan bound (itemsRun items rest))).1.isWhole = false := by
  induction items generalizing bound with
  | nil =>
    obtain ⟨i, hi, -⟩ := hbreaks
    cases hi
  | cons i items ih =>
    by_cases hi : Breaks scan i.2
    · obtain ⟨behind, hrun, hbehind⟩ := exists_itemsRun_eq i items rest
      rw [hrun]
      exact isWhole_scanItems_head (hi behind hbehind) bound
    · have hfinds := (hscan i List.mem_cons_self).resolve_right hi
      obtain ⟨broken, hmem, hbroken⟩ := hbreaks
      have htail : broken ∈ items := by
        rcases List.mem_cons.1 hmem with rfl | htail
        · exact absurd hbroken hi
        · exact htail
      obtain ⟨i', items, rfl⟩ := List.exists_cons_of_ne_nil (List.ne_nil_of_mem htail)
      cases bound with
      | zero => rfl
      | succ bound =>
        rw [itemsRun_cons]
        exact isWhole_scanItems_tail (hfinds _ (endsNumber_separator (.inl rfl) _))
          (i.2.skipSpace_after (by decide) _)
          (ih (fun e he => hscan e (List.mem_cons_of_mem i he)) ⟨broken, htail, hbroken⟩ bound)

/-- The blanks in front of an item may be passed over before. -/
theorem Breaks.trim (hspace : ∀ cs, scan (skipSpace cs) = scan cs) {p : Padded}
    (h : Breaks scan p) : Breaks scan p.trim := by
  intro rest hrest
  rw [scan_trim hspace]
  exact h rest hrest

/-- An array is broken if one of its items is. -/
theorem isWhole_scanArray (hspace : ∀ cs, scan (skipSpace cs) = scan cs)
    {items : List (Document × Padded)}
    (hbegins : ∀ i ∈ items, ∃ c cs, i.2.text = c :: cs ∧ isSpace c = false ∧ c ≠ ']')
    (hscan : ∀ i ∈ items, Finds scan i.1 i.2 ∨ Breaks scan i.2)
    (hbreaks : ∃ i ∈ items, Breaks scan i.2) (rest : List Char) :
    (scanArray scan (itemsRun items rest)).1.isWhole = false := by
  obtain ⟨broken, hmem, hbroken⟩ := hbreaks
  obtain ⟨i, items, rfl⟩ := List.exists_cons_of_ne_nil (List.ne_nil_of_mem hmem)
  obtain ⟨hi, hitems⟩ := List.forall_mem_cons.1 hscan
  obtain ⟨bound, -, hrun⟩ := scanArray_run (hbegins i List.mem_cons_self) items rest
  rw [hrun]
  refine isWhole_scanItems (List.forall_mem_cons.2 ⟨?_, hitems⟩) ?_ bound rest
  · exact hi.imp (Finds.trim hspace) (Breaks.trim hspace)
  · rcases List.mem_cons.1 hmem with rfl | htail
    · exact ⟨_, List.mem_cons_self, hbroken.trim hspace⟩
    · exact ⟨broken, List.mem_cons_of_mem _ htail, hbroken⟩

end Items

section Members

variable {scan : String → List Char → Document × List Char} {rest : List Char}

/-- A broken value breaks the run that its member begins. -/
theorem isWhole_scanMembers_head {m : Member} (hkey : SpellsString m.key m.keyText.text)
    {behind : List Char}
    (h : (scan m.key (m.valueText.chars ++ behind)).1.isWhole = false) (bound : Nat) :
    (objectOf (scanMembers scan bound (m.chars ++ behind))).1.isWhole = false := by
  cases bound with
  | zero => rfl
  | succ bound =>
    obtain ⟨text, hchars, htext⟩ := hkey
    have hquote : isSpace '"' = false := by decide
    have hcolon : isSpace ':' = false := by decide
    rw [Member.chars_append htext]
    simp only [scanMembers, skipSpace_append m.keyText.blank_before, skipSpace_cons hquote,
      scanString?_spelled hchars, String.ofList_toList, m.keyText.skipSpace_after hcolon]
    split <;> simp [objectOf, Document.isWhole, areWholeMembers, h]

/-- A run is broken if it is broken behind its first member. -/
theorem isWhole_scanMembers_tail {m : Member} (hkey : SpellsString m.key m.keyText.text)
    (hvalue : Finds (scan m.key) m.value m.valueText) {bound : Nat}
    (hrest : (objectOf (scanMembers scan bound rest)).1.isWhole = false) :
    (objectOf (scanMembers scan (bound + 1) (m.chars ++ ',' :: rest))).1.isWhole = false := by
  rw [scanMembers_next hkey hvalue]
  simp only [objectOf, Document.isWhole, areWholeMembers, Bool.and_eq_false_iff] at hrest ⊢
  tauto

/-- A member is followed by what ends a number. -/
theorem exists_membersRun_eq (m : Member) (members : List Member) (rest : List Char) :
    ∃ behind, membersRun (m :: members) rest = m.chars ++ behind ∧ Number.EndsNumber behind := by
  cases members with
  | nil =>
    refine ⟨'\x7d' :: rest, ?_, endsNumber_separator (.inr (.inr rfl)) rest⟩
    rw [membersRun, List.map_singleton, List.intercalate_singleton]
  | cons m' members =>
    exact ⟨_, membersRun_cons m m' members rest, endsNumber_separator (.inl rfl) _⟩

/-- A run is broken if what is under one of its keys is and the rest is found. -/
theorem isWhole_scanMembers {members : List Member}
    (hkeys : ∀ m ∈ members, SpellsString m.key m.keyText.text)
    (hscan : ∀ m ∈ members, Finds (scan m.key) m.value m.valueText ∨
      Breaks (scan m.key) m.valueText)
    (hbreaks : ∃ m ∈ members, Breaks (scan m.key) m.valueText) (bound : Nat) (rest : List Char) :
    (objectOf (scanMembers scan bound (membersRun members rest))).1.isWhole = false := by
  induction members generalizing bound with
  | nil =>
    obtain ⟨m, hm, -⟩ := hbreaks
    cases hm
  | cons m members ih =>
    have hkey := hkeys m List.mem_cons_self
    by_cases hm : Breaks (scan m.key) m.valueText
    · obtain ⟨behind, hrun, hbehind⟩ := exists_membersRun_eq m members rest
      rw [hrun]
      exact isWhole_scanMembers_head hkey (hm behind hbehind) bound
    · have hfinds := (hscan m List.mem_cons_self).resolve_right hm
      obtain ⟨broken, hmem, hbroken⟩ := hbreaks
      have htail : broken ∈ members := by
        rcases List.mem_cons.1 hmem with rfl | htail
        · exact absurd hbroken hm
        · exact htail
      obtain ⟨m', members, rfl⟩ := List.exists_cons_of_ne_nil (List.ne_nil_of_mem htail)
      cases bound with
      | zero => rfl
      | succ bound =>
        rw [membersRun_cons]
        exact isWhole_scanMembers_tail hkey hfinds
          (ih (fun e he => hkeys e (List.mem_cons_of_mem m he))
            (fun e he => hscan e (List.mem_cons_of_mem m he)) ⟨broken, htail, hbroken⟩ bound)

/-- An object is broken if what is under one of its keys is. -/
theorem isWhole_scanObject {members : List Member}
    (hkeys : ∀ m ∈ members, SpellsString m.key m.keyText.text)
    (hscan : ∀ m ∈ members, Finds (scan m.key) m.value m.valueText ∨
      Breaks (scan m.key) m.valueText)
    (hbreaks : ∃ m ∈ members, Breaks (scan m.key) m.valueText) (rest : List Char) :
    (scanObject scan (membersRun members rest)).1.isWhole = false := by
  obtain ⟨broken, hmem, hbroken⟩ := hbreaks
  obtain ⟨m, members, rfl⟩ := List.exists_cons_of_ne_nil (List.ne_nil_of_mem hmem)
  obtain ⟨hkey, hkeys⟩ := List.forall_mem_cons.1 hkeys
  obtain ⟨hm, hscan⟩ := List.forall_mem_cons.1 hscan
  obtain ⟨bound, -, hrun⟩ := scanObject_run hkey members rest
  rw [hrun]
  have hkeys' : ∀ m' ∈ m.trim :: members, SpellsString m'.key m'.keyText.text :=
    List.forall_mem_cons.2 ⟨hkey, hkeys⟩
  refine isWhole_scanMembers hkeys' (List.forall_mem_cons.2 ⟨hm, hscan⟩) ?_ bound rest
  rcases List.mem_cons.1 hmem with rfl | htail
  · exact ⟨_, List.mem_cons_self, hbroken⟩
  · exact ⟨broken, List.mem_cons_of_mem _ htail, hbroken⟩

end Members

/-! ## Values -/

/-- A text that is broken where it begins is broken behind blanks. -/
theorem breaks_of_scan {levels : Nat} {p : Padded}
    (h : ∀ rest, Number.EndsNumber rest → (scan levels (p.text ++ rest)).1.isWhole = false) :
    Breaks (scan levels) p := by
  intro rest hrest
  rw [scan_chars]
  exact h _ (endsNumber_append p.blank_after hrest)

/-- **Too deep.** A document that is deeper than there are levels is not whole when it is read.
The induction is on the document, and each bracket takes one level away. -/
theorem isWhole_scan_of_deep {d : Document} {text : List Char} (h : Spells d text) {levels : Nat}
    (hdepth : levels < d.depth) {rest : List Char} (hrest : Number.EndsNumber rest) :
    (scan levels (text ++ rest)).1.isWhole = false := by
  induction h generalizing levels rest with
  | @list items hne hitems ih =>
    cases levels with
    | zero => rfl
    | succ levels =>
      rw [Document.depth] at hdepth
      obtain ⟨d, hd, hdeep⟩ := exists_lt_depth_of_items (Nat.lt_of_succ_lt_succ hdepth)
      obtain ⟨i, hi, rfl⟩ := List.mem_map.1 hd
      rw [List.cons_append, List.append_assoc]
      refine isWhole_scanArray (scan_skipSpace levels) (fun i hi => (hitems i hi).exists_cons)
        (fun i hi => ?_) ⟨i, hi, breaks_of_scan fun rest hrest => ih i hi hdeep hrest⟩ rest
      rcases Nat.lt_or_ge levels i.1.depth with hdeep | hflat
      · exact .inr (breaks_of_scan fun rest hrest => ih i hi hdeep hrest)
      · exact .inl (finds_of_scan fun rest hrest => scan_spelled (hitems i hi) hflat hrest)
  | @record members hne hkeys hmembers ih =>
    cases levels with
    | zero => rfl
    | succ levels =>
      rw [Document.depth] at hdepth
      obtain ⟨e, he, hdeep⟩ := exists_lt_depth_of_members (Nat.lt_of_succ_lt_succ hdepth)
      obtain ⟨m, hm, rfl⟩ := List.mem_map.1 he
      rw [List.cons_append, List.append_assoc]
      refine isWhole_scanObject hkeys (fun m hm => ?_)
        ⟨m, hm, breaks_of_scan fun rest hrest => ih m hm hdeep hrest⟩ rest
      rcases Nat.lt_or_ge levels m.value.depth with hdeep | hflat
      · exact .inr (breaks_of_scan fun rest hrest => ih m hm hdeep hrest)
      · exact .inl (finds_of_scan fun rest hrest => scan_spelled (hmembers m hm) hflat hrest)
  | emptyList =>
    cases levels with
    | zero => rfl
    | succ levels => exact absurd hdepth (by simp [Document.depth, depthOfItems])
  | emptyRecord =>
    cases levels with
    | zero => rfl
    | succ levels => exact absurd hdepth (by simp [Document.depth, depthOfMembers])
  | _ => cases hdepth

/-- **Well-formed texts** are read as what they are texts of, unless they are nested too deeply.
It is an equation and so says what happens on either side of the bound. Whether a text is
well-formed is not asked of the reader: it is the hypothesis. -/
theorem parse?_eq {d : Document} {s : String} (h : IsTextOf d s) :
    parse? s = if d.depth ≤ maxLevels then some d else none := by
  obtain ⟨p, hs, hspells⟩ := h
  by_cases hdepth : d.depth ≤ maxLevels
  · rw [parse?, scanText_of_isTextOf ⟨p, hs, hspells⟩ hdepth, if_pos hdepth]
    dsimp only
    rw [hspells.isWhole]
    rfl
  · have hbreaks : Breaks (scan maxLevels) p := breaks_of_scan fun rest hrest =>
      isWhole_scan_of_deep hspells (Nat.lt_of_not_le hdepth) hrest
    have hwhole := hbreaks [] Number.endsNumber_nil
    rw [List.append_nil, ← hs] at hwhole
    rw [parse?, scanText, if_neg hdepth]
    dsimp only
    rw [hwhole]
    rfl

end ItemStore.Json
