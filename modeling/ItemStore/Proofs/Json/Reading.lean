import ItemStore.Proofs.Json.Grammar

/-
Well-formed texts are read.

The scanner takes documents off the front of a text, so what is proved of a document is about its
text with something behind it: the scanner stops where the document ends. Behind a number this
depends on what follows. Blanks in front of a document are passed over with it, and those behind it
are left.

Two bounds have to be large enough. Arrays and objects must not be nested deeper than there are
levels, which is a matter of the document. A run of items must not be longer than its text, which
is always so, since there are commas between them.
-/
set_option autoImplicit false

namespace ItemStore.Json

open Decimal

/-! ## Where a document begins and ends -/

theorem endsNumber_separator {c : Char} (h : c = ',' ∨ c = ']' ∨ c = '\x7d') (cs : List Char) :
    Number.EndsNumber (c :: cs) := by
  refine Number.endsNumber_cons ?_ cs
  rcases h with rfl | rfl | rfl
  · decide
  · decide
  · decide

theorem endsNumber_append {blanks rest : List Char} (h : AreBlank blanks)
    (hrest : Number.EndsNumber rest) : Number.EndsNumber (blanks ++ rest) := by
  have hblank : ∀ c ∈ [' ', '\t', '\n', '\r'],
      isDigit c = false ∧ c ≠ '.' ∧ c ≠ 'e' ∧ c ≠ 'E' := by
    intro c hc
    simp only [List.mem_cons, List.not_mem_nil, or_false] at hc
    rcases hc with rfl | rfl | rfl | rfl <;> decide
  cases blanks with
  | nil => exact hrest
  | cons c blanks => exact Number.endsNumber_cons (hblank c (h c List.mem_cons_self)) _

/-- The first character tells where a document begins: it is no blank, and no bracket that
would close an array. -/
theorem Spells.exists_cons {d : Document} {text : List Char} (h : Spells d text) :
    ∃ c cs, text = c :: cs ∧ isSpace c = false ∧ c ≠ ']' := by
  cases h with
  | null => exact ⟨'n', _, rfl, rfl, by decide⟩
  | yes => exact ⟨'t', _, rfl, rfl, by decide⟩
  | no => exact ⟨'f', _, rfl, rfl, by decide⟩
  | number h =>
    obtain ⟨l, hlex, -⟩ := h
    obtain ⟨c, cs, htext, hc⟩ := Number.exists_cons_of_lex? (Number.lex?_eq_some_iff.2 hlex)
    refine ⟨c, cs, htext, ?_⟩
    rcases hc with rfl | hdigit
    · decide
    · refine forall_isDigit (P := fun c => isSpace c = false ∧ c ≠ ']') ?_ hdigit
      decide
  | string h =>
    obtain ⟨text, -, rfl⟩ := h
    exact ⟨'"', _, rfl, rfl, by decide⟩
  | emptyList => exact ⟨'[', _, rfl, rfl, by decide⟩
  | list => exact ⟨'[', _, rfl, rfl, by decide⟩
  | emptyRecord => exact ⟨'\x7b', _, rfl, rfl, by decide⟩
  | record => exact ⟨'\x7b', _, rfl, rfl, by decide⟩

/-- What a scanner does with a text: it finds the document at its front, and the blanks behind it
are left over with the rest. It is stated of a scanner and not of `scan`, as the levels that are
left are different inside. -/
def Finds (scan : List Char → Document × List Char) (d : Document) (p : Padded) : Prop :=
  ∀ rest, Number.EndsNumber rest → scan (p.chars ++ rest) = (d, p.after ++ rest)

/-! ## Runs of items and members -/

theorem intercalate_append (first second : List Char) (texts : List (List Char))
    (rest : List Char) : [','].intercalate (first :: second :: texts) ++ rest =
      first ++ ',' :: ([','].intercalate (second :: texts) ++ rest) := by
  rw [List.intercalate_cons_cons, List.append_assoc, List.append_assoc]
  rfl

theorem intercalate_head (front first : List Char) (texts : List (List Char)) :
    [','].intercalate ((front ++ first) :: texts) =
      front ++ [','].intercalate (first :: texts) := by
  cases texts with
  | nil => rw [List.intercalate_singleton, List.intercalate_singleton]
  | cons second texts =>
    rw [List.intercalate_cons_cons, List.intercalate_cons_cons, List.append_assoc,
      List.append_assoc, List.append_assoc]

/-- There is a comma between any two texts. -/
theorem length_le_intercalate (texts : List (List Char)) :
    texts.length ≤ ([','].intercalate texts).length + 1 := by
  induction texts with
  | nil => exact Nat.zero_le _
  | cons text texts ih =>
    cases texts with
    | nil => exact Nat.le_add_left 1 _
    | cons text' texts =>
      rw [List.intercalate_cons_cons, List.length_append, List.length_append]
      simp only [List.length_cons, List.length_nil] at ih ⊢
      omega

/-- Items up to the bracket that closes them, and what follows. It begins behind the opening
bracket. -/
def itemsRun (items : List (Document × Padded)) (rest : List Char) : List Char :=
  [','].intercalate (items.map fun i => i.2.chars) ++ ']' :: rest

/-- Members up to the brace that closes them, and what follows. It begins behind the opening
brace. -/
def membersRun (members : List Member) (rest : List Char) : List Char :=
  [','].intercalate (members.map Member.chars) ++ '\x7d' :: rest

theorem itemsRun_cons (i i' : Document × Padded) (items : List (Document × Padded))
    (rest : List Char) :
    itemsRun (i :: i' :: items) rest = i.2.chars ++ ',' :: itemsRun (i' :: items) rest :=
  intercalate_append _ _ _ _

theorem membersRun_cons (m m' : Member) (members : List Member) (rest : List Char) :
    membersRun (m :: m' :: members) rest = m.chars ++ ',' :: membersRun (m' :: members) rest :=
  intercalate_append _ _ _ _

theorem length_le_itemsRun (items : List (Document × Padded)) (rest : List Char) :
    items.length ≤ (itemsRun items rest).length := by
  have h := length_le_intercalate (items.map fun i => i.2.chars)
  rw [List.length_map] at h
  rw [itemsRun, List.length_append, List.length_cons]
  omega

theorem length_le_membersRun (members : List Member) (rest : List Char) :
    members.length ≤ (membersRun members rest).length := by
  have h := length_le_intercalate (members.map Member.chars)
  rw [List.length_map] at h
  rw [membersRun, List.length_append, List.length_cons]
  omega

/-- The first item of an array without the blanks in front of it. -/
theorem itemsRun_trim (i : Document × Padded) (items : List (Document × Padded))
    (rest : List Char) :
    itemsRun (i :: items) rest = i.2.before ++ itemsRun ((i.1, i.2.trim) :: items) rest := by
  rw [itemsRun, itemsRun, List.map_cons, List.map_cons, i.2.chars_eq, intercalate_head,
    List.append_assoc]

/-- A member without the blanks in front of its key. The scanner has passed over these when it
looks for a key. -/
def Member.trim (m : Member) : Member := { m with keyText := m.keyText.trim }

theorem membersRun_trim (m : Member) (members : List Member) (rest : List Char) :
    membersRun (m :: members) rest = m.keyText.before ++ membersRun (m.trim :: members) rest := by
  have hchars : m.chars = m.keyText.before ++ m.trim.chars := by
    rw [Member.chars, m.keyText.chars_eq, List.append_assoc]
    rfl
  rw [membersRun, membersRun, List.map_cons, List.map_cons, hchars, intercalate_head,
    List.append_assoc]

/-- A run begins with what its first item begins with. -/
theorem exists_itemsRun_cons {i : Document × Padded} {c : Char} {cs : List Char}
    (h : i.2.text = c :: cs) (items : List (Document × Padded)) (rest : List Char) :
    ∃ tail, itemsRun ((i.1, i.2.trim) :: items) rest = c :: tail := by
  have hchars : i.2.trim.chars = [c] ++ (cs ++ i.2.after) := by
    rw [Padded.chars, Padded.trim, List.nil_append, h]
    rfl
  rw [itemsRun, List.map_cons, hchars, intercalate_head]
  exact ⟨_, rfl⟩

theorem exists_membersRun_cons {m : Member} (h : SpellsString m.key m.keyText.text)
    (members : List Member) (rest : List Char) :
    ∃ tail, membersRun (m.trim :: members) rest = '"' :: tail := by
  obtain ⟨text, -, htext⟩ := h
  have hchars : m.trim.chars =
      ['"'] ++ (text ++ '"' :: (m.keyText.after ++ ':' :: m.valueText.chars)) := by
    simp [Member.chars, Member.trim, Padded.chars, Padded.trim, htext]
  rw [membersRun, List.map_cons, hchars, intercalate_head]
  exact ⟨_, rfl⟩

section Items

variable {scan : List Char → Document × List Char} {cs cs' rest : List Char} {d : Document}

theorem scanItems_last (h : scan cs = (d, cs')) (hend : skipSpace cs' = ']' :: rest) (bound : Nat) :
    scanItems scan (bound + 1) cs = (([d], true), rest) := by
  rw [scanItems, h]
  dsimp only
  rw [hend]
  rfl

theorem scanItems_next (h : scan cs = (d, cs')) (hcomma : skipSpace cs' = ',' :: rest)
    (bound : Nat) : scanItems scan (bound + 1) cs = ((d :: (scanItems scan bound rest).1.1,
      (scanItems scan bound rest).1.2), (scanItems scan bound rest).2) := by
  rw [scanItems, h]
  dsimp only
  rw [hcomma]
  rfl

/-- Items are scanned one after the other, if each of them is. -/
theorem scanItems_spelled {items : List (Document × Padded)} (hne : items ≠ [])
    (hscan : ∀ i ∈ items, Finds scan i.1 i.2) {bound : Nat} (hbound : items.length ≤ bound)
    (rest : List Char) :
    scanItems scan bound (itemsRun items rest) = ((items.map Prod.fst, true), rest) := by
  induction items generalizing bound with
  | nil => exact absurd rfl hne
  | cons i items ih =>
    obtain ⟨bound, rfl⟩ := Nat.exists_add_one_eq.2 (Nat.zero_lt_of_lt hbound)
    have hi := hscan i List.mem_cons_self
    cases items with
    | nil =>
      rw [itemsRun, List.map_singleton, List.map_singleton, List.intercalate_singleton]
      exact scanItems_last (hi _ (endsNumber_separator (.inr (.inl rfl)) rest))
        (i.2.skipSpace_after (by decide) rest) bound
    | cons i' items =>
      have hitems := ih (List.cons_ne_nil i' items)
        (fun e he => hscan e (List.mem_cons_of_mem i he)) (Nat.le_of_succ_le_succ hbound)
      rw [itemsRun_cons, scanItems_next (hi _ (endsNumber_separator (.inl rfl) _))
        (i.2.skipSpace_after (by decide) _), hitems]
      rfl

/-- An array with blanks only in it. -/
theorem scanArray_blank {blanks : List Char} (h : AreBlank blanks) (rest : List Char) :
    scanArray scan (blanks ++ ']' :: rest) = (.list [], rest) := by
  rw [scanArray, skipSpace_append h, skipSpace_cons (by decide)]
  rfl

/-- The blanks in front of an item may be passed over before. -/
theorem scan_trim (hspace : ∀ cs, scan (skipSpace cs) = scan cs) (p : Padded) (rest : List Char) :
    scan (p.trim.chars ++ rest) = scan (p.chars ++ rest) := by
  rw [← hspace (p.chars ++ rest), p.chars_eq, List.append_assoc, skipSpace_append p.blank_before,
    hspace]

theorem Finds.trim (hspace : ∀ cs, scan (skipSpace cs) = scan cs) {p : Padded}
    (h : Finds scan d p) : Finds scan d p.trim := by
  intro rest hrest
  rw [scan_trim hspace]
  exact h rest hrest

/-- What a run of items is as an array. It says whether the array was closed. -/
def arrayOf (run : (List Document × Bool) × List Char) : Document × List Char :=
  (.array run.1.1 run.1.2, run.2)

/-- An array is the run that begins behind the first blanks. -/
theorem scanArray_run {i : Document × Padded}
    (hbegins : ∃ c cs, i.2.text = c :: cs ∧ isSpace c = false ∧ c ≠ ']')
    (items : List (Document × Padded)) (rest : List Char) :
    ∃ bound, (i :: items).length ≤ bound ∧ scanArray scan (itemsRun (i :: items) rest) =
      arrayOf (scanItems scan bound (itemsRun ((i.1, i.2.trim) :: items) rest)) := by
  obtain ⟨c, cs, htext, hc, hbracket⟩ := hbegins
  obtain ⟨tail, htail⟩ := exists_itemsRun_cons htext items rest
  refine ⟨_, Nat.le_succ_of_le (length_le_itemsRun ((i.1, i.2.trim) :: items) rest), ?_⟩
  rw [itemsRun_trim, scanArray, skipSpace_append i.2.blank_before, htail, skipSpace_cons hc]
  split
  · next he =>
    cases he
    exact absurd rfl hbracket
  · rfl

/-- An array whose items are scanned. -/
theorem scanArray_spelled (hspace : ∀ cs, scan (skipSpace cs) = scan cs)
    {items : List (Document × Padded)} (hne : items ≠ [])
    (hbegins : ∀ i ∈ items, ∃ c cs, i.2.text = c :: cs ∧ isSpace c = false ∧ c ≠ ']')
    (hscan : ∀ i ∈ items, Finds scan i.1 i.2) (rest : List Char) :
    scanArray scan (itemsRun items rest) = (.list (items.map Prod.fst), rest) := by
  obtain ⟨i, items, rfl⟩ := List.exists_cons_of_ne_nil hne
  obtain ⟨hi, hitems⟩ := List.forall_mem_cons.1 hscan
  obtain ⟨bound, hbound, hrun⟩ := scanArray_run (hbegins i List.mem_cons_self) items rest
  rw [hrun, scanItems_spelled (List.cons_ne_nil (i.1, i.2.trim) items)
    (List.forall_mem_cons.2 ⟨hi.trim hspace, hitems⟩) hbound]
  rfl

end Items

section Members

variable {scan : String → List Char → Document × List Char} {rest : List Char}

/-- A member and what stands behind it. -/
theorem Member.chars_append {m : Member} {text : List Char}
    (h : m.keyText.text = '"' :: (text ++ ['"'])) (rest : List Char) :
    m.chars ++ rest = m.keyText.before ++ '"' ::
      (text ++ '"' :: (m.keyText.after ++ ':' :: (m.valueText.chars ++ rest))) := by
  simp only [Member.chars, Padded.chars, h, List.append_assoc, List.cons_append, List.nil_append]

variable {m : Member} (hkey : SpellsString m.key m.keyText.text)
  (hvalue : Finds (scan m.key) m.value m.valueText) (bound : Nat)
include hkey hvalue

theorem scanMembers_last : scanMembers scan (bound + 1) (m.chars ++ '\x7d' :: rest) =
    (([(m.key, m.value)], true), rest) := by
  obtain ⟨text, hchars, htext⟩ := hkey
  have hquote : isSpace '"' = false := by decide
  have hcolon : isSpace ':' = false := by decide
  have hbrace : isSpace '\x7d' = false := by decide
  rw [Member.chars_append htext]
  simp only [scanMembers, skipSpace_append m.keyText.blank_before, skipSpace_cons hquote,
    scanString?_spelled hchars, String.ofList_toList, m.keyText.skipSpace_after hcolon,
    hvalue _ (endsNumber_separator (.inr (.inr rfl)) rest), m.valueText.skipSpace_after hbrace]

theorem scanMembers_next : scanMembers scan (bound + 1) (m.chars ++ ',' :: rest) =
    (((m.key, m.value) :: (scanMembers scan bound rest).1.1, (scanMembers scan bound rest).1.2),
      (scanMembers scan bound rest).2) := by
  obtain ⟨text, hchars, htext⟩ := hkey
  have hquote : isSpace '"' = false := by decide
  have hcolon : isSpace ':' = false := by decide
  have hcomma : isSpace ',' = false := by decide
  rw [Member.chars_append htext]
  simp only [scanMembers, skipSpace_append m.keyText.blank_before, skipSpace_cons hquote,
    scanString?_spelled hchars, String.ofList_toList, m.keyText.skipSpace_after hcolon,
    hvalue _ (endsNumber_separator (.inl rfl) rest), m.valueText.skipSpace_after hcomma]

omit hkey hvalue

/-- Members are scanned one after the other, if what is under their keys is. -/
theorem scanMembers_spelled {members : List Member} (hne : members ≠ [])
    (hkeys : ∀ m ∈ members, SpellsString m.key m.keyText.text)
    (hscan : ∀ m ∈ members, Finds (scan m.key) m.value m.valueText) {bound : Nat}
    (hbound : members.length ≤ bound) (rest : List Char) :
    scanMembers scan bound (membersRun members rest) =
      ((members.map fun m => (m.key, m.value), true), rest) := by
  induction members generalizing bound with
  | nil => exact absurd rfl hne
  | cons m members ih =>
    obtain ⟨bound, rfl⟩ := Nat.exists_add_one_eq.2 (Nat.zero_lt_of_lt hbound)
    have hkey := hkeys m List.mem_cons_self
    have hvalue := hscan m List.mem_cons_self
    cases members with
    | nil =>
      rw [membersRun, List.map_singleton, List.map_singleton, List.intercalate_singleton]
      exact scanMembers_last hkey hvalue bound
    | cons m' members =>
      have hmembers := ih (List.cons_ne_nil m' members)
        (fun e he => hkeys e (List.mem_cons_of_mem m he))
        (fun e he => hscan e (List.mem_cons_of_mem m he)) (Nat.le_of_succ_le_succ hbound)
      rw [membersRun_cons, scanMembers_next hkey hvalue, hmembers]
      rfl

/-- An object with blanks only in it. -/
theorem scanObject_blank {blanks : List Char} (h : AreBlank blanks) (rest : List Char) :
    scanObject scan (blanks ++ '\x7d' :: rest) = (.record [], rest) := by
  rw [scanObject, skipSpace_append h, skipSpace_cons (by decide)]
  rfl

/-- What a run of members is as an object. It says whether the object was closed. -/
def objectOf (run : (List (String × Document) × Bool) × List Char) : Document × List Char :=
  (.object run.1.1 run.1.2, run.2)

/-- An object is the run that begins behind the first blanks. -/
theorem scanObject_run {m : Member} (hkey : SpellsString m.key m.keyText.text)
    (members : List Member) (rest : List Char) :
    ∃ bound, (m :: members).length ≤ bound ∧ scanObject scan (membersRun (m :: members) rest) =
      objectOf (scanMembers scan bound (membersRun (m.trim :: members) rest)) := by
  obtain ⟨tail, htail⟩ := exists_membersRun_cons hkey members rest
  refine ⟨_, Nat.le_succ_of_le (length_le_membersRun (m.trim :: members) rest), ?_⟩
  rw [membersRun_trim, scanObject, skipSpace_append m.keyText.blank_before, htail,
    skipSpace_cons (by decide)]
  split
  · next he => cases he
  · rfl

/-- An object whose members are scanned. -/
theorem scanObject_spelled {members : List Member} (hne : members ≠ [])
    (hkeys : ∀ m ∈ members, SpellsString m.key m.keyText.text)
    (hscan : ∀ m ∈ members, Finds (scan m.key) m.value m.valueText) (rest : List Char) :
    scanObject scan (membersRun members rest) =
      (.record (members.map fun m => (m.key, m.value)), rest) := by
  obtain ⟨m, members, rfl⟩ := List.exists_cons_of_ne_nil hne
  obtain ⟨hkey, hkeys⟩ := List.forall_mem_cons.1 hkeys
  obtain ⟨hvalue, hscan⟩ := List.forall_mem_cons.1 hscan
  obtain ⟨bound, hbound, hrun⟩ := scanObject_run hkey members rest
  rw [hrun, scanMembers_spelled (List.cons_ne_nil m.trim members)
    (List.forall_mem_cons.2 ⟨hkey, hkeys⟩) (List.forall_mem_cons.2 ⟨hvalue, hscan⟩) hbound]
  rfl

end Members

/-! ## Going down a document -/

namespace Document

/-- Whether the document holds other documents. Only these take a level away. -/
def isContainer : Document → Bool
  | array _ _ => true
  | object _ _ => true
  | _ => false

/-- A property of documents holds of all of them if an array has it as soon as its items do, and an
object as soon as what is under its keys does. -/
theorem induction {P : Document → Prop} (plain : ∀ d : Document, d.isContainer = false → P d)
    (array : ∀ items closed, (∀ d ∈ items, P d) → P (array items closed))
    (object : ∀ members closed, (∀ m ∈ members, P m.2) → P (object members closed))
    (d : Document) : P d := by
  refine @Document.rec P (fun items => ∀ d ∈ items, P d) (fun members => ∀ m ∈ members, P m.2)
    (fun m => P m.2) ?_ ?_ ?_ ?_ (fun items closed h => array items closed h)
    (fun members closed h => object members closed h) ?_ ?_ ?_ ?_ ?_ ?_ d
  · exact plain .null rfl
  · exact fun b => plain (.bool b) rfl
  · exact fun n => plain (.number n) rfl
  · exact fun s => plain (.string s) rfl
  · exact plain .cut rfl
  · intro d hd
    cases hd
  · intro d items hd hitems d' hd'
    rcases List.mem_cons.1 hd' with rfl | hd'
    · exact hd
    · exact hitems d' hd'
  · intro m hm
    cases hm
  · intro m members hm hmembers m' hm'
    rcases List.mem_cons.1 hm' with rfl | hm'
    · exact hm
    · exact hmembers m' hm'
  · exact fun _ _ h => h

theorem areWhole_iff {items : List Document} :
    areWhole items = true ↔ ∀ d ∈ items, d.isWhole = true := by
  induction items with
  | nil => simp [areWhole]
  | cons d items ih => rw [areWhole, Bool.and_eq_true, ih, List.forall_mem_cons]

theorem areWholeMembers_iff {members : List (String × Document)} :
    areWholeMembers members = true ↔ ∀ m ∈ members, m.2.isWhole = true := by
  induction members with
  | nil => simp [areWholeMembers]
  | cons m members ih => rw [areWholeMembers, Bool.and_eq_true, ih, List.forall_mem_cons]

/-- A document that is among others is not deeper than all of them. -/
theorem depth_le_depthOfItems {d : Document} {items : List Document} (h : d ∈ items) :
    d.depth ≤ depthOfItems items := by
  induction items with
  | nil => cases h
  | cons d' items ih =>
    rw [depthOfItems]
    rcases List.mem_cons.1 h with rfl | h
    · exact Nat.le_max_left _ _
    · exact Nat.le_trans (ih h) (Nat.le_max_right _ _)

theorem depth_le_depthOfMembers {m : String × Document} {members : List (String × Document)}
    (h : m ∈ members) : m.2.depth ≤ depthOfMembers members := by
  induction members with
  | nil => cases h
  | cons m' members ih =>
    obtain ⟨k, d⟩ := m'
    rw [depthOfMembers]
    rcases List.mem_cons.1 h with rfl | h
    · exact Nat.le_max_left _ _
    · exact Nat.le_trans (ih h) (Nat.le_max_right _ _)

end Document

/-! ## Values -/

theorem scan_of_number {c : Char} (hc : c = '-' ∨ isDigit c = true) (levels : Nat)
    (cs : List Char) : scan levels (c :: cs) = scanNumber (c :: cs) := by
  have hother : isSpace c = false ∧ c ∉ ['n', 't', 'f', '"', '[', '\x7b'] := by
    rcases hc with rfl | hdigit
    · decide
    · refine forall_isDigit (P := fun c => isSpace c = false ∧
        c ∉ ['n', 't', 'f', '"', '[', '\x7b']) ?_ hdigit
      decide
  simp only [List.mem_cons, List.not_mem_nil, or_false, not_or] at hother
  obtain ⟨hspace, hn, ht, hf, hquote, hbracket, hbrace⟩ := hother
  rw [scan.eq_def]
  dsimp only
  rw [skipSpace_cons hspace]
  split
  · next he => exact absurd (List.cons.inj he).1 hn
  · next he => exact absurd (List.cons.inj he).1 ht
  · next he => exact absurd (List.cons.inj he).1 hf
  · next he => exact absurd (List.cons.inj he).1 hquote
  · next he => exact absurd (List.cons.inj he).1 hbracket
  · next he => exact absurd (List.cons.inj he).1 hbrace
  · rfl

theorem scan_skipSpace (levels : Nat) (cs : List Char) :
    scan levels (skipSpace cs) = scan levels cs := by
  rw [scan.eq_def, scan.eq_def]
  dsimp only
  rw [skipSpace_skipSpace]

/-- The blanks in front of a document are passed over. -/
theorem scan_chars (levels : Nat) (p : Padded) (rest : List Char) :
    scan levels (p.chars ++ rest) = scan levels (p.text ++ (p.after ++ rest)) := by
  rw [Padded.chars, List.append_assoc, List.append_assoc, ← scan_skipSpace,
    skipSpace_append p.blank_before, scan_skipSpace]

/-- A document that is scanned where its text begins is found behind blanks. -/
theorem finds_of_scan {levels : Nat} {d : Document} {p : Padded}
    (h : ∀ rest, Number.EndsNumber rest → scan levels (p.text ++ rest) = (d, rest)) :
    Finds (scan levels) d p := by
  intro rest hrest
  rw [scan_chars]
  exact h _ (endsNumber_append p.blank_after hrest)

/-- **Values.** The document that a text spells is scanned where the text begins, and the scanner
stops where it ends. What follows must not make a number longer; behind any other document it
could be anything. -/
theorem scan_spelled {d : Document} {text : List Char} (h : Spells d text) {levels : Nat}
    (hdepth : d.depth ≤ levels) {rest : List Char} (hrest : Number.EndsNumber rest) :
    scan levels (text ++ rest) = (d, rest) := by
  induction h generalizing levels rest with
  | null => cases levels <;> rfl
  | yes => cases levels <;> rfl
  | no => cases levels <;> rfl
  | @number n cs hn =>
    have hof := Number.ofText?_eq_some_iff_spells.2 hn
    have htake := Number.take?_append_of_ofText? hrest hof
    obtain ⟨l, hlex, -⟩ := Number.take?_eq_some.1 (Number.ofText?_eq_some.1 hof)
    obtain ⟨c, cs, rfl, hc⟩ := Number.exists_cons_of_lex? hlex
    rw [List.cons_append] at htake ⊢
    rw [scan_of_number hc, scanNumber, htake]
  | @string s cs hs =>
    obtain ⟨text, hchars, rfl⟩ := hs
    have hscan : ∀ cs, scan levels ('"' :: cs) = scanQuoted cs := by
      intro cs
      cases levels <;> rfl
    rw [List.cons_append, List.append_assoc, hscan, scanQuoted]
    rw [List.cons_append, List.nil_append, scanString?_spelled hchars]
    dsimp only
    rw [String.ofList_toList]
  | @emptyList blanks hblank =>
    obtain ⟨levels, rfl⟩ := Nat.exists_add_one_eq.2 (Nat.zero_lt_of_lt hdepth)
    rw [List.cons_append, List.append_assoc]
    exact scanArray_blank hblank rest
  | @list items hne hitems ih =>
    rw [Document.depth] at hdepth
    obtain ⟨levels, rfl⟩ := Nat.exists_add_one_eq.2 (Nat.zero_lt_of_lt hdepth)
    have hscan : ∀ i ∈ items, Finds (scan levels) i.1 i.2 := by
      intro i hi
      have hi' := Document.depth_le_depthOfItems (List.mem_map_of_mem (f := Prod.fst) hi)
      exact finds_of_scan fun rest hrest =>
        ih i hi (Nat.le_trans hi' (Nat.le_of_succ_le_succ hdepth)) hrest
    rw [List.cons_append, List.append_assoc]
    exact scanArray_spelled (scan_skipSpace levels) hne (fun i hi => (hitems i hi).exists_cons)
      hscan rest
  | @emptyRecord blanks hblank =>
    obtain ⟨levels, rfl⟩ := Nat.exists_add_one_eq.2 (Nat.zero_lt_of_lt hdepth)
    rw [List.cons_append, List.append_assoc]
    exact scanObject_blank hblank rest
  | @record members hne hkeys hmembers ih =>
    rw [Document.depth] at hdepth
    obtain ⟨levels, rfl⟩ := Nat.exists_add_one_eq.2 (Nat.zero_lt_of_lt hdepth)
    have hscan : ∀ m ∈ members, Finds (scan levels) m.value m.valueText := by
      intro m hm
      have hm' := Document.depth_le_depthOfMembers
        (List.mem_map_of_mem (f := fun m => (m.key, m.value)) hm)
      exact finds_of_scan fun rest hrest =>
        ih m hm (Nat.le_trans hm' (Nat.le_of_succ_le_succ hdepth)) hrest
    rw [List.cons_append, List.append_assoc]
    exact scanObject_spelled hne hkeys hscan rest

/-- Nothing is cut off from a document that a text spells. -/
theorem Spells.isWhole {d : Document} {text : List Char} (h : Spells d text) :
    d.isWhole = true := by
  induction h with
  | list _ _ ih =>
    rw [Document.isWhole, Bool.true_and, Document.areWhole_iff]
    exact List.forall_mem_map.2 ih
  | record _ _ _ ih =>
    rw [Document.isWhole, Bool.true_and, Document.areWholeMembers_iff]
    exact List.forall_mem_map.2 ih
  | _ => rfl

/-- **Texts.** A well-formed text that is not nested too deeply is scanned to its end. The result
says that nothing but blanks was left over. -/
theorem scanText_of_isTextOf {d : Document} {s : String} (h : IsTextOf d s)
    (hdepth : d.depth ≤ maxLevels) : scanText s = (d, true) := by
  obtain ⟨p, hs, hspells⟩ := h
  have hfinds : Finds (scan maxLevels) d p :=
    finds_of_scan fun rest hrest => scan_spelled hspells hdepth hrest
  have hscan := hfinds [] Number.endsNumber_nil
  rw [List.append_nil, List.append_nil] at hscan
  have hafter : skipSpace p.after = [] := by
    rw [← List.append_nil p.after, skipSpace_append p.blank_after]
    rfl
  rw [scanText, hs, hscan]
  dsimp only
  rw [hafter]
  rfl

end ItemStore.Json
