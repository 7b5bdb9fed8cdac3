import ItemStore.Descriptor.Wire
import ItemStore.Proofs.Entries
import ItemStore.Proofs.Json.Scan
import ItemStore.Proofs.Outcome
import ItemStore.Proofs.Text.Base64

/-
What descriptor a document denotes.

Few documents denote one: objects with a tag as their only key, and under it what the tag asks for.
`Denotes` says so of whole documents, with nothing about the order in which they are looked through.
The reader is held against it: it goes through a document from left to right, picks what to do by
the first key and has not seen the others then, and still it finds a descriptor just where the
document denotes one, and finds that one.

The only place where something is lost are the keys of maps. A key may come several times, and what
is under it has to be a descriptor every time, though only the last one is kept, at the place of the
first.

The reader is `deserialize` with `visit_map` and, for the members of number sets, `into_decimal`.
-/
set_option autoImplicit false

namespace ItemStore

open Entries Json

/-! ## Repeated keys -/

/-- What becomes of pairs when repeated keys keep their first place and take their last value. It
is said by the keys and by look-ups, which fix the entries, and so without saying how they are
filled in. -/
structure Entries.Settled {α : Type} (pairs entries : List (String × α)) : Prop where
  keys_eq : keys entries = (keys pairs).eraseDups
  get?_eq : ∀ key, get? key entries = get? key pairs.reverse

theorem Entries.settled_iff {α : Type} {pairs entries : List (String × α)} :
    Settled pairs entries ↔ entries = ofList pairs := by
  constructor
  · rintro ⟨hkeys, hget⟩
    have hsame : keys entries = keys (ofList pairs) := hkeys.trans (keys_ofList pairs).symm
    have hpairs := forall₂_of_keys_eq (R := (· = ·)) (hsame ▸ nodup_keys_ofList pairs) hsame
      fun key a b ha hb => by
        rw [hget, ← get?_ofList, hb] at ha
        exact (Option.some.inj ha).symm
    exact List.forall₂_eq_eq_eq ▸ hpairs.imp fun e e' h => Prod.ext h.1 h.2
  · rintro rfl
    exact ⟨keys_ofList pairs, fun key => get?_ofList key pairs⟩

namespace Descriptor

/-! ## The grammar of descriptors -/

/-- A member of a number set: a number by its canonical text, or a string as it is. Any string
will do, since `into_decimal` takes it unread. -/
inductive DenotesMember : Document → String → Prop
  | number (n : Number) : DenotesMember (.number n) (String.ofList n.text)
  | string (s : String) : DenotesMember (.string s) s

mutual

/-- The descriptor that a document denotes: it has a tag for its only key. The tag is the only key
also in the sense that it stands there once. -/
inductive Denotes : Document → Descriptor → Prop
  | tagged {tag : Tag} {payload : Document} {d : Descriptor} (h : Fits tag payload d) :
    Denotes (.record [(tag.text, payload)]) d

/-- The descriptor that a payload makes under a tag. Members of lists and maps are documents
again, which makes this and `Denotes` one recursion. -/
inductive Fits : Tag → Document → Descriptor → Prop
  | string (s : String) : Fits .string (.string s) (.string s)
  | number (text : String) : Fits .number (.string text) (.number text)
  | binary (bytes : List UInt8) :
    Fits .binary (.string (String.ofList (Text.Base64.encode bytes))) (.binary bytes)
  | stringSet (members : List String) :
    Fits .stringSet (.list (members.map .string)) (.stringSet members)
  | numberSet {items : List Document} {members : List String}
    (h : List.Forall₂ DenotesMember items members) :
    Fits .numberSet (.list items) (.numberSet members)
  | binarySet (members : List (List UInt8)) :
    Fits .binarySet
      (.list (members.map fun bytes => .string (String.ofList (Text.Base64.encode bytes))))
      (.binarySet members)
  | bool (b : Bool) : Fits .bool (.bool b) (.bool b)
  | null : Fits .null .null .null
  | nullTrue : Fits .null (.bool true) .null
  | list {items : List Document} {targets : List Descriptor}
    (h : List.Forall₂ Denotes items targets) : Fits .list (.list items) (.list targets)
  /-- Every member is a descriptor, also those that are not kept. -/
  | map {members : List (String × Document)} {targets : List Descriptor}
    {entries : List (String × Descriptor)}
    (h : List.Forall₂ Denotes (members.map Prod.snd) targets)
    (hentries : Settled ((keys members).zip targets) entries) :
    Fits .map (.record members) (.map entries)

end

/-! ## Readers of payloads -/

/-- The reader accepts a document, and as `a`, just when the document is one that `a` is written
as. `Written` is a relation and not a function because a member of a number set may be written in
two ways. -/
def ReadsWritten {α : Type} (read : Document → Except Refusal α)
    (Written : Document → α → Prop) : Prop :=
  ∀ d a, read d = .ok a ↔ Written d a

/-- **Payloads made of one value.** Where `ofPayload` reads a value and puts a constructor on it,
what it accepts under the tag is what fits, if what fits is that constructor on a written value. -/
theorem ReadsWritten.map_eq_ok_iff_fits {α : Type} {read : Document → Except Refusal α}
    {Written : Document → α → Prop} (h : ReadsWritten read Written) {make : α → Descriptor}
    {tag : Tag} (hmake : ∀ {d a}, Written d a → Fits tag d (make a))
    (hfits : ∀ {d r}, Fits tag d r → ∃ a, Written d a ∧ make a = r) {d : Document}
    {r : Descriptor} : (read d).map make = .ok r ↔ Fits tag d r := by
  rw [map_eq_ok]
  constructor
  · rintro ⟨a, hread, rfl⟩
    exact hmake ((h d a).1 hread)
  · intro hd
    obtain ⟨a, hwritten, he⟩ := hfits hd
    exact ⟨a, (h d a).2 hwritten, he⟩

theorem readsWritten_string : ReadsWritten stringOfDocument fun d s => d = .string s := by
  intro d s
  cases d <;> simp [stringOfDocument]

theorem readsWritten_bytes :
    ReadsWritten bytesOfDocument fun d bytes => d = bytesDocument bytes := by
  intro d bytes
  cases d with
  | string s =>
    dsimp only
    rw [bytesOfDocument, bytesDocument, Document.string.injEq, ← String.toList_inj,
      String.toList_ofList, ← Text.Base64.decode?_eq_some_iff]
    cases Text.Base64.decode? s.toList <;> simp
  | _ => simp [bytesOfDocument, bytesDocument]

theorem readsWritten_member : ReadsWritten memberOfDocument DenotesMember := by
  intro d text
  constructor
  · intro h
    cases d with
    | number n =>
      cases h
      exact .number n
    | string s =>
      cases h
      exact .string _
    | _ => cases h
  · intro h
    cases h with
    | number n => rfl
    | string s => rfl

theorem ifClosed_eq_ok {α : Type} {closed : Bool} {a b : α} :
    ifClosed closed a = .ok b ↔ closed = true ∧ a = b := by
  cases closed <;> simp [ifClosed]

/-- An array is read if it stands in its text as a whole and each of its items is read. -/
theorem ReadsWritten.array {α : Type} {read : Document → Except Refusal α}
    {Written : Document → α → Prop} (h : ReadsWritten read Written) :
    ReadsWritten (arrayOfDocument read) fun d members =>
      ∃ items, d = .list items ∧ List.Forall₂ Written items members := by
  have hmembers : (fun d a => read d = .ok a) = Written := funext₂ fun d a => propext (h d a)
  intro d members
  cases d with
  | array items closed =>
    rw [arrayOfDocument, bind_eq_ok]
    simp only [mapM_eq_ok, ifClosed_eq_ok, Document.array.injEq, hmembers]
    constructor
    · rintro ⟨as, has, rfl, rfl⟩
      exact ⟨items, ⟨rfl, rfl⟩, has⟩
    · rintro ⟨items, ⟨rfl, rfl⟩, has⟩
      exact ⟨members, has, rfl, rfl⟩
  | _ => simp [arrayOfDocument]

/-- Where there is one way to write a member, there is one way to write them all. -/
theorem ReadsWritten.list {α : Type} {read : Document → Except Refusal α} {write : α → Document}
    (h : ReadsWritten read fun d a => d = write a) :
    ReadsWritten (arrayOfDocument read) fun d members => d = .list (members.map write) := by
  intro d members
  have hwritten : ∀ items : List Document,
      List.Forall₂ (fun d a => d = write a) items members ↔ items = members.map write := by
    intro items
    rw [← List.forall₂_map_right_iff (R := (· = ·)), List.forall₂_eq_eq_eq]
  rw [h.array]
  simp only [hwritten, exists_eq_right]

/-! ## Documents inside -/

theorem ofDocuments_eq_ok {items : List Document} {targets : List Descriptor} :
    ofDocuments items = .ok targets ↔
      List.Forall₂ (fun d r => ofDocument d = .ok r) items targets := by
  induction items generalizing targets with
  | nil =>
    rw [ofDocuments, List.forall₂_nil_left_iff, Except.ok.injEq, eq_comm]
  | cons d items ih =>
    rw [ofDocuments, bind_eq_ok]
    constructor
    · rintro ⟨r, hr, hrest⟩
      obtain ⟨rs, hrs, he⟩ := bind_eq_ok.1 hrest
      cases he
      exact .cons hr (ih.1 hrs)
    · rintro (_ | ⟨hr, hrs⟩)
      exact ⟨_, hr, bind_eq_ok.2 ⟨_, ih.2 hrs, rfl⟩⟩

/-- Members are read one by one, and every one keeps its key. -/
theorem ofMembers_eq_ok {members : List (String × Document)}
    {entries : List (String × Descriptor)} :
    ofMembers members = .ok entries ↔ ∃ targets,
      List.Forall₂ (fun d r => ofDocument d = .ok r) (members.map Prod.snd) targets ∧
        entries = (keys members).zip targets := by
  induction members generalizing entries with
  | nil => simp [ofMembers, keys, eq_comm]
  | cons m members ih =>
    obtain ⟨key, d⟩ := m
    rw [ofMembers, bind_eq_ok]
    constructor
    · rintro ⟨r, hr, hrest⟩
      obtain ⟨more, hmore, he⟩ := bind_eq_ok.1 hrest
      cases he
      obtain ⟨targets, htargets, rfl⟩ := ih.1 hmore
      exact ⟨r :: targets, .cons hr htargets, rfl⟩
    · rintro ⟨targets, _ | ⟨hr, htargets⟩, rfl⟩
      exact ⟨_, hr, bind_eq_ok.2 ⟨_, ih.2 ⟨_, htargets, rfl⟩, rfl⟩⟩

/-! ## The reader against the grammar -/

/-- The reader finds in a document what it denotes. Both directions are in it, and so is that no
second descriptor is denoted. -/
def Agrees (d : Document) : Prop := ∀ r, ofDocument d = .ok r ↔ Denotes d r

theorem forall₂_congr_of_agrees {items : List Document} (h : ∀ d ∈ items, Agrees d)
    {targets : List Descriptor} :
    List.Forall₂ (fun d r => ofDocument d = .ok r) items targets ↔
      List.Forall₂ Denotes items targets := by
  induction items generalizing targets with
  | nil => rw [List.forall₂_nil_left_iff, List.forall₂_nil_left_iff]
  | cons d items ih =>
    obtain ⟨hd, hitems⟩ := List.forall_mem_cons.1 h
    rw [List.forall₂_cons_left_iff, List.forall₂_cons_left_iff]
    simp only [hd _, ih hitems]

theorem ofText?_eq_some_iff {key : String} {tag : Tag} :
    Tag.ofText? key = some tag ↔ key = tag.text := by
  constructor
  · intro h
    rw [Tag.ofText?] at h
    have hfound := List.find?_some h
    exact (of_decide_eq_true hfound).symm
  · rintro rfl
    exact Tag.ofText?_text tag

/-- What is read is an object with a tag for its only key, whose payload was read. -/
theorem ofDocument_eq_ok {d : Document} {r : Descriptor} : ofDocument d = .ok r ↔
    ∃ tag payload, d = .record [(Tag.text tag, payload)] ∧ ofPayload tag payload = .ok r := by
  constructor
  · intro h
    unfold ofDocument at h
    split at h
    · cases h
    · next key payload more closed =>
      cases htag : Tag.ofText? key with
      | none =>
        rw [htag] at h
        cases h
      | some tag =>
        rw [htag] at h
        obtain ⟨r', hr', hmore⟩ := bind_eq_ok.1 h
        rw [onlyMember] at hmore
        by_cases hnil : more.isEmpty = true
        · rw [if_pos hnil, ifClosed_eq_ok] at hmore
          obtain ⟨rfl, rfl⟩ := hmore
          rw [List.isEmpty_iff.1 hnil, ofText?_eq_some_iff.1 htag]
          exact ⟨tag, payload, rfl, hr'⟩
        · rw [if_neg hnil] at hmore
          cases hmore
    · cases h
  · rintro ⟨tag, payload, rfl, h⟩
    rw [ofDocument, Tag.ofText?_text]
    exact bind_eq_ok.2 ⟨r, h, rfl⟩

/-! ## Payloads -/

theorem ofPayload_bool_eq_ok {payload : Document} {r : Descriptor} :
    ofPayload .bool payload = .ok r ↔ Fits .bool payload r := by
  constructor
  · intro h
    cases payload with
    | bool b =>
      cases h
      exact .bool b
    | _ => cases h
  · rintro ⟨⟩
    rfl

/-- There are two ways to write that nothing is there. -/
theorem ofPayload_null_eq_ok {payload : Document} {r : Descriptor} :
    ofPayload .null payload = .ok r ↔ Fits .null payload r := by
  constructor
  · intro h
    cases payload with
    | null =>
      cases h
      exact .null
    | bool b =>
      cases b with
      | false => cases h
      | true =>
        cases h
        exact .nullTrue
    | _ => cases h
  · intro h
    cases h with
    | null => rfl
    | nullTrue => rfl

theorem ofPayload_list_eq_ok {payload : Document} {r : Descriptor}
    (hitems : ∀ items closed, payload = .array items closed → ∀ d ∈ items, Agrees d) :
    ofPayload .list payload = .ok r ↔ Fits .list payload r := by
  constructor
  · intro h
    cases payload with
    | array items closed =>
      obtain ⟨targets, htargets, hclosed⟩ := bind_eq_ok.1 h
      obtain ⟨rfl, rfl⟩ := ifClosed_eq_ok.1 hclosed
      rw [ofDocuments_eq_ok, forall₂_congr_of_agrees (hitems items true rfl)] at htargets
      exact .list htargets
    | _ => cases h
  · intro h
    cases h with
    | @list items targets htargets =>
      rw [← forall₂_congr_of_agrees (hitems items true rfl), ← ofDocuments_eq_ok] at htargets
      exact bind_eq_ok.2 ⟨targets, htargets, rfl⟩

/-- All members are read, also those whose key comes again later. -/
theorem ofPayload_map_eq_ok {payload : Document} {r : Descriptor}
    (hmembers : ∀ members closed, payload = .object members closed → ∀ m ∈ members, Agrees m.2) :
    ofPayload .map payload = .ok r ↔ Fits .map payload r := by
  have hvalues : ∀ members closed, payload = .object members closed →
      ∀ d ∈ members.map Prod.snd, Agrees d :=
    fun members closed he => List.forall_mem_map.2 (hmembers members closed he)
  constructor
  · intro h
    cases payload with
    | object members closed =>
      obtain ⟨pairs, hpairs, hclosed⟩ := bind_eq_ok.1 h
      obtain ⟨rfl, rfl⟩ := ifClosed_eq_ok.1 hclosed
      obtain ⟨targets, htargets, rfl⟩ := ofMembers_eq_ok.1 hpairs
      rw [forall₂_congr_of_agrees (hvalues members true rfl)] at htargets
      exact .map htargets (settled_iff.2 rfl)
    | _ => cases h
  · intro h
    cases h with
    | @map members targets entries htargets hentries =>
      rw [← forall₂_congr_of_agrees (hvalues members true rfl)] at htargets
      rw [settled_iff.1 hentries]
      exact bind_eq_ok.2 ⟨_, ofMembers_eq_ok.2 ⟨targets, htargets, rfl⟩, rfl⟩

/-- The payload of a tag is read as what it makes under the tag, if the reader finds in what is
inside it what that denotes. -/
theorem ofPayload_eq_ok {payload : Document}
    (hitems : ∀ items closed, payload = .array items closed → ∀ d ∈ items, Agrees d)
    (hmembers : ∀ members closed, payload = .object members closed → ∀ m ∈ members, Agrees m.2)
    {tag : Tag} {r : Descriptor} : ofPayload tag payload = .ok r ↔ Fits tag payload r := by
  cases tag with
  | string =>
    rw [ofPayload]
    exact readsWritten_string.map_eq_ok_iff_fits (fun h => h ▸ .string _)
      (fun (.string s) => ⟨s, rfl, rfl⟩)
  | number =>
    rw [ofPayload]
    exact readsWritten_string.map_eq_ok_iff_fits (fun h => h ▸ .number _)
      (fun (.number text) => ⟨text, rfl, rfl⟩)
  | binary =>
    rw [ofPayload]
    exact readsWritten_bytes.map_eq_ok_iff_fits (fun h => h ▸ .binary _)
      (fun (.binary bytes) => ⟨bytes, rfl, rfl⟩)
  | stringSet =>
    rw [ofPayload]
    exact readsWritten_string.list.map_eq_ok_iff_fits (fun h => h ▸ .stringSet _)
      (fun (.stringSet members) => ⟨members, rfl, rfl⟩)
  | numberSet =>
    rw [ofPayload]
    exact readsWritten_member.array.map_eq_ok_iff_fits (fun ⟨_, he, h⟩ => he ▸ .numberSet h)
      (fun (.numberSet h) => ⟨_, ⟨_, rfl, h⟩, rfl⟩)
  | binarySet =>
    rw [ofPayload]
    exact readsWritten_bytes.list.map_eq_ok_iff_fits (fun h => h ▸ .binarySet _)
      (fun (.binarySet members) => ⟨members, rfl, rfl⟩)
  | bool => exact ofPayload_bool_eq_ok
  | null => exact ofPayload_null_eq_ok
  | list => exact ofPayload_list_eq_ok hitems
  | map => exact ofPayload_map_eq_ok hmembers

/-- What is inside a document is read as what it denotes. Inside of an array are its items, inside
of an object the targets of its members. -/
def AgreesInside (d : Document) : Prop :=
  (∀ items closed, d = .array items closed → ∀ i ∈ items, Agrees i) ∧
    ∀ members closed, d = .object members closed → ∀ m ∈ members, Agrees m.2

/-- A document is read as what it denotes if the payload that it may have is so inside. -/
theorem agrees_of_payload {d : Document}
    (h : ∀ key payload, d = .record [(key, payload)] → AgreesInside payload) : Agrees d := by
  intro r
  rw [ofDocument_eq_ok]
  constructor
  · rintro ⟨tag, payload, rfl, hread⟩
    obtain ⟨hitems, hmembers⟩ := h tag.text payload rfl
    exact .tagged ((ofPayload_eq_ok hitems hmembers).1 hread)
  · intro hdenotes
    cases hdenotes with
    | @tagged tag payload _ hfits =>
      obtain ⟨hitems, hmembers⟩ := h tag.text payload rfl
      exact ⟨tag, payload, rfl, (ofPayload_eq_ok hitems hmembers).2 hfits⟩

/-- **Documents.** The reader finds in every document what it denotes, and nothing in the others.
What a payload holds is two steps below its document, so the induction carries along what is
inside a document together with the document. For everything but lists and maps nothing is used of
what is inside. -/
theorem agrees (d : Document) : Agrees d := by
  have hboth : Agrees d ∧ AgreesInside d := by
    induction d using Document.induction with
    | plain d hplain =>
      refine ⟨agrees_of_payload fun key payload he => ?_, fun items closed he => ?_,
        fun members closed he => ?_⟩
      all_goals
        rw [he] at hplain
        cases hplain
    | array items closed ih =>
      refine ⟨agrees_of_payload fun key payload he => ?_, fun items' closed' he => ?_,
        fun members closed he => ?_⟩
      · cases he
      · cases he
        exact fun i hi => (ih i hi).1
      · cases he
    | object members closed ih =>
      refine ⟨agrees_of_payload fun key payload he => ?_, fun items closed he => ?_,
        fun members' closed' he => ?_⟩
      · cases he
        exact (ih (key, payload) List.mem_cons_self).2
      · cases he
      · cases he
        exact fun m hm => (ih m hm).1
  exact hboth.1

/-! ## Texts -/

/-- **The texts of descriptors.** A well-formed text is read as a descriptor just when its
document denotes one, and it is read as that one. It is stated of the texts of a document and not
of the document alone, so that how a text is spelled is covered as well. The depth is bounded
since a reader of JSON refuses what is deeper, whatever it would denote. -/
theorem read_eq_ok_iff_denotes {d : Document} {s : String} (htext : Json.IsTextOf d s)
    (hdepth : d.depth ≤ 127) (r : Descriptor) : read s = .ok r ↔ Denotes d r := by
  rw [read, scanText_of_isTextOf htext hdepth, ← agrees d r]
  dsimp only
  rw [bind_eq_ok]
  simp [ifClosed]

/-- A map with blanks in its text, with an escape, and with a key that comes twice. -/
def spaced : String :=
  "\x7b\"M\" : \x7b\"a\":\x7b\"S\":\"\\u0062\"\x7d, \"a\":\x7b\"NULL\":true\x7d\x7d\x7d"

/-- The document of that text. -/
def spacedDocument : Document :=
  .record [("M", .record [("a", .record [("S", .string "b")]),
    ("a", .record [("NULL", .bool true)])])]

theorem isTextOf_spaced : IsTextOf spacedDocument spaced := by
  have hunit : SpellsUnit ['\\', 'u', '0', '0', '6', '2'] 'b'.toNat :=
    .mk (i := 0) (j := 0) (k := 6) (l := 2) (by decide) (by decide) (by decide) (by decide)
  have hb : Spells (.string "b") "\"\\u0062\"".toList := .string ⟨_, .unit hunit .nil, rfl⟩
  have hletter := @Spells.record [⟨"S", .bare "\"S\"".toList, _, .bare _⟩] (by decide)
    (List.forall_mem_singleton.2 (spellsString_stringText "S")) (List.forall_mem_singleton.2 hb)
  have hnull : Spells (.record [("NULL", .bool true)]) "\x7b\"NULL\":true\x7d".toList :=
    (Document.WellWritten.single (.bool true) "NULL").spells
  have hpair := @Spells.record
    [⟨"a", .bare "\"a\"".toList, _, .bare _⟩,
      ⟨"a", ⟨[' '], "\"a\"".toList, [], by decide, by decide⟩, _, .bare _⟩] (by decide)
    (List.forall_mem_cons.2 ⟨spellsString_stringText "a",
      List.forall_mem_singleton.2 (spellsString_stringText "a")⟩)
    (List.forall_mem_cons.2 ⟨hletter, List.forall_mem_singleton.2 hnull⟩)
  have hmap := @Spells.record
    [⟨"M", ⟨[], "\"M\"".toList, [' '], by decide, by decide⟩, _,
      ⟨[' '], _, [], by decide, by decide⟩⟩] (by decide)
    (List.forall_mem_singleton.2 (spellsString_stringText "M")) (List.forall_mem_singleton.2 hpair)
  exact ⟨.bare _, rfl, hmap⟩

theorem spaced_is_read : IsTextOf spacedDocument spaced ∧ spacedDocument.depth ≤ 127 ∧
    read spaced = .ok (.map [("a", .null)]) := by
  have hletter : Denotes (.record [("S", .string "b")]) (.string "b") := .tagged (.string "b")
  have hnull : Denotes (.record [("NULL", .bool true)]) .null := .tagged .nullTrue
  have hmap : Fits .map (.record [("a", .record [("S", .string "b")]),
      ("a", .record [("NULL", .bool true)])]) (.map [("a", .null)]) :=
    .map (.cons hletter (.cons hnull .nil)) (settled_iff.2 rfl)
  have hdenotes : Denotes spacedDocument (.map [("a", .null)]) := .tagged hmap
  exact ⟨isTextOf_spaced, by decide,
    (read_eq_ok_iff_denotes isTextOf_spaced (by decide) _).2 hdenotes⟩

/-- The largest double by its shortest digits, and by others that are as near to it. With these
the shorter computation goes beyond the largest double, so they are refused. -/
theorem largest_is_refused :
    Number.SpellsLexeme ⟨false, ['1'], some "7976931348623158".toList, some 308⟩
        "1.7976931348623158e308".toList ∧
      (Decimal.nearest 17976931348623158 292).isFinite = true ∧
      Decimal.nearest 17976931348623158 292 = Decimal.nearest 17976931348623157 292 ∧
      (∀ d, read "\x7b\"NS\":[1.7976931348623158e308]\x7d" ≠ .ok d) ∧
      ((read "\x7b\"NS\":[1.7976931348623157e308]\x7d").map wire).toOption =
        some "\x7b\"NS\":[1.7976931348623157e+308]\x7d" := by
  have hdigits : Number.AreDigits ['3', '0', '8'] := by decide
  have hspelled : Number.SpellsLexeme ⟨false, ['1'], some "7976931348623158".toList, some 308⟩
      "1.7976931348623158e308".toList :=
    .mk (by decide) (by decide) (.present (by decide))
      (.plain (.inl rfl) hdigits)
  have hnone : (read "\x7b\"NS\":[1.7976931348623158e308]\x7d").toOption.isNone = true := by
    decide +kernel
  refine ⟨hspelled, by decide +kernel, by decide +kernel, fun d hd => ?_, by decide +kernel⟩
  rw [hd] at hnone
  cases hnone

end Descriptor

end ItemStore
