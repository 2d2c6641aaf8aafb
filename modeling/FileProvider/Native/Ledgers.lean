import FileProvider.Native.LedgerTexts

/-!
# Ledgers are read back

A ledger is read of its value: every check that `fromDump` makes passes where the ledger is rooted,
but for those of the profiles and the times, which have to be read as they were written. The ledgers
of the older schemas are values with fewer members, and are read in the same way.

`Stable` is the condition on profiles and times, and the theorem is an equivalence, so it also says
which ledgers are not given back. The sample is the ledger of one author who made one change.
-/

namespace FileProvider

open Bytes Fallible Native

/-! ## A ledger is read of its value -/

namespace Authorship

variable {E : NativeLibraries} {a : Authorship} {r : AuthorRecord} {schema : Int}

/-- A record that is read as it is written: its profile and its times stay as they are. -/
structure AuthorRecord.Stable (E : NativeLibraries) (r : AuthorRecord) : Prop where
  profile : ∃ author, FileAuthor.fromJsonText E r.profile = some author ∧ author.profile = r.profile
  first : timestamp r.firstChangedAt = .ok r.firstChangedAt
  last : timestamp r.lastChangedAt = .ok r.lastChangedAt

/-- A ledger whose profiles and times stay as they are. -/
structure Stable (E : NativeLibraries) (a : Authorship) : Prop where
  records : ∀ r ∈ a.authors, AuthorRecord.Stable E r
  modifiedAt : a.modifiedAt = [] ∨ timestamp a.modifiedAt = .ok a.modifiedAt

/-- A profile that stays as it is belongs to the author of the record. -/
theorem AuthorRecord.Rooted.keyFor_eq (h : AuthorRecord.Rooted E r) {author : FileAuthor}
    (hread : FileAuthor.fromJsonText E r.profile = some author)
    (hprofile : author.profile = r.profile) : keyFor E author = r.key := by
  obtain ⟨author', hmade, hprofile', hkey⟩ := h
  have hsame : author = author' :=
    FileAuthor.Made.eq_of_profile ⟨_, hread⟩ hmade (hprofile.trans hprofile'.symm)
  rw [hsame, hkey]

/-! ### Members -/

/-- An object with allowed keys only passes the check of keys. -/
theorem keys_object {members : List (Bytes × Json)} {allowed : List Bytes}
    (h : ∀ k ∈ members.map (·.1), k ∈ allowed) :
    Native.keys (.object members) allowed = .ok () := by
  refine keys_ok.2 ⟨rfl, fun k hk => h k ?_⟩
  exact Json.contains_object.1 (Option.ne_none_iff_isSome.1 hk)

/-- A text that is there is cleaned as it stands. -/
theorem text_of_member {U : Utf8proc} {value : Json} {name s : Bytes} {maximum : Nat}
    {required multiline : Bool} (h : value.member? name = some (.str s)) :
    Native.text U value name maximum required multiline = clean U s maximum required multiline := by
  unfold Native.text
  rw [h]

/-- A date that is there is read as a time. -/
theorem optionalDate_of_member {value : Json} {name time : Bytes} {required : Bool}
    (h : value.member? name = some (.str time)) :
    optionalDate value name required = timestamp time := by
  unfold optionalDate
  rw [h]

/-- The members of a record's document. -/
theorem record_member {k : Bytes} {j : Json}
    (h : (k, j) ∈ [(ascii "key", Json.str r.key),
      (ascii "author", (E.json.parse r.profile).getD .null),
      (ascii "firstChangedAt", .str r.firstChangedAt),
      (ascii "lastChangedAt", .str r.lastChangedAt)]) :
    (AuthorRecord.json E r).member? k = some j := by
  refine Json.member?_object ?_ h
  show [ascii "key", ascii "author", ascii "firstChangedAt", ascii "lastChangedAt"].Nodup
  decide

/-- What it takes to read a record behind others. The record is printed with all that is read of it,
so that each check of the reader becomes a fact about the record itself. -/
theorem authorsFrom_record {modifiedAt : Bytes} {before l : List AuthorRecord} {items : List Json}
    (h : AuthorRecord.Rooted E r) :
    authorsFrom E modifiedAt before (AuthorRecord.json E r :: items) = .ok l ↔
      ∃ author first last, FileAuthor.fromJsonText E r.profile = some author ∧
        (r.key = keyFor E author ∧ r.key ∉ before.map (·.key)) ∧
        timestamp r.firstChangedAt = .ok first ∧ timestamp r.lastChangedAt = .ok last ∧
        (order first ≤ order last ∧ order last ≤ order modifiedAt) ∧
        authorsFrom E modifiedAt (before ++ [⟨r.key, author.profile, first, last⟩]) items
          = .ok l := by
  obtain ⟨data, hdata, hparse, hdump⟩ := h.value
  have hkeys : Native.keys (AuthorRecord.json E r)
      [ascii "key", ascii "author", ascii "firstChangedAt", ascii "lastChangedAt"] = .ok () :=
    keys_object fun k hk => hk
  have hauthor : (AuthorRecord.json E r).member (ascii "author") = .ok data := by
    have hmember : (AuthorRecord.json E r).member? (ascii "author")
        = some ((E.json.parse r.profile).getD .null) := record_member (by simp)
    rw [hparse] at hmember
    exact Json.member_of_member? hmember
  have hsnapshot : E.json.dump data = .ok r.profile := orFail_ok.2 hdump
  have hkey : Native.text E.unicode (AuthorRecord.json E r) (ascii "key") 64 true false
      = .ok r.key := by
    obtain ⟨hlength, hplain⟩ := h.key_plain
    rw [text_of_member (record_member List.mem_cons_self)]
    exact clean_plain hplain hlength.le (by rintro hnil; rw [hnil] at hlength; cases hlength)
  have hfirst : optionalDate (AuthorRecord.json E r) (ascii "firstChangedAt") true
      = timestamp r.firstChangedAt := optionalDate_of_member (record_member (by simp))
  have hlast : optionalDate (AuthorRecord.json E r) (ascii "lastChangedAt") true
      = timestamp r.lastChangedAt := optionalDate_of_member (record_member (by simp))
  simp only [authorsFrom, hkeys, hauthor, hsnapshot, hkey, hfirst, hlast, ok_bind, bind_ok,
    orFail_ok, require_ok, exists_const]
  constructor
  · rintro ⟨author, hread, hown, first, hfirst, last, hlast, horder, hrest⟩
    exact ⟨author, first, last, hread, hown, hfirst, hlast, horder, hrest⟩
  · rintro ⟨author, first, last, hread, hown, hfirst, hlast, horder, hrest⟩
    exact ⟨author, hread, hown, first, hfirst, last, hlast, horder, hrest⟩

/-- The authors that were read stay in front. -/
theorem authorsFrom_prefix {modifiedAt : Bytes} {before l : List AuthorRecord} {items : List Json}
    (h : authorsFrom E modifiedAt before items = .ok l) : before <+: l := by
  induction items generalizing before with
  | nil =>
      obtain rfl := pure_ok.1 h
      exact List.prefix_rfl
  | cons item items ih =>
      simp only [authorsFrom, bind_ok] at h
      obtain ⟨_, -, _, -, snapshot, -, author, -, key, -, _, -, first, -, last, -, _, -, h⟩ := h
      exact (List.prefix_append _ _).trans (ih h)

/-- Records are read as they are exactly when each stays as it is. It is an induction on the
records, where the keys read before are generalised, as a record with one of them is refused. -/
theorem authorsFrom_iff {modifiedAt : Bytes} {l before : List AuthorRecord}
    (hrooted : ∀ r ∈ l, AuthorRecord.Rooted E r)
    (htimes : ∀ r ∈ l, AuthorRecord.Ordered modifiedAt r)
    (hnodup : ((before ++ l).map (·.key)).Nodup) :
    authorsFrom E modifiedAt before (l.map (AuthorRecord.json E)) = .ok (before ++ l) ↔
      ∀ r ∈ l, AuthorRecord.Stable E r := by
  induction l generalizing before with
  | nil =>
      rw [List.append_nil]
      exact iff_of_true rfl (List.forall_mem_nil _)
  | cons r l ih =>
      obtain ⟨hr, hl⟩ := List.forall_mem_cons.1 hrooted
      obtain ⟨hordered, htimes⟩ := List.forall_mem_cons.1 htimes
      have hnew : r.key ∉ before.map (·.key) := by
        rw [List.map_append] at hnodup
        intro hmem
        exact (List.nodup_append'.1 hnodup).2.2 hmem (List.mem_map_of_mem List.mem_cons_self)
      rw [List.append_cons] at hnodup ⊢
      rw [List.map_cons, authorsFrom_record hr, List.forall_mem_cons, ← ih hl htimes hnodup]
      constructor
      · rintro ⟨author, first, last, hread, -, hfirst, hlast, -, hrest⟩
        -- the record that was read is the one that is behind the others
        obtain ⟨rest, hprefix⟩ := authorsFrom_prefix hrest
        rw [List.append_assoc, List.append_assoc, List.append_cancel_left_eq] at hprefix
        have hsame : (⟨r.key, author.profile, first, last⟩ : AuthorRecord) = r :=
          (List.cons.inj hprefix).1
        rw [hsame] at hrest
        refine ⟨⟨⟨author, hread, congrArg AuthorRecord.profile hsame⟩, ?_, ?_⟩, hrest⟩
        · exact hfirst.trans (congrArg Except.ok (congrArg AuthorRecord.firstChangedAt hsame))
        · exact hlast.trans (congrArg Except.ok (congrArg AuthorRecord.lastChangedAt hsame))
      · rintro ⟨⟨⟨author, hread, hprofile⟩, hfirst, hlast⟩, hrest⟩
        refine ⟨author, r.firstChangedAt, r.lastChangedAt, hread,
          ⟨(hr.keyFor_eq hread hprofile).symm, hnew⟩, hfirst, hlast,
          ⟨hordered.last, hordered.modified⟩, ?_⟩
        rw [hprofile]
        exact hrest

end Authorship

/-! ### The parts of a ledger -/

namespace Authorship

variable {E : NativeLibraries} {a : Authorship} {schema : Int}

/-- A member of the value of a ledger. -/
theorem json_member? {k : Bytes} {j : Json} (h : (k, j) ∈ members E schema a) :
    (a.json E schema).member? k = some j :=
  Json.member?_object (by rw [members_keys]; exact schemaKeys_nodup schema) h

/-- The members of a ledger's document. -/
theorem json_member {k : Bytes} {j : Json} (h : (k, j) ∈ members E schema a) :
    (a.json E schema).member k = .ok j := Json.member_of_member? (json_member? h)

/-- The document names its schema. -/
theorem json_version : (a.json E schema).member (ascii "schemaVersion") = .ok (.int schema) :=
  json_member (by simp [members])

/-- The number of a schema is read back. -/
theorem getInt32_schema (h : 1 ≤ schema ∧ schema ≤ 3) :
    (Json.int schema).getInt32 = .ok schema := by
  rw [Json.getInt32]
  congr 1
  omega

/-- The revision is read back. -/
theorem revisionOf_json : revisionOf E (a.json E schema) = .ok a.revision := by
  have htext : Native.text E.unicode (a.json E schema) (ascii "revision") 20 true false
      = .ok (decimal a.revision.toNat) := by
    rw [text_of_member (json_member? (j := .str (decimal a.revision.toNat)) (by simp [members]))]
    have hlt := a.revision.toNat_lt
    refine clean_plain (fun b hb => ?_) (length_decimal (by omega) (by omega)) (decimal_ne_nil _)
    have hdigit := digit_of_mem_decimal hb
    omega
  simp only [revisionOf, htext, ok_bind, bind_ok, require_ok, pure_ok, exists_const,
    number_decimal]
  refine ⟨?_, a.revision.toNat_lt, UInt64.ofNat_toNat⟩
  exact (decimal_front _).imp_right fun hfront => ⟨isDigit_decimal _, hfront⟩

/-- The time of the last change is read back when it is empty or one that was accepted. -/
theorem optionalDate_json (h : Rooted E a) :
    optionalDate (a.json E schema) (ascii "modifiedAt") (a.revision ≠ 0) = .ok a.modifiedAt ↔
      a.modifiedAt = [] ∨ timestamp a.modifiedAt = .ok a.modifiedAt := by
  have hmember : (a.json E schema).member? (ascii "modifiedAt") = some (dateValue a.modifiedAt) :=
    json_member? (by simp [members])
  by_cases hnil : a.modifiedAt = []
  · have hzero : a.revision = 0 := not_not.1 fun hrevision => h.changed hrevision hnil
    have hdate : optionalDate (a.json E schema) (ascii "modifiedAt") (a.revision ≠ 0) = .ok [] := by
      unfold optionalDate
      rw [hmember, hnil, hzero]
      rfl
    rw [hdate, hnil]
    exact iff_of_true rfl (.inl rfl)
  · rw [dateValue, if_neg hnil] at hmember
    rw [optionalDate_of_member hmember]
    exact (or_iff_right hnil).symm

/-- The last author is read back, as it is one of the records or none. -/
theorem lastAuthorOf_json (h : Rooted E a) :
    lastAuthorOf (a.json E schema) a.authors = .ok a.lastAuthor := by
  have hmember : (a.json E schema).member (ascii "lastAuthor") = .ok (dateValue a.lastAuthor) :=
    json_member (by simp [members])
  unfold lastAuthorOf
  rw [hmember, ok_bind]
  by_cases hnil : a.lastAuthor = []
  · rw [dateValue, if_pos hnil, hnil]
    rfl
  · rw [dateValue, if_neg hnil]
    simp only [bind_ok, require_ok, pure_ok]
    exact ⟨(), h.lastAuthor.resolve_left hnil, trivial⟩

/-- A created link is read back. -/
theorem linkFrom_json {l : FileLink} (h : l.Created E) : linkFrom E l.json = .ok l := by
  have hmember : ∀ {k : Bytes} {j : Json},
      (k, j) ∈ [(ascii "name", Json.str l.name), (ascii "url", .str l.url)] →
      l.json.member k = .ok j := by
    intro k j hm
    refine Json.member_object ?_ hm
    show [ascii "name", ascii "url"].Nodup
    decide
  have hkeys : Native.keys l.json [ascii "name", ascii "url"] = .ok () := keys_object fun k hk => hk
  have hname : l.json.member (ascii "name") = .ok (.str l.name) := hmember (by simp)
  have hurl : l.json.member (ascii "url") = .ok (.str l.url) := hmember (by simp)
  simp only [linkFrom, hkeys, hname, hurl, ok_bind, Json.getStr, orFail_ok]
  exact h.create

/-- What is read of the links of a ledger, in the form of a schema. -/
theorem linksOf_json (h : Rooted E a) :
    linksOf E schema (a.json E schema) = .ok (a.asRead schema).links := by
  unfold linksOf asRead
  split
  · next hschema =>
      have hmember : (a.json E schema).member (ascii "links")
          = .ok (.arr (a.links.map FileLink.json)) := json_member (by simp [members, hschema])
      have hmap : (a.links.map FileLink.json).mapM (linkFrom E) = .ok a.links := by
        rw [mapM_ok, List.map_map]
        exact List.map_congr_left fun l hl => linkFrom_json (h.links l hl)
      simp only [linksFrom, hmember, ok_bind, Json.getElements, bind_ok, require_ok, hmap,
        List.length_map]
      exact ⟨(), h.linkCount, validatedLinks_created h.links h.distinct h.linkCount⟩
  · next hschema => rfl

/-- What is read of a rooted ledger is rooted. -/
theorem Rooted.asRead (h : Rooted E a) (schema : Int) : Rooted E (a.asRead schema) := by
  unfold Authorship.asRead
  split
  · exact { h with activeAuthor := .inl rfl }
  · exact { h with
      activeAuthor := .inl rfl
      blank := h.blank.imp_right fun hblank => ⟨hblank.1, rfl, hblank.2.2⟩
      links := List.forall_mem_nil _
      distinct := List.nodup_nil
      linkCount := Nat.zero_le _ }

/-- A ledger that is read has no longer a text. -/
theorem length_asRead (a : Authorship) (schema : Int) :
    (a.asRead schema).text.length ≤ a.text.length := by
  unfold asRead
  split
  · exact le_rfl
  · simp only [text, List.length_append]
    rw [show commas (([] : List FileLink).map linkText) = [] from rfl]
    simp only [List.length_nil, keys]
    omega

/-- The roles that a ledger names are those of the ledger that is read. -/
theorem rolesAgree_json (h : Rooted E a) :
    rolesAgree E schema (a.json E schema) (a.asRead schema).text = .ok () := by
  unfold rolesAgree
  split
  · next hschema =>
      have hroles : ∀ {k : Bytes} {j : Json}, (k, j) ∈ [(ascii "firstEditor",
          dateValue (a.keys.headD [])), (ascii "participants", .arr (a.keys.tail.map Json.str))] →
          (a.json E schema).member k = .ok j ∧
            ((a.asRead schema).json E 3).member? k = some j := by
        intro k j hm
        refine ⟨json_member ?_, json_member? ?_⟩
        · unfold members
          rw [if_pos hschema]
          exact List.mem_append_left _ (List.mem_append_right _ hm)
        · exact List.mem_append_left _ (List.mem_append_right _ hm)
      obtain ⟨hfirst, hfirst'⟩ := hroles List.mem_cons_self
      obtain ⟨hparticipants, hparticipants'⟩ := hroles (List.mem_cons_of_mem _ List.mem_cons_self)
      rw [(h.asRead schema).parse_text, ok_bind, hfirst, hparticipants, ok_bind, ok_bind,
        hfirst', hparticipants', require_ok]
      exact ⟨Json.equal_refl _, Json.equal_refl _⟩
  · rfl

/-! ### The whole ledger -/

/-- **A ledger in the form of a schema is read as it is exactly when it is stable.** -/
theorem fromDump_json (hsound : Sound a) (h : Rooted E a) (hschema : 1 ≤ schema ∧ schema ≤ 3)
    {bytes : Bytes} (hdump : E.json.dump (a.json E schema) = .ok bytes)
    (hlength : bytes.length ≤ (schemaLimit schema).getD maximumBytes) :
    fromDump E bytes = some (a.asRead schema) ↔ a.Stable E := by
  have hparse : E.json.parseText bytes = .ok (a.json E schema) :=
    JsonLibrary.parseText_of_dump (h.canonical_json hschema) hdump
  have hlist : (a.json E schema).member (ascii "authors")
      = .ok (.arr (a.authors.map (AuthorRecord.json E))) := json_member (by simp [members])
  have hauthors := @authorsFrom_iff E a.modifiedAt a.authors [] h.authors hsound.times hsound.nodup
  rw [List.nil_append] at hauthors
  rw [fromDump_eq_some, ofDump_ok]
  constructor
  · rintro ⟨value, version, items, hreads⟩
    obtain rfl : a.json E schema = value := Except.ok.inj (hparse.symm.trans hreads.parse)
    obtain ⟨list, hmember, helements⟩ := hreads.list
    obtain rfl := Except.ok.inj (hlist.symm.trans hmember)
    obtain rfl := Except.ok.inj helements
    exact ⟨hauthors.1 hreads.authors, (optionalDate_json h).1 hreads.modifiedAt⟩
  · intro hstable
    refine ⟨a.json E schema, schema, a.authors.map (AuthorRecord.json E), ?_, hparse,
      ⟨_, json_version, getInt32_schema hschema, Json.equal_refl _⟩, hschema, ?_, ?_,
      revisionOf_json, (optionalDate_json h).2 hstable.modifiedAt, ⟨_, hlist, rfl⟩, ?_,
      hauthors.2 hstable.records, lastAuthorOf_json h, linksOf_json h, (h.asRead schema).blank,
      (length_asRead a schema).trans hsound.size, rolesAgree_json h, rfl, rfl⟩
    · refine hlength.trans ?_
      unfold schemaLimit maximumBytes
      split
      · decide
      · split
        · decide
        · exact le_rfl
    · unfold withinLimit
      split
      · next limit hlimit =>
          rw [hlimit] at hlength
          rw [hdump, ok_bind, require_ok]
          exact hlength
      · rfl
    · refine keys_object fun k hk => ?_
      rwa [members_keys] at hk
    · rw [List.length_map]
      exact hsound.count

end Authorship

/-! ## Whole runs -/

namespace Authorship

section
variable (E : NativeLibraries)

/-- The author who made the first change. -/
def firstEditor (a : Authorship) : Option FileAuthor :=
  a.authors.head?.bind fun r => FileAuthor.fromJsonText E r.profile

/-- The other authors, where each of their profiles is read. -/
def participants (a : Authorship) : Option (List FileAuthor) :=
  a.authors.tail.mapM fun r => FileAuthor.fromJsonText E r.profile

end

variable {E : NativeLibraries} {a : Authorship}

/-- In the present schema a sound ledger is read as itself without its active author. -/
theorem asRead_three (hsound : Sound a) : a.asRead 3 = { a with activeAuthor := [] } := by
  have hread : a.asRead 3 = { a with activeAuthor := [], dump := a.text } := rfl
  rw [hread, ← hsound.text]

/-- The authors of a stable ledger are read of their profiles. The profiles are read one by one, and
the first editor and the participants are the head and the tail of what they give. -/
theorem Stable.roster (h : Stable E a) (hrooted : Rooted E a) : ∃ authors : List FileAuthor,
    authors.map (keyFor E) = a.keys ∧ authors.map (·.profile) = a.authors.map (·.profile) ∧
    firstEditor E a = authors.head? ∧ participants E a = some authors.tail := by
  have hread : ∀ l : List AuthorRecord, (∀ r ∈ l, AuthorRecord.Rooted E r) →
      (∀ r ∈ l, AuthorRecord.Stable E r) → ∃ authors : List FileAuthor,
      authors.map (keyFor E) = l.map (·.key) ∧ authors.map (·.profile) = l.map (·.profile) ∧
      (l.mapM fun r => FileAuthor.fromJsonText E r.profile) = some authors := by
    intro l hroots hstable
    induction l with
    | nil => exact ⟨[], rfl, rfl, rfl⟩
    | cons r l ih =>
        obtain ⟨hr, hl⟩ := List.forall_mem_cons.1 hroots
        obtain ⟨⟨⟨author, hauthor, hprofile⟩, -, -⟩, hrest⟩ := List.forall_mem_cons.1 hstable
        obtain ⟨authors, hkeys, hprofiles, hmap⟩ := ih hl hrest
        refine ⟨author :: authors, ?_, ?_, ?_⟩
        · rw [List.map_cons, List.map_cons, hkeys, hr.keyFor_eq hauthor hprofile]
        · rw [List.map_cons, List.map_cons, hprofiles, hprofile]
        · rw [List.mapM_cons, hauthor, hmap]
          rfl
  obtain ⟨authors, hkeys, hprofiles, hmap⟩ := hread a.authors hrooted.authors h.records
  refine ⟨authors, hkeys, hprofiles, ?_, ?_⟩
  all_goals
    simp only [firstEditor, participants]
    cases hauthors : a.authors with
    | nil =>
        rw [hauthors] at hmap
        obtain rfl := Option.some.inj hmap
        rfl
    | cons r l =>
        rw [hauthors, List.mapM_cons] at hmap
        simp only [Option.bind_eq_bind, Option.bind_eq_some_iff, Option.pure_def,
          Option.some.injEq] at hmap
        obtain ⟨author, hauthor, rest, hrest, rfl⟩ := hmap
        assumption

/-- **Ledgers are read back.** The text of every ledger a program comes to, by authors that were
read from some text, is the text of its value. It is read as the ledger it was written of, without
an active author, exactly when every profile and every time in it stays as it is; so are the forms
of the older schemas, where these are not too long, without the links. The authors of such a ledger
are all given back. -/
theorem ledgers_readBack {start : Authorship} {calls : List (AuthorshipCall × Fallible Bool)}
    (hstart : Native E start) (hcalls : ∀ e ∈ calls, ∀ author ∈ e.1.author?, author.Made E)
    (h : Run (Step E) start calls a) :
    (E.json.dump (a.json E 3) = .ok a.dump ∧ E.json.parseText a.dump = .ok (a.json E 3)) ∧
    (fromDump E a.dump = some { a with activeAuthor := [] } ↔ a.Stable E) ∧
    (∀ schema bytes, 1 ≤ schema ∧ schema ≤ 3 → E.json.dump (a.json E schema) = .ok bytes →
      bytes.length ≤ (schemaLimit schema).getD maximumBytes →
      (fromDump E bytes = some (a.asRead schema) ↔ a.Stable E)) ∧
    (a.Stable E → ∃ authors : List FileAuthor, authors.map (keyFor E) = a.keys ∧
      authors.map (·.profile) = a.authors.map (·.profile) ∧
      firstEditor E a = authors.head? ∧ participants E a = some authors.tail) := by
  obtain ⟨hsound, hrooted⟩ := rooted_of_run hstart h hcalls
  have hdump : E.json.dump (a.json E 3) = .ok a.dump := by
    rw [hsound.text]
    exact orFail_ok.2 hrooted.dump_json
  refine ⟨⟨hdump, ?_⟩, ?_, fun schema bytes hschema hbytes hlength =>
    fromDump_json hsound hrooted hschema hbytes hlength, fun hstable => hstable.roster hrooted⟩
  · rw [hsound.text]
    exact hrooted.parse_text
  · have hread := @fromDump_json E a 3 hsound hrooted ⟨by omega, le_rfl⟩ _ hdump
    rw [asRead_three hsound, hsound.text] at hread
    rw [hsound.text]
    exact hread hsound.size

/-! ### A ledger that is read back -/

/-- A profile with nothing but what it needs. -/
def writerText : Bytes :=
  ascii "\x7b\"account\":\x7b\"email\":\"a@b.c\",\"sub\":\"a\"\x7d," ++
    ascii "\"capturedAt\":\"2024-05-01T00:00:00Z\",\"schemaVersion\":1," ++
    ascii "\"serviceOrigin\":\"https://a.b\"\x7d"

/-- The author of this profile. -/
def writer : FileAuthor := (FileAuthor.fromJsonText .reference writerText).getD sampleAuthor

/-- The author of the sample is made by a constructor. -/
theorem writer_made : writer.Made .reference := ⟨writerText, by decide +kernel⟩

/-- What the sample calls. -/
def writerCall : AuthorshipCall := .setAuthor writer (ascii "2024-05-01T00:00:00.5+01:00")

/-- The ledger that a call makes of an empty one. -/
def firstLedger (c : AuthorshipCall) : Authorship := (perform .reference c empty []).2.1

/-- The first ledger of the sample is the result of a call. -/
theorem Step.firstLedger {c : AuthorshipCall} {r : Fallible Bool}
    (h : (perform .reference c empty []).1 = r) :
    Step .reference empty (c, r) (firstLedger c) := Step.of_result h

/-- The ledger of one author is read back from its text. -/
theorem ledgers_readBack_sample : fromDump .reference (firstLedger writerCall).dump
    = some { firstLedger writerCall with activeAuthor := [] } := by
  have hcomputed : (perform .reference writerCall empty []).1.toOption = some true ∧
      (∀ r ∈ (firstLedger writerCall).authors,
        (FileAuthor.fromJsonText .reference r.profile).map (·.profile) = some r.profile ∧
        (timestamp r.firstChangedAt).toOption = some r.firstChangedAt ∧
        (timestamp r.lastChangedAt).toOption = some r.lastChangedAt) ∧
      (timestamp (firstLedger writerCall).modifiedAt).toOption
        = some (firstLedger writerCall).modifiedAt := by
    decide +kernel
  obtain ⟨hresult, hprofiles, hmodified⟩ := hcomputed
  have hstep : Step .reference empty (writerCall, .ok true) (firstLedger writerCall) :=
    .firstLedger (toOption_eq_some.1 hresult)
  have hcalls : ∀ e ∈ [((writerCall, .ok true) : AuthorshipCall × Fallible Bool)],
      ∀ author ∈ e.1.author?, author.Made .reference := by
    intro e he author hauthor
    obtain rfl := List.mem_singleton.1 he
    obtain rfl := Option.some.inj hauthor
    exact writer_made
  have hstable : (firstLedger writerCall).Stable .reference := by
    refine ⟨fun r hr => ?_, .inr (toOption_eq_some.1 hmodified)⟩
    obtain ⟨hprofile, hfirst, hlast⟩ := hprofiles r hr
    exact ⟨Option.map_eq_some_iff.1 hprofile, toOption_eq_some.1 hfirst, toOption_eq_some.1 hlast⟩
  exact (ledgers_readBack (.inl rfl) hcalls (.cons hstep (.nil _))).2.1.2 hstable

end Authorship

end FileProvider
