import FileProvider.Native.Canonical
import FileProvider.Native.Instants
import FileProvider.Native.Links

/-!
# The texts of ledgers

The text of a ledger is written by hand and read by a JSON parser. `Authorship.json` is the value
that the text stands for, and what both sides meet at. `Rooted` says where the parts of a ledger
come from: it holds of every ledger a program comes to, and with it the text of a ledger is the text
of its value.

The text is compared with the text of its value piece by piece, in the order in which the source
writes it. `Rooted` asks of an author that the profile was read from some text and of a time that
`timestamp` wrote it; both are kept because the calls copy such parts and make no others.
-/

namespace FileProvider

open Bytes Fallible Native

/-! ## The texts of values -/

namespace Authorship

variable {realText : Double → Bytes}

/-- The ledger's own escaping of a byte is that of the library. -/
theorem quoteByte_eq (c : UInt8) : quoteByte c = Json.escapeByte c := by
  have hcontrol : c < 0x20 ↔ c.toNat ≤ 0x1F := by
    rw [UInt8.lt_iff_toNat_lt, show (0x20 : UInt8).toNat = 32 from rfl]
    omega
  unfold quoteByte Json.escapeByte
  rw [show ascii "\\u00" = [92, 117, 48, 48] from rfl]
  simp only [hcontrol]
  grind

/-- The text of a string is the string in quotes. -/
theorem dump_str {s : Bytes} (h : Json.validUtf8 s = true) :
    Json.dump realText (.str s) = some (quote s) := by
  have hbytes : s.flatMap quoteByte = s.flatMap Json.escapeByte :=
    congrArg (List.flatMap · s) (funext quoteByte_eq)
  rw [Json.dump, Json.dumpString, if_pos h, quote, hbytes]

/-- ASCII is valid UTF-8. -/
theorem validUtf8_plain {s : Bytes} (h : s.all (·.toNat < 0x80) = true) :
    Json.validUtf8 s = true := by
  have hplain := Json.validUtf8_append (p := s) (s := []) h
  rwa [List.append_nil] at hplain

/-- The same, stated byte by byte. -/
theorem validUtf8_of_lt {s : Bytes} (h : ∀ b ∈ s, b.toNat < 0x80) : Json.validUtf8 s = true :=
  validUtf8_plain (List.all_eq_true.2 fun b hb => decide_eq_true (h b hb))

/-- The text of an array is the texts of its elements with commas between them. -/
theorem dump_arr {α : Type} {l : List α} {value : α → Json} {text : α → Bytes}
    (h : ∀ x ∈ l, Json.dump realText (value x) = some (text x)) :
    Json.dump realText (.arr (l.map value)) = some (91 :: commas (l.map text) ++ [93]) := by
  have hrest : ∀ l : List α, (∀ x ∈ l, Json.dump realText (value x) = some (text x)) →
      Json.dumpElements realText (l.map value)
        = some ((l.map text).flatMap (44 :: ·) ++ [93]) := by
    intro l h
    induction l with
    | nil => rfl
    | cons x l ih =>
        obtain ⟨hx, hl⟩ := List.forall_mem_cons.1 h
        rw [List.map_cons, Json.dumpElements, hx, ih hl]
        simp
  cases l with
  | nil => rfl
  | cons x l =>
      obtain ⟨hx, hl⟩ := List.forall_mem_cons.1 h
      rw [List.map_cons, Json.dump, hx, hrest l hl]
      simp [commas]

/-- The text of an object is the texts of its members with commas between them. -/
theorem dump_obj (realText : Double → Bytes) (first : Bytes × Json × Bytes)
    (entries : List (Bytes × Json × Bytes))
    (h : ∀ e ∈ first :: entries,
      Json.validUtf8 e.1 = true ∧ Json.dump realText e.2.1 = some e.2.2) :
    Json.dump realText (.obj ((first :: entries).map fun e => (e.1, e.2.1)))
      = some (123 :: commas ((first :: entries).map fun e => quote e.1 ++ 58 :: e.2.2)
        ++ [125]) := by
  have hname : ∀ {k : Bytes}, Json.validUtf8 k = true → Json.dumpString k = some (quote k) := by
    intro k hk
    have hdump : Json.dump realText (.str k) = some (quote k) := dump_str hk
    rwa [Json.dump] at hdump
  have hrest : ∀ l : List (Bytes × Json × Bytes),
      (∀ e ∈ l, Json.validUtf8 e.1 = true ∧ Json.dump realText e.2.1 = some e.2.2) →
      Json.dumpMembers realText (l.map fun e => (e.1, e.2.1))
        = some ((l.map fun e => quote e.1 ++ 58 :: e.2.2).flatMap (44 :: ·) ++ [125]) := by
    intro l h
    induction l with
    | nil => rfl
    | cons e l ih =>
        obtain ⟨⟨hkey, hvalue⟩, hl⟩ := List.forall_mem_cons.1 h
        rw [List.map_cons, Json.dumpMembers, hname hkey, hvalue, ih hl]
        simp
  obtain ⟨⟨hkey, hvalue⟩, hl⟩ := List.forall_mem_cons.1 h
  rw [List.map_cons, Json.dump, hname hkey, hvalue, hrest entries hl]
  simp [commas]

end Authorship

/-! ## The value of a ledger -/

/-- The value of a record. -/
def AuthorRecord.json (E : NativeLibraries) (r : AuthorRecord) : Json :=
  .object
    [(ascii "key", .str r.key), (ascii "author", (E.json.parse r.profile).getD .null),
      (ascii "firstChangedAt", .str r.firstChangedAt),
      (ascii "lastChangedAt", .str r.lastChangedAt)]

/-- The value of a link. -/
def FileLink.json (l : FileLink) : Json :=
  .object [(ascii "name", .str l.name), (ascii "url", .str l.url)]

namespace Authorship

variable (E : NativeLibraries)

/-- The members of a ledger in the form of a schema. -/
def members (schema : Int) (a : Authorship) : List (Bytes × Json) :=
  [(ascii "schemaVersion", .int schema), (ascii "revision", .str (decimal a.revision.toNat)),
    (ascii "modifiedAt", dateValue a.modifiedAt),
    (ascii "authors", .arr (a.authors.map (AuthorRecord.json E))),
    (ascii "lastAuthor", dateValue a.lastAuthor)]
    ++ (if 2 ≤ schema then
      [(ascii "firstEditor", dateValue (a.keys.headD [])),
        (ascii "participants", .arr (a.keys.tail.map .str))] else [])
    ++ (if schema = 3 then [(ascii "links", .arr (a.links.map FileLink.json))] else [])

/-- The value of a ledger in the form of a schema. -/
def json (schema : Int) (a : Authorship) : Json := .object (members E schema a)

/-- What is read of a ledger in the form of a schema: those before the third have no links. -/
def asRead (schema : Int) (a : Authorship) : Authorship :=
  let b := { a with activeAuthor := [], links := if schema = 3 then a.links else [] }
  { b with dump := b.text }

end Authorship


/-! ## Plain texts -/

namespace Native

/-- A text that is nothing but printed ASCII is clean. Such a text is its own composition and has no
spaces to trim, and none of its letters is refused. -/
theorem clean_plain {U : Utf8proc} {s : Bytes} {maximum : Nat} {required multiline : Bool}
    (hplain : ∀ b ∈ s, 0x21 ≤ b.toNat ∧ b.toNat ≤ 0x7E) (hlength : s.length ≤ maximum)
    (hne : s ≠ []) : clean U s maximum required multiline = .ok s := by
  have hencode : ∀ s : Bytes, (∀ b ∈ s, 0x21 ≤ b.toNat ∧ b.toNat ≤ 0x7E) →
      Utf8.encode (s.map fun b => Char.ofNat b.toNat) = s := by
    intro s hs
    induction s with
    | nil => rfl
    | cons b s ih =>
        obtain ⟨hb, hs⟩ := List.forall_mem_cons.1 hs
        rw [List.map_cons, Utf8.encode_cons, Utf8.encode_one (by omega), ih hs]
        rfl
  have hvalue : ∀ c ∈ s.map (fun b => Char.ofNat b.toNat), 0x21 ≤ c.toNat ∧ c.toNat ≤ 0x7E := by
    rintro c hc
    obtain ⟨b, hb, rfl⟩ := List.mem_map.1 hc
    have hbounds := hplain b hb
    rwa [show (Char.ofNat b.toNat).toNat = b.toNat from Utf8.val_ofNat (.inl (by omega))]
  have hs := hencode s hplain
  generalize s.map (fun b => Char.ofNat b.toNat) = points at hs hvalue
  subst hs
  have hspace : ∀ c ∈ points, whitespace c = false := by
    intro c hc
    have hbounds := hvalue c hc
    simp [whitespace, spaceSeparator, lineSeparator]
    omega
  have hfront : ∀ l : List Char, (∀ c ∈ l, whitespace c = false) → l.dropWhile whitespace = l := by
    intro l hl
    cases l with
    | nil => rfl
    | cons c l => exact List.dropWhile_cons_of_neg (by simp [hl c List.mem_cons_self])
  have htrim : trim points = points := by
    unfold trim
    rw [hfront points hspace, hfront points.reverse fun c hc => hspace c (List.mem_reverse.1 hc),
      List.reverse_reverse]
  have hcompose : U.compose points = points := U.compose_ascii points fun c hc => by
    have hbounds := hvalue c hc
    omega
  have hlengths : points.length ≤ (Utf8.encode points).length := by
    have hle : ∀ l : List Char, l.length ≤ (Utf8.encode l).length := by
      intro l
      induction l with
      | nil => exact le_rfl
      | cons c l ih =>
          have hpos := String.length_utf8EncodeChar c
          have hsize := Char.utf8Size_pos c
          rw [Utf8.encode_cons, List.length_append, List.length_cons]
          omega
    exact hle points
  simp only [clean, normalize, scalars, bind_ok, orFail_ok, require_ok, pure_ok,
    Bool.false_eq_true, if_false]
  refine ⟨_, ⟨_, Utf8.scalars_encode _, rfl⟩, _, Utf8.scalars_encode _, (), ?_, (), ?_, ?_⟩
  · rw [hcompose, htrim]
    refine ⟨hlengths.trans hlength, .inr ?_⟩
    rintro rfl
    exact hne rfl
  · rw [hcompose, htrim, List.all_eq_true]
    intro c hc
    have hbounds := hvalue c hc
    simp [printable, control, lineSeparator]
    omega
  · rw [hcompose, htrim]

/-- A printed number consists of digits. -/
theorem isDigit_decimal (n : Nat) : (decimal n).all isDigit = true := by
  refine List.all_eq_true.2 fun b hb => ?_
  have hdigit := digit_of_mem_decimal hb
  simp only [isDigit, Bool.and_eq_true, decide_eq_true_eq, UInt8.le_iff_toNat_le]
  exact hdigit

/-- A decimal text has no zero in front of it. -/
theorem decimal_front (n : Nat) : decimal n = [48] ∨ (decimal n).head? ≠ some 48 := by
  by_contra hnot
  obtain ⟨hne, hhead⟩ := not_or.1 hnot
  obtain ⟨rest, hrest⟩ := List.head?_eq_some_iff.1 (not_not.1 hhead)
  have hdigits := isDigit_decimal n
  have hnumber := number_decimal n
  rw [hrest] at hdigits hnumber hne
  have hsame : number rest = n := hnumber
  have hlt := number_lt (List.all_eq_true.2 fun b hb =>
    List.all_eq_true.1 hdigits b (List.mem_cons_of_mem _ hb))
  have hpos : 0 < rest.length := List.length_pos_iff.2 fun hnil => hne (by rw [hnil])
  have hlength := length_decimal hpos (hsame ▸ hlt)
  rw [hrest, List.length_cons] at hlength
  omega

/-- A printed time consists of ASCII. -/
theorem timeText_lt {instant : Int} : ∀ b ∈ timeText instant, b.toNat < 0x80 := by
  have hdecimal : ∀ n, ∀ b ∈ decimal n, b.toNat < 0x80 := by
    intro n b hb
    have hdigit := digit_of_mem_decimal hb
    omega
  have hpadded : ∀ width n, ∀ b ∈ padded width n, b.toNat < 0x80 := by
    intro width n b hb
    unfold padded at hb
    split at hb
    · rcases List.mem_cons.1 hb with rfl | hb
      · decide
      · rcases List.mem_append.1 hb with hb | hb
        · rw [(List.mem_replicate.1 hb).2]
          decide
        · exact hdecimal _ b hb
    · rcases List.mem_append.1 hb with hb | hb
      · rw [(List.mem_replicate.1 hb).2]
        decide
      · exact hdecimal _ b hb
  intro b hb
  simp only [timeText, List.mem_append, List.mem_cons, List.not_mem_nil, or_false] at hb
  rcases hb with ((((((h | rfl | h) | rfl | h) | rfl | h) | rfl | h) | rfl | h) | rfl | h) | rfl
  all_goals first | exact hpadded _ _ b h | decide

end Native

/-! ## Where a ledger comes from -/

namespace Authorship

variable {E : NativeLibraries} {a b : Authorship} {time : Bytes}

/-- A time that `timestamp` wrote. -/
def Written (time : Bytes) : Prop := ∃ raw, timestamp raw = .ok time

/-- A record of an author that was read from some text. -/
def AuthorRecord.Rooted (E : NativeLibraries) (r : AuthorRecord) : Prop :=
  ∃ author : FileAuthor, author.Made E ∧ author.profile = r.profile ∧ keyFor E author = r.key

/-- What is true of every ledger, beside `Sound`: where its authors, links and times come from, and
what its revision says. -/
structure Rooted (E : NativeLibraries) (a : Authorship) : Prop where
  authors : ∀ r ∈ a.authors, AuthorRecord.Rooted E r
  written : ∀ r ∈ a.authors, Written r.firstChangedAt ∧ Written r.lastChangedAt
  modifiedAt : a.modifiedAt = [] ∨ Written a.modifiedAt
  changed : a.revision ≠ 0 → a.modifiedAt ≠ []
  blank : a.revision ≠ 0 ∨ (a.authors = [] ∧ a.links = [] ∧ a.modifiedAt = [])
  lastAuthor : a.lastAuthor = [] ∨ a.lastAuthor ∈ a.keys
  activeAuthor : a.activeAuthor = [] ∨ a.activeAuthor ∈ a.keys
  links : ∀ l ∈ a.links, l.Created E
  distinct : a.links.Nodup
  linkCount : a.links.length ≤ maximumLinks

/-- The empty ledger is rooted. -/
theorem rooted_empty : Rooted E empty where
  authors := List.forall_mem_nil _
  written := List.forall_mem_nil _
  modifiedAt := .inl rfl
  changed h := absurd rfl h
  blank := .inr ⟨rfl, rfl, rfl⟩
  lastAuthor := .inl rfl
  activeAuthor := .inl rfl
  links := List.forall_mem_nil _
  distinct := List.nodup_nil
  linkCount := Nat.zero_le _

/-- The links that are validated have each been created, are distinct and as many as before and now
together. -/
theorem validatedFrom_ok {result links parsed : List FileLink}
    (h : validatedFrom E result links = .ok parsed) (hresult : ∀ l ∈ result, l.Created E)
    (hdistinct : result.Nodup) :
    (∀ l ∈ parsed, l.Created E) ∧ parsed.Nodup ∧ parsed.length = result.length + links.length := by
  induction links generalizing result with
  | nil =>
      obtain rfl := pure_ok.1 h
      exact ⟨hresult, hdistinct, rfl⟩
  | cons l links ih =>
      simp only [validatedFrom, bind_ok, orFail_ok, require_ok] at h
      obtain ⟨l', hl', _, hnew, h⟩ := h
      have hcreated : ∀ k ∈ result ++ [l'], k.Created E := by
        intro k hk
        rcases List.mem_append.1 hk with hk | hk
        · exact hresult k hk
        · obtain rfl := List.mem_singleton.1 hk
          exact ⟨_, _, hl'⟩
      have hnodup : (result ++ [l']).Nodup := by
        refine List.nodup_append'.2 ⟨hdistinct, List.nodup_singleton _, ?_⟩
        intro k hk hlast
        obtain rfl := List.mem_singleton.1 hlast
        exact hnew hk
      obtain ⟨hall, hunique, hlength⟩ := ih h hcreated hnodup
      refine ⟨hall, hunique, ?_⟩
      rw [hlength, List.length_append, List.length_singleton, List.length_cons]
      omega

/-- Links that are taken are made, are distinct and are few. -/
theorem validatedLinks_ok {links parsed : List FileLink}
    (h : validatedLinks E links = .ok parsed) :
    (∀ l ∈ parsed, l.Created E) ∧ parsed.Nodup ∧ parsed.length ≤ maximumLinks := by
  simp only [validatedLinks, bind_ok, require_ok] at h
  obtain ⟨_, hcount, h⟩ := h
  obtain ⟨hcreated, hdistinct, hlength⟩ :=
    validatedFrom_ok h (List.forall_mem_nil _) List.nodup_nil
  refine ⟨hcreated, hdistinct, ?_⟩
  rw [hlength, List.length_nil, Nat.zero_add]
  exact hcount

/-! ### A change keeps it -/

/-- A prepared copy: its records are written, but for the one of the active author. -/
structure Staged (E : NativeLibraries) (b : Authorship) : Prop where
  nodup : b.keys.Nodup
  authors : ∀ r ∈ b.authors, AuthorRecord.Rooted E r
  written : ∀ r ∈ b.authors, (Written r.firstChangedAt ∧ Written r.lastChangedAt) ∨
    (r.key = b.activeAuthor ∧ r.firstChangedAt = [])
  modifiedAt : b.modifiedAt = [] ∨ Written b.modifiedAt
  activeAuthor : b.activeAuthor = [] ∨ b.activeAuthor ∈ b.keys
  links : ∀ l ∈ b.links, l.Created E
  distinct : b.links.Nodup
  linkCount : b.links.length ≤ maximumLinks

/-- A rooted ledger that is sound is staged for a change. -/
theorem Rooted.staged (h : Rooted E a) (ha : Sound a) : Staged E a :=
  ⟨ha.nodup, h.authors, fun r hr => .inl (h.written r hr), h.modifiedAt, h.activeAuthor, h.links,
    h.distinct, h.linkCount⟩

/-- A ledger prepared with an author's record is staged for a change. -/
theorem Prepared.staged (h : Prepared E (FileAuthor.Made E) a b) (hrooted : Rooted E a)
    (ha : Sound a) : Staged E b := by
  have hready := h.ready ha
  have hstaged := hrooted.staged ha
  cases h with
  | same => exact hstaged
  | links hlinks =>
      obtain ⟨hcreated, hdistinct, hcount⟩ := validatedLinks_ok hlinks
      exact ⟨ha.nodup, hstaged.authors, hstaged.written, hstaged.modifiedAt, hstaged.activeAuthor,
        hcreated, hdistinct, hcount⟩
  | @known author _ _ hauthor hlinks hkey =>
      obtain ⟨hcreated, hdistinct, hcount⟩ := validatedLinks_ok hlinks
      have hmap : atKey (keyFor E author) ({ · with profile := author.profile }) a.authors
          = a.authors.map fun r => if r.key = keyFor E author
            then { r with profile := author.profile } else r := atKey_eq_map ha.nodup
      refine ⟨hready.nodup, fun r hr => ?_, fun r hr => .inl ?_, hstaged.modifiedAt, .inr ?_,
        hcreated, hdistinct, hcount⟩
      · change r ∈ atKey _ _ _ at hr
        rw [hmap] at hr
        obtain ⟨q, hq, rfl⟩ := List.mem_map.1 hr
        split
        · next hactive => exact ⟨author, hauthor, rfl, hactive.symm⟩
        · exact hrooted.authors q hq
      · change r ∈ atKey _ _ _ at hr
        rw [hmap] at hr
        obtain ⟨q, hq, rfl⟩ := List.mem_map.1 hr
        have hwritten := hrooted.written q hq
        split
        · exact hwritten
        · exact hwritten
      · exact hready.keys.subset hkey
  | @new author _ _ hauthor hlinks hkey hcount =>
      obtain ⟨hcreated, hdistinct, hlinkCount⟩ := validatedLinks_ok hlinks
      refine ⟨hready.nodup, fun r hr => ?_, fun r hr => ?_, hstaged.modifiedAt, .inr ?_,
        hcreated, hdistinct, hlinkCount⟩
      · rcases List.mem_append.1 hr with hr | hr
        · exact hrooted.authors r hr
        · obtain rfl := List.mem_singleton.1 hr
          exact ⟨author, hauthor, rfl, rfl⟩
      · rcases List.mem_append.1 hr with hr | hr
        · exact .inl (hrooted.written r hr)
        · obtain rfl := List.mem_singleton.1 hr
          exact .inr ⟨rfl, rfl⟩
      · show keyFor E author ∈ (a.authors ++ _).map (·.key)
        rw [List.map_append]
        exact List.mem_append_right _ List.mem_cons_self

/-- The time of the last change is one that was written. -/
theorem written_modified (htime : Written time) (h : b.modifiedAt = [] ∨ Written b.modifiedAt) :
    Written (b.modified time) := by
  unfold modified
  split
  · exact htime
  · next hnot => exact h.resolve_left fun hnil => hnot (.inl hnil)

/-- A change that is recorded in a prepared copy. The record of the active author gets the time of
the change, and everything else of the ledger that is checked stays as it is. -/
theorem Staged.recorded (h : Staged E b) (htime : Written time)
    (hrevision : b.revision.toNat ≠ 2 ^ 64 - 1) : Rooted E (b.changed time) := by
  have hmap : atKey b.activeAuthor (AuthorRecord.touched (b.modified time)) b.authors
      = b.authors.map fun r => if r.key = b.activeAuthor
        then AuthorRecord.touched (b.modified time) r else r := atKey_eq_map h.nodup
  have hkeys : (b.changed time).keys = b.keys := keys_atKey fun _ => rfl
  have hmodified := written_modified htime h.modifiedAt
  have hraised : (b.changed time).revision ≠ 0 := by
    intro hzero
    have hsucc := toNat_succ hrevision
    rw [show b.revision + 1 = 0 from hzero, UInt64.toNat_zero] at hsucc
    omega
  refine ⟨fun r hr => ?_, fun r hr => ?_, .inr hmodified, fun _ => ?_, .inl hraised, ?_, ?_,
    h.links, h.distinct, h.linkCount⟩
  · change r ∈ atKey _ _ _ at hr
    rw [hmap] at hr
    obtain ⟨q, hq, rfl⟩ := List.mem_map.1 hr
    split
    · exact h.authors q hq
    · exact h.authors q hq
  · change r ∈ atKey _ _ _ at hr
    rw [hmap] at hr
    obtain ⟨q, hq, rfl⟩ := List.mem_map.1 hr
    have hwritten := h.written q hq
    split
    · refine ⟨?_, hmodified⟩
      show Written (if q.firstChangedAt = [] then _ else q.firstChangedAt)
      split
      · exact hmodified
      · next hset => exact hwritten.elim (·.1) fun hnew => absurd hnew.2 hset
    · next hother => exact hwritten.resolve_right fun hnew => hother hnew.1
  · exact hmodified.elim fun _ => timestamp_ne_nil
  · rw [hkeys]
    exact h.activeAuthor
  · rw [hkeys]
    exact h.activeAuthor

/-- A call that is done leaves a rooted ledger, whether it changed something or not. -/
theorem Done.rooted {r : Fallible Bool} (h : Done E (FileAuthor.Made E) a r b) (ha : Sound a)
    (hrooted : Rooted E a) : Rooted E b := by
  cases h with
  | failed => exact hrooted
  | unchanged hkey =>
      refine { hrooted with activeAuthor := ?_ }
      rcases hkey with rfl | rfl | hkey
      · exact .inl rfl
      · exact hrooted.activeAuthor
      · exact .inr hkey
  | recorded h htime hrevision => exact (h.staged hrooted ha).recorded ⟨_, htime⟩ hrevision

/-! ### A ledger that is read -/

/-- A date that was read is a written time, or empty where it may be. -/
theorem written_of_optionalDate {value : Json} {name : Bytes} {required : Bool}
    (h : optionalDate value name required = .ok time) :
    (required = false ∧ time = []) ∨ Written time := by
  unfold optionalDate at h
  split at h
  · simp only [bind_ok, require_ok, pure_ok] at h
    obtain ⟨_, hmissing, rfl⟩ := h
    exact .inl ⟨hmissing, rfl⟩
  · simp only [bind_ok, require_ok, pure_ok] at h
    obtain ⟨_, hmissing, rfl⟩ := h
    exact .inl ⟨hmissing, rfl⟩
  · exact .inr ⟨_, h⟩
  · cases h

/-- The loop over the records reads rooted records with written times. Each item gives the record of
an author that was read, with times that were accepted, and it joins those read before. -/
theorem authorsFrom_rooted {modifiedAt : Bytes} {items : List Json} {authors l : List AuthorRecord}
    (h : authorsFrom E modifiedAt authors items = .ok l)
    (hauthors : ∀ r ∈ authors, AuthorRecord.Rooted E r ∧ Written r.firstChangedAt ∧
      Written r.lastChangedAt) :
    ∀ r ∈ l, AuthorRecord.Rooted E r ∧ Written r.firstChangedAt ∧ Written r.lastChangedAt := by
  induction items generalizing authors with
  | nil =>
      obtain rfl := pure_ok.1 h
      exact hauthors
  | cons item items ih =>
      simp only [authorsFrom, bind_ok, require_ok, orFail_ok] at h
      obtain ⟨_, -, _, -, snapshot, -, author, hauthor, key, -, _, ⟨hkey, -⟩, first, hfirst, last,
        hlast, _, -, h⟩ := h
      refine ih h fun r hr => ?_
      rcases List.mem_append.1 hr with hr | hr
      · exact hauthors r hr
      · obtain rfl := List.mem_singleton.1 hr
        exact ⟨⟨author, ⟨snapshot, hauthor⟩, rfl, hkey.symm⟩,
          (written_of_optionalDate hfirst).resolve_left (fun h => Bool.noConfusion h.1),
          (written_of_optionalDate hlast).resolve_left (fun h => Bool.noConfusion h.1)⟩

/-- Every ledger that the calls lead to is rooted. An empty ledger has nothing to check, and what is
read from a text has passed the checks one by one. -/
theorem Native.rooted (h : Native E a) : Rooted E a := by
  rcases h with rfl | ⟨bytes, h⟩
  · exact rooted_empty
  · obtain ⟨value, schema, items, h⟩ := ofDump_ok.1 (fromDump_eq_some.1 h)
    have hauthors := authorsFrom_rooted h.authors (List.forall_mem_nil _)
    have hlinks : (∀ l ∈ a.links, l.Created E) ∧ a.links.Nodup ∧ a.links.length ≤ maximumLinks := by
      have hread := h.links
      unfold linksOf at hread
      split at hread
      · simp only [linksFrom, bind_ok] at hread
        obtain ⟨_, -, _, -, _, -, _, -, hread⟩ := hread
        exact validatedLinks_ok hread
      · rw [← pure_ok.1 hread]
        exact ⟨List.forall_mem_nil _, List.nodup_nil, Nat.zero_le _⟩
    have hmodified := written_of_optionalDate h.modifiedAt
    refine ⟨fun r hr => (hauthors r hr).1, fun r hr => (hauthors r hr).2, hmodified.imp_left (·.2),
      fun hrevision => ?_, h.blank, ?_, .inl h.activeAuthor, hlinks.1, hlinks.2.1, hlinks.2.2⟩
    · rcases hmodified with ⟨hnot, -⟩ | hwritten
      · exact absurd hrevision (of_decide_eq_false hnot)
      · exact hwritten.elim fun _ => timestamp_ne_nil
    · have hlast := h.lastAuthor
      simp only [lastAuthorOf, bind_ok] at hlast
      obtain ⟨last, -, hlast⟩ := hlast
      split at hlast
      · exact .inl (pure_ok.1 hlast).symm
      · simp only [bind_ok, require_ok, pure_ok] at hlast
        obtain ⟨_, hmem, rfl⟩ := hlast
        exact .inr hmem
      · cases hlast

/-- **Every ledger a program comes to is sound and rooted.** The steps keep both, so that the
invariant rule gives it; the authors of the calls have to be made by the library. -/
theorem rooted_of_run {start : Authorship} {calls : List (AuthorshipCall × Fallible Bool)}
    (hstart : Native E start) (h : Run (Step E) start calls a)
    (hcalls : ∀ e ∈ calls, ∀ author ∈ e.1.author?, author.Made E) : Sound a ∧ Rooted E a := by
  have hmade : Run (fun a e b => Step E a e b ∧ ∀ author ∈ e.1.author?, author.Made E)
      start calls a := h.imp fun he hstep => ⟨hstep, hcalls _ he⟩
  refine hmade.invariant (I := fun a => Sound a ∧ Rooted E a) (fun hs hstep => ?_)
    ⟨hstart.sound, hstart.rooted⟩
  exact ⟨(hstep.1.keeps hs.1).1, (hstep.1.done hstep.2).rooted hs.1 hs.2⟩

end Authorship

/-! ## The text of a ledger is the text of its value -/

namespace FileLink

variable {E : NativeLibraries} {l : FileLink}

/-- The texts of a created link are valid UTF-8. -/
theorem Created.validUtf8 (h : l.Created E) :
    Json.validUtf8 l.name = true ∧ Json.validUtf8 l.url = true := by
  obtain ⟨name, url, h⟩ := h
  obtain ⟨hclean, -, hvalid, hurl⟩ := create_ok h
  constructor
  · simp only [Native.clean, bind_ok, Native.require_ok, pure_ok] at hclean
    obtain ⟨_, -, points, -, _, -, _, -, hname⟩ := hclean
    rw [← hname]
    exact Utf8.validUtf8_encode _
  · rw [← Utf8.isSome_scalars, hurl]
    unfold Native.validUri at hvalid
    split at hvalid
    · cases hvalid
    · split at hvalid
      · cases hvalid
      · next hpoints =>
          rw [hpoints]
          rfl

/-- A created link is printed as its text in the ledger. -/
theorem dump_json {realText : Double → Bytes} (h : l.Created E) :
    Json.dump realText l.json = some (Authorship.linkText l) := by
  obtain ⟨hname, hurl⟩ := h.validUtf8
  have htext := Authorship.dump_obj realText
    (ascii "name", .str l.name, Authorship.quote l.name)
    [(ascii "url", .str l.url, Authorship.quote l.url)] <| by
      simp only [List.forall_mem_cons]
      exact ⟨⟨Authorship.validUtf8_plain (by decide), Authorship.dump_str hname⟩,
        ⟨Authorship.validUtf8_plain (by decide), Authorship.dump_str hurl⟩, List.forall_mem_nil _⟩
  refine htext.trans (congrArg some ?_)
  simp [Authorship.commas, Authorship.linkText, ascii, Authorship.quote, Authorship.quoteByte]

/-- The document of a link is canonical. -/
theorem canonical_json (l : FileLink) : l.json.Canonical := by
  refine Json.canonical_object ?_ ?_
  · show [ascii "name", ascii "url"].Nodup
    decide
  · simp only [List.forall_mem_cons]
    exact ⟨trivial, trivial, List.forall_mem_nil _⟩

end FileLink

namespace Authorship

variable {E : NativeLibraries} {a : Authorship} {r : AuthorRecord} {realText : Double → Bytes}

/-- A key is 64 hexadecimal digits. -/
theorem keyFor_plain (author : FileAuthor) :
    (keyFor E author).length = 64 ∧ ∀ b ∈ keyFor E author, 0x21 ≤ b.toNat ∧ b.toNat ≤ 0x7E := by
  obtain ⟨hlength, hdigits⟩ := E.sha256_digits
    (author.metadata.serviceOrigin ++ 10 :: author.metadata.account.sub)
  refine ⟨hlength, fun b hb => ?_⟩
  have hall : (ascii "0123456789abcdef").all
      (fun b => decide (0x21 ≤ b.toNat ∧ b.toNat ≤ 0x7E)) = true := by decide
  exact of_decide_eq_true (List.all_eq_true.1 hall b (hdigits b hb))

/-- The key of a record consists of 64 printable ASCII bytes. -/
theorem AuthorRecord.Rooted.key_plain (h : AuthorRecord.Rooted E r) :
    r.key.length = 64 ∧ ∀ b ∈ r.key, 0x21 ≤ b.toNat ∧ b.toNat ≤ 0x7E := by
  obtain ⟨author, -, -, hkey⟩ := h
  rw [← hkey]
  exact keyFor_plain author

/-- The key of a record is valid UTF-8. -/
theorem AuthorRecord.Rooted.validUtf8_key (h : AuthorRecord.Rooted E r) :
    Json.validUtf8 r.key = true := by
  refine validUtf8_of_lt fun b hb => ?_
  have hbounds := h.key_plain.2 b hb
  omega

/-- The profile of a record is the text of a canonical value. -/
theorem AuthorRecord.Rooted.value (h : AuthorRecord.Rooted E r) : ∃ data, data.Canonical ∧
    E.json.parse r.profile = some data ∧ data.dump E.json.realText = some r.profile := by
  obtain ⟨author, hmade, hprofile, -⟩ := h
  obtain ⟨data, hdata, hdump, -⟩ := hmade.value
  rw [hprofile] at hdump
  exact ⟨data, hdata, orFail_ok.1 (JsonLibrary.parseText_of_dump hdata hdump), orFail_ok.1 hdump⟩

/-- A written time is valid UTF-8. -/
theorem Written.validUtf8 {time : Bytes} (h : Written time) : Json.validUtf8 time = true := by
  obtain ⟨raw, h⟩ := h
  obtain ⟨instant, -, rfl⟩ := timestamp_ok.1 h
  exact validUtf8_of_lt timeText_lt

/-- A rooted record is printed as its text in the ledger. -/
theorem dump_record (h : AuthorRecord.Rooted E r) (hfirst : Written r.firstChangedAt)
    (hlast : Written r.lastChangedAt) :
    Json.dump E.json.realText (AuthorRecord.json E r) = some (recordText r) := by
  obtain ⟨data, -, hparse, hdump⟩ := h.value
  have htext := dump_obj E.json.realText (ascii "author", data, r.profile)
    [(ascii "firstChangedAt", .str r.firstChangedAt, quote r.firstChangedAt),
      (ascii "key", .str r.key, quote r.key),
      (ascii "lastChangedAt", .str r.lastChangedAt, quote r.lastChangedAt)] <| by
      simp only [List.forall_mem_cons]
      exact ⟨⟨validUtf8_plain (by decide), hdump⟩,
        ⟨validUtf8_plain (by decide), dump_str hfirst.validUtf8⟩,
        ⟨validUtf8_plain (by decide), dump_str h.validUtf8_key⟩,
        ⟨validUtf8_plain (by decide), dump_str hlast.validUtf8⟩, List.forall_mem_nil _⟩
  have hjson : AuthorRecord.json E r = .obj
      [(ascii "author", data), (ascii "firstChangedAt", .str r.firstChangedAt),
        (ascii "key", .str r.key), (ascii "lastChangedAt", .str r.lastChangedAt)] := by
    unfold AuthorRecord.json
    rw [hparse]
    rfl
  rw [hjson]
  refine htext.trans (congrArg some ?_)
  simp [commas, recordText, ascii, quote, quoteByte]

/-- A text that may be null is printed as the ledger prints it. -/
theorem dump_nullable {s : Bytes} (h : Json.validUtf8 s = true) :
    Json.dump realText (dateValue s) = some (nullable s) := by
  unfold dateValue nullable
  split
  · rfl
  · exact dump_str h

/-- What the members of a ledger are, in the order of their keys. -/
theorem json_sorted (E : NativeLibraries) (a : Authorship) : a.json E 3 = .obj
    [(ascii "authors", .arr (a.authors.map (AuthorRecord.json E))),
      (ascii "firstEditor", dateValue (a.keys.headD [])),
      (ascii "lastAuthor", dateValue a.lastAuthor),
      (ascii "links", .arr (a.links.map FileLink.json)),
      (ascii "modifiedAt", dateValue a.modifiedAt),
      (ascii "participants", .arr (a.keys.tail.map .str)),
      (ascii "revision", .str (decimal a.revision.toNat)), (ascii "schemaVersion", .int 3)] :=
  rfl

/-- **The text of a ledger is the text of its value.** -/
theorem Rooted.dump_json (h : Rooted E a) :
    (a.json E 3).dump E.json.realText = some a.text := by
  have hkeys : ∀ k ∈ a.keys, Json.validUtf8 k = true := by
    intro k hk
    obtain ⟨r, hr, rfl⟩ := List.mem_map.1 hk
    exact (h.authors r hr).validUtf8_key
  have hname : ∀ {k : Bytes}, k = [] ∨ k ∈ a.keys → Json.validUtf8 k = true := by
    rintro k (rfl | hk)
    · rfl
    · exact hkeys k hk
  have hmodified : Json.validUtf8 a.modifiedAt = true := by
    rcases h.modifiedAt with hnil | hwritten
    · rw [hnil]
      rfl
    · exact hwritten.validUtf8
  have hhead : a.keys.headD [] = [] ∨ a.keys.headD [] ∈ a.keys := by
    cases a.keys with
    | nil => exact .inl rfl
    | cons k l => exact .inr List.mem_cons_self
  have hrevision : Json.validUtf8 (decimal a.revision.toNat) = true :=
    validUtf8_of_lt fun b hb => by
      have hdigit := digit_of_mem_decimal hb
      omega
  have htext := dump_obj E.json.realText
    (ascii "authors", .arr (a.authors.map (AuthorRecord.json E)),
      91 :: commas (a.authors.map recordText) ++ [93])
    [(ascii "firstEditor", dateValue (a.keys.headD []), nullable (a.keys.headD [])),
      (ascii "lastAuthor", dateValue a.lastAuthor, nullable a.lastAuthor),
      (ascii "links", .arr (a.links.map FileLink.json),
        91 :: commas (a.links.map linkText) ++ [93]),
      (ascii "modifiedAt", dateValue a.modifiedAt, nullable a.modifiedAt),
      (ascii "participants", .arr (a.keys.tail.map .str),
        91 :: commas (a.keys.tail.map quote) ++ [93]),
      (ascii "revision", .str (decimal a.revision.toNat), quote (decimal a.revision.toNat)),
      (ascii "schemaVersion", .int 3, [51])] <| by
      simp only [List.forall_mem_cons]
      refine ⟨⟨validUtf8_plain (by decide), dump_arr fun r hr => ?_⟩,
        ⟨validUtf8_plain (by decide), dump_nullable (hname hhead)⟩,
        ⟨validUtf8_plain (by decide), dump_nullable (hname h.lastAuthor)⟩,
        ⟨validUtf8_plain (by decide), dump_arr fun l hl => FileLink.dump_json (h.links l hl)⟩,
        ⟨validUtf8_plain (by decide), dump_nullable hmodified⟩,
        ⟨validUtf8_plain (by decide), dump_arr fun k hk =>
          dump_str (hkeys k (List.mem_of_mem_tail hk))⟩,
        ⟨validUtf8_plain (by decide), dump_str hrevision⟩,
        ⟨validUtf8_plain (by decide), rfl⟩, List.forall_mem_nil _⟩
      exact dump_record (h.authors r hr) (h.written r hr).1 (h.written r hr).2
  rw [json_sorted]
  refine htext.trans (congrArg some ?_)
  simp [commas, text, ascii, quote, quoteByte]

/-! ### Canonical values -/

/-- The document of a rooted record is canonical. -/
theorem canonical_record (h : AuthorRecord.Rooted E r) : (AuthorRecord.json E r).Canonical := by
  obtain ⟨data, hdata, hparse, -⟩ := h.value
  refine Json.canonical_object ?_ ?_
  · show [ascii "key", ascii "author", ascii "firstChangedAt", ascii "lastChangedAt"].Nodup
    decide
  · simp only [List.forall_mem_cons]
    refine ⟨trivial, ?_, trivial, trivial, List.forall_mem_nil _⟩
    rw [hparse]
    exact hdata

/-- A ledger's document has the members of its schema. -/
theorem members_keys (schema : Int) (a : Authorship) :
    (members E schema a).map (·.1) = schemaKeys schema := by
  unfold members schemaKeys
  rw [List.map_append, List.map_append]
  congr 1
  · congr 1
    split <;> rfl
  · split <;> rfl

/-- The members of a schema are distinct. -/
theorem schemaKeys_nodup (schema : Int) : (schemaKeys schema).Nodup := by
  unfold schemaKeys
  split <;> split <;> decide

/-- The document of a rooted ledger is canonical in each schema. The names of its members are
different in every schema, and each member is canonical by itself. -/
theorem Rooted.canonical_json (h : Rooted E a) {schema : Int} (hschema : 1 ≤ schema ∧ schema ≤ 3) :
    (a.json E schema).Canonical := by
  refine Json.canonical_object ?_ fun m hm => ?_
  · rw [members_keys]
    exact schemaKeys_nodup schema
  · have hbase : ∀ m ∈ [(ascii "schemaVersion", Json.int schema),
        (ascii "revision", .str (decimal a.revision.toNat)),
        (ascii "modifiedAt", dateValue a.modifiedAt),
        (ascii "authors", .arr (a.authors.map (AuthorRecord.json E))),
        (ascii "lastAuthor", dateValue a.lastAuthor)], m.2.Canonical := by
      simp only [List.forall_mem_cons]
      refine ⟨⟨by omega, by omega⟩, trivial, canonical_date _, ?_, canonical_date _,
        List.forall_mem_nil _⟩
      refine Json.canonicalElements_iff.2 fun j hj => ?_
      obtain ⟨r, hr, rfl⟩ := List.mem_map.1 hj
      exact canonical_record (h.authors r hr)
    rcases List.mem_append.1 hm with hm | hm
    · rcases List.mem_append.1 hm with hm | hm
      · exact hbase m hm
      · split at hm
        · simp only [List.mem_cons, List.not_mem_nil, or_false] at hm
          rcases hm with rfl | rfl
          · exact canonical_date _
          · refine Json.canonicalElements_iff.2 fun j hj => ?_
            obtain ⟨k, -, rfl⟩ := List.mem_map.1 hj
            trivial
        · cases hm
    · split at hm
      · obtain rfl := List.mem_singleton.1 hm
        refine Json.canonicalElements_iff.2 fun j hj => ?_
        obtain ⟨l, -, rfl⟩ := List.mem_map.1 hj
        exact FileLink.canonical_json l
      · cases hm

/-- The text of a ledger is read as its value. -/
theorem Rooted.parse_text (h : Rooted E a) : E.json.parseText a.text = .ok (a.json E 3) :=
  JsonLibrary.parseText_of_dump (h.canonical_json ⟨by omega, by omega⟩) (orFail_ok.2 h.dump_json)

end Authorship

end FileProvider
