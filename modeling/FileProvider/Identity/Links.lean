import FileProvider.Identity.Emails
import FileProvider.Native.Links

/-!
# Named links of the two libraries

The Qt library makes links as the native one does, of a name in its normal form and an address as it
is given, and reads them back from the same form.

The form of a link is a name, a bar and an address between brackets. A clean name has no bar, so the
first bar of a form ends the name; the trimming of either library leaves a clean name as it is, and
a list of links is a list of forms by induction.
-/

namespace FileProvider

open Bytes Fallible

/-- The part of a Qt library that knows addresses. -/
structure QtAddresses where
  Url : Type
  strict : QString → Url
  isValid : Url → Bool
  isEmpty : Url → Bool
  fullyEncoded : Url → QString
  toEncoded : Url → Bytes

namespace Identity

/-- A link of the Qt library. -/
structure FileLink where
  name : QString
  urlText : QString
deriving DecidableEq

/-- `FileLink::MaximumNameLength`, in scalars. -/
def maximumNameLength : Nat := 160

/-- `FileLink::MaximumUrlBytes`. -/
def maximumUrlBytes : Nat := 16 * 1024

/-- `Authorship::MaximumLinks`. -/
def maximumLinks : Nat := 64

variable (U : Utf8proc) (Q : QtAddresses)

/-- `finishError`: the message of a field. -/
def finishError {β : Type} (p : Fallible β) : Fallible β :=
  match p with
  | .ok b => .ok b
  | .error field => .error ("Invalid " ++ field ++ ".")

/-- `QString::mid`. -/
def mid (s : QString) (position count : Nat) : QString := (s.drop position).take count

/-- `QString::trimmed` of a text that need not pair its surrogates. -/
def trimmedUnits (s : QString) : QString :=
  let space := fun u : UInt16 => isSpace (Char.ofNat u.toNat)
  ((s.dropWhile space).reverse.dropWhile space).reverse

def readUrl (raw : QString) : Fallible Q.Url := do
  let points ← orFail "fileLink.url" (Utf16.scalars raw)
  failIf (raw = [] ∨ maximumUrlBytes < raw.length
    ∨ maximumUrlBytes < (Utf8.encode points).length) "fileLink.url"
  failIf (points.all (clean false) = false) "fileLink.url"
  let url := Q.strict raw
  failIf (Q.isValid url = false ∨ Q.isEmpty url = true
    ∨ maximumUrlBytes < (Q.toEncoded url).length) "fileLink.url"
  pure url

namespace FileLink

/-- The body of `create`, whose failures are the names of fields. -/
def checked (name url : QString) : Fallible FileLink := do
  let cleanName ← cleanText U name "fileLink.name" maximumNameLength true false
  failIf ('|' ∈ cleanName) "fileLink.name"
  let _ ← readUrl Q url
  pure ⟨Utf16.encode cleanName, url⟩

def create (name url : QString) : Fallible FileLink := finishError (checked U Q name url)

/-- `create` of an address that is parsed already. -/
def createUrl (name : QString) (url : Q.Url) : Fallible FileLink :=
  if Q.isValid url = false ∨ Q.isEmpty url = true then .error "Invalid fileLink.url."
  else create U Q name (Q.fullyEncoded url)

/-- The body of `fromString`. -/
def parsed (namedUrl : QString) : Fallible (QString × QString) := do
  let input := trimmedUnits namedUrl
  failIf (input.head? ≠ some 91 ∨ input.getLast? ≠ some 93) "fileLink.format"
  let separator := (input.takeWhile (· ≠ 124)).length
  failIf (124 ∉ input ∨ separator ≤ 1 ∨ input.length - 2 ≤ separator) "fileLink.format"
  pure (mid input 1 (separator - 1), mid input (separator + 1) (input.length - separator - 2))

def fromString (namedUrl : QString) : Fallible FileLink := do
  let entry ← finishError (parsed namedUrl)
  create U Q entry.1 entry.2

def toString (l : FileLink) : QString := bracketed 91 124 93 l.name l.urlText

end FileLink

/-- `linkRecords`, whose records are the links. -/
def linkRecordsFrom : List FileLink → List FileLink → Fallible (List FileLink)
  | result, [] => pure result
  | result, link :: links => do
      let record ← orFail "Invalid file link" (FileLink.create U Q link.name link.urlText).toOption
      failIf (record ∈ result) "Duplicate file link"
      linkRecordsFrom (result ++ [record]) links

def linkRecords (links : List FileLink) : Fallible (List FileLink) := do
  failIf (maximumLinks < links.length) "Too many file links"
  linkRecordsFrom U Q [] links

/-- The links that `setLinksFromStrings` reads from its entries. -/
def linksFromStrings (entries : List QString) : Fallible (List FileLink) := do
  failIf (maximumLinks < entries.length) "Too many file links"
  entries.mapM fun entry =>
    orFail "Invalid named URL format" (FileLink.fromString U Q entry).toOption

/-! ## Texts that are clean -/

variable {U : Utf8proc} {Q : QtAddresses} {l : FileLink}

/-- The trimming of the two libraries is the same. -/
theorem trimmed_eq : trimmed = Native.trim := by
  unfold trimmed Native.trim
  rw [isSpace_eq]

/-- A clean text is left as it is. -/
theorem cleanText_cleanText {text : QString} {field : String} {maximum : Nat}
    {required multiline : Bool} {points : List Char}
    (h : cleanText U text field maximum required multiline = .ok points) :
    cleanText U (Utf16.encode points) field maximum required multiline = .ok points := by
  simp only [cleanText, bind_ok, orFail_ok, failIf_ok, pure_ok] at h
  obtain ⟨given, -, _, hlimits, _, hclean, rfl⟩ := h
  have hsame : trimmed (U.compose (trimmed (U.compose given))) = trimmed (U.compose given) := by
    rw [trimmed_eq, Native.compose_trim, Native.trim_trim]
  simp only [cleanText, bind_ok, orFail_ok, failIf_ok, pure_ok]
  exact ⟨_, Utf16.scalars_encode _, (), by rw [hsame]; exact hlimits, (),
    by rw [hsame]; exact hclean,
    hsame⟩

/-- An ASCII unit occurs in a text exactly when its character does. A unit of a surrogate pair is
above 0xD7FF, so that it is never an ASCII one. -/
theorem mem_encode {c : Char} {points : List Char} (hc : c.toNat < 0x80) :
    UInt16.ofNat c.toNat ∈ Utf16.encode points ↔ c ∈ points := by
  unfold Utf16.encode
  rw [List.mem_flatMap]
  constructor
  · rintro ⟨d, hd, hunits⟩
    unfold Utf16.units at hunits
    have hvalid : d.toNat < 0xD800 ∨ (0xDFFF < d.toNat ∧ d.toNat < 0x110000) := d.valid
    have hbasic := Utf16.toNat_ofNat (n := c.toNat) (by omega)
    split at hunits
    · next hsmall =>
        have heq := congrArg UInt16.toNat (List.mem_singleton.1 hunits)
        rw [hbasic, Utf16.toNat_ofNat hsmall] at heq
        rw [← Char.ofNat_toNat c, heq, Char.ofNat_toNat]
        exact hd
    · next hlarge =>
        rcases List.mem_cons.1 hunits with heq | hunits
        · have heq := congrArg UInt16.toNat heq
          rw [hbasic, Utf16.toNat_ofNat (by omega)] at heq
          omega
        · have heq := congrArg UInt16.toNat (List.mem_singleton.1 hunits)
          rw [hbasic, Utf16.toNat_ofNat (by omega)] at heq
          omega
  · intro h
    refine ⟨c, h, ?_⟩
    unfold Utf16.units
    rw [if_pos (by omega)]
    exact List.mem_singleton_self _

/-! ## Links -/

namespace FileLink

/-- A link that `create` makes, of an address as a text or as it is parsed. -/
def Created (U : Utf8proc) (Q : QtAddresses) (l : FileLink) : Prop :=
  (∃ name url, create U Q name url = .ok l) ∨ ∃ name url, createUrl U Q name url = .ok l

/-- Collecting the error of a call keeps its value. -/
theorem finishError_ok {β : Type} {p : Fallible β} {b : β} : finishError p = .ok b ↔ p = .ok b := by
  cases p with
  | ok b' => exact Iff.rfl
  | error field => exact ⟨nofun, nofun⟩

/-- What `create` makes of a name and an address. -/
theorem Created.checked (h : Created U Q l) :
    ∃ name points, cleanText U name "fileLink.name" maximumNameLength true false = .ok points ∧
      '|' ∉ points ∧ (∃ url, readUrl Q l.urlText = .ok url) ∧ l.name = Utf16.encode points := by
  have hcreate : ∃ name url, create U Q name url = .ok l := by
    rcases h with h | ⟨name, url, h⟩
    · exact h
    · unfold createUrl at h
      split at h
      · cases h
      · exact ⟨_, _, h⟩
  obtain ⟨name, url, hcreate⟩ := hcreate
  have hchecked := finishError_ok.1 hcreate
  simp only [FileLink.checked, bind_ok, failIf_ok, pure_ok] at hchecked
  obtain ⟨points, hclean, _, hbar, parsedUrl, hurl, rfl⟩ := hchecked
  exact ⟨name, points, hclean, hbar, ⟨parsedUrl, hurl⟩, rfl⟩

/-- A link is made again of its name and its address. -/
theorem Created.create (h : Created U Q l) : FileLink.create U Q l.name l.urlText = .ok l := by
  obtain ⟨name, points, hclean, hbar, ⟨url, hurl⟩, hname⟩ := h.checked
  refine finishError_ok.2 ?_
  simp only [FileLink.checked, bind_ok, failIf_ok, pure_ok]
  refine ⟨points, ?_, (), hbar, url, hurl, ?_⟩
  · rw [hname]
    exact cleanText_cleanText hclean
  · rw [← hname]

/-- The name of a created link is not empty and holds no bar. -/
theorem Created.name_nonempty (h : Created U Q l) : l.name ≠ [] ∧ 124 ∉ l.name := by
  obtain ⟨name, points, hclean, hbar, -, hname⟩ := h.checked
  rw [hname]
  refine ⟨?_, fun hmem => hbar ((mem_encode (c := '|') (by decide)).1 hmem)⟩
  simp only [cleanText, bind_ok, failIf_ok, pure_ok, not_not] at hclean
  obtain ⟨_, -, _, ⟨hrequired, -⟩, _, -, hpoints⟩ := hclean
  have hne : points ≠ [] := hpoints ▸ hrequired.elim (fun hfalse => by cases hfalse) id
  intro hnil
  have hscalars := Utf16.scalars_encode points
  rw [hnil] at hscalars
  exact hne (Option.some.inj hscalars).symm

/-- The address of a created link is not empty. -/
theorem Created.url_nonempty (h : Created U Q l) : l.urlText ≠ [] := by
  obtain ⟨name, points, -, -, ⟨url, hurl⟩, -⟩ := h.checked
  simp only [readUrl, bind_ok, failIf_ok, not_or] at hurl
  obtain ⟨_, -, _, ⟨hne, -⟩, -⟩ := hurl
  exact hne

/-- The form of a link begins and ends with brackets, so trimming keeps it. -/
theorem trimmedUnits_bracketed (name url : QString) :
    trimmedUnits (bracketed 91 124 93 name url) = bracketed 91 124 93 name url := by
  have hopening : isSpace (Char.ofNat (91 : UInt16).toNat) = false := by decide
  have hclosing : isSpace (Char.ofNat (93 : UInt16).toNat) = false := by decide
  unfold trimmedUnits bracketed
  dsimp only
  rw [List.dropWhile_cons_of_neg (by rw [hopening]; exact Bool.false_ne_true), ← List.cons_append,
    List.append_cons, ← List.append_assoc, List.reverse_append, List.reverse_singleton,
    List.singleton_append, List.dropWhile_cons_of_neg (by rw [hclosing]; exact Bool.false_ne_true),
    List.reverse_cons, List.reverse_reverse]

/-- **A link is read back from its form.** The name holds no bar, so that the first one in the form
ends the name, and the lengths of the two parts are read off the form. -/
theorem Created.fromString (h : Created U Q l) : FileLink.fromString U Q l.toString = .ok l := by
  obtain ⟨hname, hbar⟩ := h.name_nonempty
  have hurl := List.length_pos_iff.2 h.url_nonempty
  have hlengthName := List.length_pos_iff.2 hname
  have hfront := takeWhile_bracketed 93 l.urlText
    (show (91 : UInt16) ≠ 124 from of_decide_eq_true rfl) hbar
  have hlength : (bracketed (91 : UInt16) 124 93 l.name l.urlText).length
      = l.name.length + l.urlText.length + 3 := length_bracketed
  have hparsed : parsed l.toString = .ok (l.name, l.urlText) := by
    unfold parsed FileLink.toString
    rw [trimmedUnits_bracketed]
    simp only [bind_ok, failIf_ok, pure_ok]
    refine ⟨(), ?_, (), ?_, ?_⟩
    · rintro (hopen | hclose)
      · exact hopen rfl
      · exact hclose getLast?_bracketed
    · rw [hfront, hlength, List.length_cons]
      rintro (hmissing | hshort | hlong)
      · exact hmissing (List.mem_cons_of_mem _ (List.mem_append_right _ List.mem_cons_self))
      · omega
      · omega
    · rw [hfront, hlength, List.length_cons, mid, mid,
        show l.name.length + 1 - 1 = l.name.length from rfl, name_of_bracketed,
        show l.name.length + l.urlText.length + 3 - (l.name.length + 1) - 2 = l.urlText.length
          by omega, show l.name.length + 1 + 1 = l.name.length + 2 from rfl, url_of_bracketed]
  simp only [FileLink.fromString, bind_ok, finishError_ok]
  exact ⟨_, hparsed, h.create⟩

/-- Links with one form are one link. -/
theorem Created.eq_of_form {l' : FileLink} (h : Created U Q l) (h' : Created U Q l')
    (hform : l.toString = l'.toString) : l = l' := by
  have hread := h.fromString
  rw [hform, h'.fromString] at hread
  exact (Except.ok.inj hread).symm

end FileLink

/-! ## Lists of links -/

variable {links : List FileLink}

/-- Created links that are distinct are taken as they are. -/
theorem linkRecordsFrom_created {result : List FileLink} (h : ∀ l ∈ links, l.Created U Q)
    (hdistinct : (result ++ links).Nodup) :
    linkRecordsFrom U Q result links = .ok (result ++ links) := by
  induction links generalizing result with
  | nil =>
      rw [List.append_nil]
      rfl
  | cons l links ih =>
      obtain ⟨hl, hlinks⟩ := List.forall_mem_cons.1 h
      simp only [linkRecordsFrom, bind_ok, orFail_ok, failIf_ok]
      have hnew : l ∉ result := by
        intro hmem
        exact (List.nodup_append.1 hdistinct).2.2 l hmem l List.mem_cons_self rfl
      rw [List.append_cons] at hdistinct ⊢
      exact ⟨l, toOption_eq_some.2 hl.create, (), hnew, ih hlinks hdistinct⟩

/-- The records of distinct links are the links. -/
theorem linkRecords_created (h : ∀ l ∈ links, l.Created U Q) (hdistinct : links.Nodup)
    (hlength : links.length ≤ maximumLinks) : linkRecords U Q links = .ok links := by
  simp only [linkRecords, bind_ok, failIf_ok, not_lt]
  exact ⟨(), hlength, linkRecordsFrom_created h hdistinct⟩

/-- The forms of links are read back. -/
theorem linksFromStrings_forms (h : ∀ l ∈ links, l.Created U Q)
    (hlength : links.length ≤ maximumLinks) :
    linksFromStrings U Q (links.map FileLink.toString) = .ok links := by
  simp only [linksFromStrings, bind_ok, failIf_ok, List.length_map, not_lt]
  refine ⟨(), hlength, ?_⟩
  rw [mapM_ok, List.map_map]
  refine List.map_congr_left fun l hl => ?_
  exact orFail_ok.2 (toOption_eq_some.2 (h l hl).fromString)

end Identity

end FileProvider
