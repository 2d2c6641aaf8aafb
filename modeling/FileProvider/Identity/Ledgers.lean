import FileProvider.Identity.Reference
import FileProvider.Native.Reference

/-!
# The links of a ledger

The ledger of the Qt library keeps links as the native one does: a method changes a copy, records
the change with the time and the author it was made by, and takes the copy over once its text is
within the limit. A list of links is set by the forms of its links in both libraries
(`links_roundTrip`).

A method is a program that may throw at each check, and takes its copy over at the end. `Settable`
names what has to hold for that: the time is accepted, the revision is below its last value, and the
text is within `maximumBytes`; a list that the ledger has already needs none of it.
-/

namespace FileProvider

open Bytes Fallible

namespace Identity

/-! ## Ledgers -/

/-- A record of an author. The times of changes are there once the author has made one. -/
structure AuthorRecord where
  key : QString
  author : QJsonObject
  firstChangedAt : Option QJsonValue
  lastChangedAt : Option QJsonValue

/-- A ledger of the Qt library. Its links are kept as they are, and its text as the document that
it is the compact text of. -/
structure Authorship (Q : QtLibraries) where
  revision : UInt64
  modifiedAt : Q.DateTime
  authors : List AuthorRecord
  links : List FileLink
  lastAuthor : QString
  activeAuthor : QString
  dump : QJsonObject

/-- A method of a ledger: what it returns or throws, and the ledger it leaves. -/
abbrev AuthorshipMethod (Q : QtLibraries) := Program (Authorship Q) Empty String

/-- The members of a record. -/
def AuthorRecord.toJson (r : AuthorRecord) : QJsonObject :=
  fields ([("key", .string r.key), ("author", .object r.author)]
    ++ (r.firstChangedAt.map fun date => ("firstChangedAt", date)).toList
    ++ (r.lastChangedAt.map fun date => ("lastChangedAt", date)).toList)

def FileLink.toJson (l : FileLink) : QJsonObject :=
  fields [("name", .string l.name), ("url", .string l.urlText)]

namespace Authorship

variable (U : Utf8proc) {Q : QtLibraries}

/-- `Authorship::SchemaVersion`, which is 3. -/
def schemaVersion : Double := ⟨0x4008000000000000⟩

/-- `Authorship::MaximumBytes`. -/
def maximumBytes : Nat := 2 * 1024 * 1024

/-- A text that is `null` while it is empty. -/
def nullable (s : QString) : QJsonValue := if s = [] then .null else .string s

def toJson (a : Authorship Q) : QJsonObject :=
  let first := (a.authors.head?.map fun r => QJsonValue.string r.key).getD .null
  let participants := a.authors.tail.map fun r => QJsonValue.string r.key
  fields [("schemaVersion", .double schemaVersion),
    ("revision", .string (units (toString a.revision.toNat))),
    ("modifiedAt", dateJson Q a.modifiedAt),
    ("authors", .array (a.authors.map fun r => .object r.toJson)), ("firstEditor", first),
    ("participants", .array participants),
    ("links", .array (a.links.map fun l => .object l.toJson)),
    ("lastAuthor", nullable a.lastAuthor)]

def rebuildDump : AuthorshipMethod Q Unit := do
  let self ← Program.state
  let serialized := self.toJson
  Program.failIf (maximumBytes < Q.compactSize serialized)
    "Authorship metadata exceeds the size limit"
  Program.modify ({ · with dump := serialized })

/-! ## Changes -/

/-- What is done to the first record of a key. -/
def atKey (key : QString) (f : AuthorRecord → AuthorRecord) : List AuthorRecord → List AuthorRecord
  | [] => []
  | r :: authors => if r.key = key then f r :: authors else r :: atKey key f authors

/-- A change at a time, in the record of the author who made it. -/
def touched (date : QJsonValue) (r : AuthorRecord) : AuthorRecord :=
  { r with firstChangedAt := some (r.firstChangedAt.getD date), lastChangedAt := some date }

/-- The time of the last change, once there is a change at a time. -/
def modified (time : Q.DateTime) (a : Authorship Q) : Q.DateTime :=
  if Q.dateValid a.modifiedAt = true ∧ Q.before time a.modifiedAt = true then a.modifiedAt
  else Q.toUTC time

/-- The copy of a ledger in which a change is recorded. -/
def advanced (time : Q.DateTime) (a : Authorship Q) : Authorship Q :=
  { a with
    revision := a.revision + 1
    modifiedAt := a.modified time
    lastAuthor := a.activeAuthor
    authors := atKey a.activeAuthor (touched (dateJson Q (a.modified time))) a.authors }

def recordChange (time : Q.DateTime) : AuthorshipMethod Q Unit := do
  Program.failIf (Q.dateValid time = false) "Invalid authorship change time"
  let self ← Program.state
  Program.failIf (self.revision.toNat = 2 ^ 64 - 1) "Authorship revision is exhausted"
  let ((), next) ← Program.within (self.advanced time) rebuildDump
  Program.modify fun _ => next

variable (Q)

def setLinks (links : List FileLink) (time : Q.DateTime) : AuthorshipMethod Q Bool := do
  let records ← Program.lift (linkRecords U Q.toQtAddresses links)
  let self ← Program.state
  if records = self.links then pure false else do
    let next := { self with links := records }
    let ((), next) ← Program.within next (recordChange time)
    Program.modify fun _ => next
    pure true

def setLinksFromStrings (entries : List QString) (time : Q.DateTime) :
    AuthorshipMethod Q Bool := do
  let links ← Program.lift (linksFromStrings U Q.toQtAddresses entries)
  setLinks U Q links time

/-! ## What sets a list -/

variable {U Q} {links : List FileLink} {time : Q.DateTime} {a : Authorship Q}

/-- A ledger after a change. -/
def changed (time : Q.DateTime) (a : Authorship Q) : Authorship Q :=
  { a.advanced time with dump := (a.advanced time).toJson }

/-- What lets a change be recorded: a valid time, a revision that is not the last, and a text within
the limit. -/
structure Recordable (time : Q.DateTime) (a : Authorship Q) : Prop where
  valid : Q.dateValid time = true
  revision : a.revision.toNat ≠ 2 ^ 64 - 1
  size : Q.compactSize (a.advanced time).toJson ≤ maximumBytes

/-- A change that can be recorded is recorded. -/
theorem recordChange_run (h : Recordable time a) :
    recordChange time a [] = (.ok (), a.changed time, []) := by
  have hdump : rebuildDump (a.advanced time) [] = (.ok (), a.changed time, []) := by
    rw [rebuildDump, Program.bind_run]
    simp only [Program.state]
    rw [Program.bind_run, Program.failIf_run (not_lt.2 h.size)]
    rfl
  rw [recordChange, Program.bind_run, Program.failIf_run (ne_false_of_eq_true h.valid)]
  dsimp only
  rw [Program.bind_run]
  simp only [Program.state]
  rw [Program.bind_run, Program.failIf_run h.revision]
  simp only [Program.bind_run, Program.within, hdump]
  rfl

open Program

/-- A change is recorded whole or not at all. -/
theorem recordChange_meets {P : Fallible Unit → Authorship Q → Prop} (hfail : ∀ e, P (.error e) a)
    (hok : Recordable time a → P (.ok ()) (a.changed time)) :
    Meets (fun _ => True) (recordChange time) a P := by
  refine .bind_failIf (fun _ => hfail _) fun htime => .bind_state ?_
  refine .bind_failIf (fun _ => hfail _) fun hrevision => ?_
  refine .bind (.within ?_)
  unfold rebuildDump
  refine .bind_state (.bind_failIf (fun _ => ⟨nofun, fun _ _ => hfail _⟩) fun hsize => .modify ?_)
  refine ⟨fun next hnext => ?_, nofun⟩
  obtain rfl := Except.ok.inj hnext
  exact .modify (hok ⟨eq_true_of_ne_false htime, hrevision, not_lt.1 hsize⟩)

/-- What lets a ledger take a list of links: it has the list already, or a change can be
recorded. -/
def Settable (links : List FileLink) (time : Q.DateTime) (a : Authorship Q) : Prop :=
  links = a.links ∨ Recordable time { a with links }

/-- A list that is set leaves the ledger with it, and a list that cannot be set leaves the ledger as
it is. -/
theorem setLinks_sets (hrecords : linkRecords U Q.toQtAddresses links = .ok links) :
    Meets (fun _ => True) (setLinks U Q links time) a
      fun r a' => (∀ b, r = .ok b → Settable links time a ∧ a'.links = links) ∧
        ∀ e, r = .error e → a' = a := by
  unfold setLinks
  rw [hrecords]
  refine .bind_lift (fun records hsame => ?_) nofun
  obtain rfl := Except.ok.inj hsame
  refine .bind_state ?_
  split
  · next hsame => exact .pure ⟨fun _ _ => ⟨.inl hsame, hsame.symm⟩, nofun⟩
  · refine .bind (.within (recordChange_meets (fun e => ⟨nofun, fun e _ => ⟨nofun, fun _ _ => rfl⟩⟩)
      fun hrecordable => ⟨fun next hnext => ?_, nofun⟩))
    obtain rfl := Except.ok.inj hnext
    exact .bind_modify (.pure ⟨fun _ _ => ⟨.inr hrecordable, rfl⟩, nofun⟩)

/-- **A list that can be set is set.** The links are their own records, so that the only steps left
are the comparison with the present list and the new revision. -/
theorem setLinks_run (hrecords : linkRecords U Q.toQtAddresses links = .ok links)
    (h : Settable links time a) : ∃ b, (setLinks U Q links time a []).1 = .ok b := by
  rw [setLinks, hrecords, Program.bind_run]
  simp only [Program.lift]
  rw [Program.bind_run]
  simp only [Program.state]
  split
  · exact ⟨false, rfl⟩
  · next hnew =>
      have hrun := recordChange_run (h.resolve_left hnew)
      rw [Program.bind_run]
      simp only [Program.within, hrun]
      exact ⟨true, rfl⟩

/-- **A list is set by its forms**, as it is by its links, exactly if the ledger can take it. -/
theorem setLinksFromStrings_forms (h : ∀ l ∈ links, l.Created U Q.toQtAddresses)
    (hdistinct : links.Nodup) (hlength : links.length ≤ maximumLinks) (time : Q.DateTime)
    (a : Authorship Q) :
    setLinksFromStrings U Q (links.map FileLink.toString) time a [] = setLinks U Q links time a [] ∧
      Decides (Settable links time a) (fun a' => a'.links = links)
        (setLinksFromStrings U Q (links.map FileLink.toString) time) a := by
  have hsame : setLinksFromStrings U Q (links.map FileLink.toString) time a []
      = setLinks U Q links time a [] := by
    rw [setLinksFromStrings, Program.bind_run, linksFromStrings_forms h hlength]
    rfl
  have hrecords := linkRecords_created h hdistinct hlength
  have hdecides : Decides (Settable links time a) (fun a' => a'.links = links)
      (setLinks U Q links time) a :=
    (setLinks_sets hrecords).decides fun hset => setLinks_run hrecords hset
  refine ⟨hsame, ?_⟩
  unfold Decides
  rwa [hsame]

end Authorship

end Identity

/-! ## Both libraries -/

/-- **Named links round-trip**, in the native library and in the Qt library: a link that is made is
read back from its form and made again of its parts, and no other link has its form. The forms of a
list of distinct links do to a ledger what the links do: they set exactly that list, unless no
change can be recorded (the time is refused, the revision is the last, or the text would be too
long); then the ledger stays as it is. -/
theorem links_roundTrip (E : NativeLibraries) (U : Utf8proc) (Q : QtLibraries) :
    ((∀ l, FileLink.Created E l →
        FileLink.fromString E l.form = some l ∧ FileLink.create E l.name l.url = some l) ∧
      (∀ l l', FileLink.Created E l → FileLink.Created E l' → l.form = l'.form → l = l') ∧
      ∀ links : List FileLink, (∀ l ∈ links, l.Created E) → links.Nodup →
        links.length ≤ Authorship.maximumLinks → ∀ time a,
        Authorship.setLinksFromStrings E (links.map FileLink.form) time a []
            = Authorship.setLinks E links time a [] ∧
          Program.Decides (Authorship.Settable links time a) (fun a' => a'.links = links)
            (Authorship.setLinksFromStrings E (links.map FileLink.form) time) a) ∧
    (∀ l, Identity.FileLink.Created U Q.toQtAddresses l →
        Identity.FileLink.fromString U Q.toQtAddresses l.toString = .ok l ∧
          Identity.FileLink.create U Q.toQtAddresses l.name l.urlText = .ok l) ∧
      (∀ l l', Identity.FileLink.Created U Q.toQtAddresses l →
        Identity.FileLink.Created U Q.toQtAddresses l' → l.toString = l'.toString → l = l') ∧
      ∀ links : List Identity.FileLink, (∀ l ∈ links, l.Created U Q.toQtAddresses) → links.Nodup →
        links.length ≤ Identity.maximumLinks → ∀ time a,
        Identity.Authorship.setLinksFromStrings U Q (links.map Identity.FileLink.toString) time a []
            = Identity.Authorship.setLinks U Q links time a [] ∧
          Program.Decides (Identity.Authorship.Settable links time a) (fun a' => a'.links = links)
            (Identity.Authorship.setLinksFromStrings U Q (links.map Identity.FileLink.toString)
              time) a := by
  refine ⟨⟨fun l h => ⟨h.fromString, h.create⟩, fun l l' h h' => h.eq_of_form h', ?_⟩, ?_, ?_, ?_⟩
  · intro links h hdistinct hlength time a
    exact Authorship.setLinksFromStrings_forms h hdistinct hlength time a
  · exact fun l h => ⟨h.fromString, h.create⟩
  · exact fun l l' h h' => h.eq_of_form h'
  · intro links h hdistinct hlength time a
    exact Identity.Authorship.setLinksFromStrings_forms h hdistinct hlength time a

/-- A ledger of the Qt library as it is made, without its text. -/
def Identity.Authorship.blank : Identity.Authorship QtLibraries.plain :=
  ⟨0, QtLibraries.plain.noDate, [], [], [], [], []⟩

/-- A link whose address has a bar is read back from its form, and set by it in an empty ledger of
either library. -/
theorem links_roundTrip_sample :
    FileLink.fromString .reference (ascii "[a|s:b|c]") = some ⟨ascii "a", ascii "s:b|c"⟩ ∧
      (∃ b a', Authorship.setLinksFromStrings .reference [ascii "[a|s:b|c]"]
        (ascii "2024-02-29T12:00:00Z") .empty [] = (.ok b, a', []) ∧
          a'.links = [⟨ascii "a", ascii "s:b|c"⟩]) ∧
      Identity.FileLink.fromString .reference QtLibraries.plain.toQtAddresses
        (Identity.units "[a|/b|c]") = .ok ⟨Identity.units "a", Identity.units "/b|c"⟩ ∧
      ∃ b a', Identity.Authorship.setLinksFromStrings .reference QtLibraries.plain
        [Identity.units "[a|/b|c]"] (Identity.units "2024-02-29T12:00:00Z") .blank []
          = (.ok b, a', []) ∧ a'.links = [⟨Identity.units "a", Identity.units "/b|c"⟩] := by
  obtain ⟨⟨hread, -, hset⟩, hreadQt, -, hsetQt⟩ := links_roundTrip .reference .reference .plain
  have hmade : FileLink.create .reference (ascii "a") (ascii "s:b|c")
      = some ⟨ascii "a", ascii "s:b|c"⟩ := by decide +kernel
  have hcreated : FileLink.Created .reference ⟨ascii "a", ascii "s:b|c"⟩ := ⟨_, _, hmade⟩
  have hmadeQt : Identity.FileLink.create .reference QtLibraries.plain.toQtAddresses
      (Identity.units "a") (Identity.units "/b|c")
        = .ok ⟨Identity.units "a", Identity.units "/b|c"⟩ := toOption_eq_some.1 (by decide +kernel)
  have hcreatedQt : Identity.FileLink.Created .reference QtLibraries.plain.toQtAddresses
      ⟨Identity.units "a", Identity.units "/b|c"⟩ := .inl ⟨_, _, hmadeQt⟩
  refine ⟨(hread _ hcreated).1, ?_, (hreadQt _ hcreatedQt).1, ?_⟩
  · have hall := hset [⟨ascii "a", ascii "s:b|c"⟩] (List.forall_mem_singleton.2 hcreated)
      (List.nodup_singleton _) (by decide) (ascii "2024-02-29T12:00:00Z") .empty
    exact hall.2.1 (.inr ⟨ascii "2024-02-29T12:00:00.000Z", toOption_eq_some.1 (by decide +kernel),
      by decide, by decide +kernel⟩)
  · have hall := hsetQt [⟨Identity.units "a", Identity.units "/b|c"⟩]
      (List.forall_mem_singleton.2 hcreatedQt) (List.nodup_singleton _) (by decide)
      (Identity.units "2024-02-29T12:00:00Z") .blank
    exact hall.2.1 (.inr ⟨by decide, by decide, by decide +kernel⟩)

end FileProvider
