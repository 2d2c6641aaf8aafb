import FileProvider.Library.Transition
import FileProvider.Native.Authorship
import FileProvider.Native.Reference
import Mathlib.Data.List.Nodup
import Mathlib.Data.List.Infix
import Mathlib.Order.Lattice

/-!
# The roster of a ledger

Every call of a method leaves the ledger as it was, or a ledger that `Done` describes: the authors
keep their places and their keys, the time of a first change stays, and a change raises the revision
by one.

`Done` is the inversion of a call, proved once for each method, and everything else is derived from
it: unique keys, the limit of 256, the places of the authors and their times. Runs begin with a
ledger that is new or was read, since both are what a program first has.
-/

namespace FileProvider

open Bytes Fallible Native

/-- A call that a program makes on a ledger. -/
inductive AuthorshipCall where
  | setAuthor (author : FileAuthor) (time : Bytes)
  | setAuthorLinks (author : FileAuthor) (links : List FileLink) (time : Bytes)
  | setLinks (links : List FileLink) (time : Bytes)
  | setLinksFromStrings (entries : List Bytes) (time : Bytes)
  | recordChange (time : Bytes)
  | clearActiveAuthor
deriving DecidableEq

/-- The author a call is given. -/
def AuthorshipCall.author? : AuthorshipCall → Option FileAuthor
  | .setAuthor author _ | .setAuthorLinks author _ _ => some author
  | _ => none

namespace Authorship

variable {E : NativeLibraries} {P : FileAuthor → Prop} {a b : Authorship} {key time : Bytes}

/-- What a call does, and whether it reports a change. -/
def perform (E : NativeLibraries) : AuthorshipCall → AuthorshipMethod Bool
  | .setAuthor author time => setAuthor E author time
  | .setAuthorLinks author links time => setAuthorLinks E author links time
  | .setLinks links time => setLinks E links time
  | .setLinksFromStrings entries time => setLinksFromStrings E entries time
  | .recordChange time => do
      recordChange time
      pure true
  | .clearActiveAuthor => do
      clearActiveAuthor
      pure false

/-- A call, with what it returned or threw. -/
def Step (E : NativeLibraries) (a : Authorship) (e : AuthorshipCall × Fallible Bool)
    (b : Authorship) : Prop :=
  perform E e.1 a [] = (e.2, b, [])

/-- A ledger as a program first has it: new, or read. -/
def Native (E : NativeLibraries) (a : Authorship) : Prop :=
  a = empty ∨ ∃ bytes, fromDump E bytes = some a

/-! ## What a call can do -/

/-- A ledger after a change. -/
def changed (time : Bytes) (a : Authorship) : Authorship :=
  { a.advanced time with dump := (a.advanced time).text }

/-- What a method makes of its copy before it records the change, with an author that satisfies `P`
where it has one. -/
inductive Prepared (E : NativeLibraries) (P : FileAuthor → Prop) (a : Authorship) :
    Authorship → Prop where
  | same : Prepared E P a a
  | links {given links : List FileLink} (h : validatedLinks E given = .ok links) :
      Prepared E P a { a with links }
  | known {author : FileAuthor} {given links : List FileLink} (hauthor : P author)
      (h : validatedLinks E given = .ok links) (hkey : keyFor E author ∈ a.keys) :
      Prepared E P a { a with
        links
        activeAuthor := keyFor E author
        authors := atKey (keyFor E author) ({ · with profile := author.profile }) a.authors }
  | new {author : FileAuthor} {given links : List FileLink} (hauthor : P author)
      (h : validatedLinks E given = .ok links) (hkey : keyFor E author ∉ a.keys)
      (hcount : a.authors.length < maximumAuthors) :
      Prepared E P a { a with
        links
        activeAuthor := keyFor E author
        authors := a.authors ++ [⟨keyFor E author, author.profile, [], []⟩] }

/-- What a call comes to. -/
inductive Done (E : NativeLibraries) (P : FileAuthor → Prop) (a : Authorship) :
    Fallible Bool → Authorship → Prop where
  | failed (e : String) : Done E P a (.error e) a
  | unchanged {key : Bytes} (h : key = [] ∨ key = a.activeAuthor ∨ key ∈ a.keys) :
      Done E P a (.ok false) { a with activeAuthor := key }
  | recorded {b : Authorship} {raw time : Bytes} (h : Prepared E P a b)
      (htime : timestamp raw = .ok time) (hrevision : b.revision.toNat ≠ 2 ^ 64 - 1)
      (hsize : (b.advanced time).text.length ≤ maximumBytes) :
      Done E P a (.ok true) (b.changed time)

open Program

/-- Rebuilding the text takes it over where it is within the limit, and throws with the ledger as
before otherwise. -/
theorem rebuildDump_meets {Q : Fallible Unit → Authorship → Prop} (hfail : ∀ e, Q (.error e) a)
    (hok : a.text.length ≤ maximumBytes → Q (.ok ()) { a with dump := a.text }) :
    Meets (fun _ => True) rebuildDump a Q := by
  refine .bind (.state ⟨fun self hself => ?_, nofun⟩)
  obtain rfl := Except.ok.inj hself
  refine .bind (.failIf (fun _ => ⟨nofun, fun e _ => hfail e⟩) fun hsize => ⟨fun _ _ => ?_, nofun⟩)
  exact .modify (hok (not_lt.1 hsize))

/-- A change is recorded whole or not at all. -/
theorem recordChange_meets (raw : Bytes) {Q : Fallible Unit → Authorship → Prop}
    (hfail : ∀ e, Q (.error e) a)
    (hok : ∀ time, timestamp raw = .ok time → a.revision.toNat ≠ 2 ^ 64 - 1 →
      (a.advanced time).text.length ≤ maximumBytes → Q (.ok ()) (a.changed time)) :
    Meets (fun _ => True) (recordChange raw) a Q := by
  refine .bind (.lift ⟨fun time htime => ?_, fun e _ => hfail e⟩)
  refine .bind (.state ⟨fun self hself => ?_, nofun⟩)
  obtain rfl := Except.ok.inj hself
  refine .bind (.failIf (fun _ => ⟨nofun, fun e _ => hfail e⟩) fun hrevision =>
    ⟨fun _ _ => ?_, nofun⟩)
  refine .bind (.within (rebuildDump_meets (fun e => ⟨nofun, fun e _ => hfail e⟩) fun hsize =>
    ⟨fun next hnext => ?_, nofun⟩))
  obtain rfl := Except.ok.inj hnext
  exact .modify (hok time htime hrevision hsize)

/-- What a method ends with once its copy is prepared. -/
theorem take_meets (raw : Bytes) (h : Prepared E P a b) :
    Meets (fun _ => True) (do
      let ((), next) ← Program.within b (recordChange raw)
      Program.modify fun _ => next
      pure true) a (Done E P a) := by
  refine .bind (.within (recordChange_meets raw (fun e => ⟨nofun, fun e _ => .failed e⟩)
    fun time htime hrevision hsize => ⟨fun next hnext => ?_, nofun⟩))
  obtain rfl := Except.ok.inj hnext
  exact .bind (.modify ⟨fun _ _ => .pure (.recorded h htime hrevision hsize), nofun⟩)

/-- A key is listed exactly when its record is found. -/
theorem mem_keys_iff : key ∈ a.keys ↔ (a.authors.find? (·.key = key)).isSome := by
  simp only [keys, List.mem_map, List.find?_isSome, decide_eq_true_eq]

/-- Setting an author is done as `Done` says, for every profile and time. -/
theorem setAuthorLinks_meets {author : FileAuthor} (hauthor : P author) (links : List FileLink)
    (raw : Bytes) :
    Meets (fun _ => True) (setAuthorLinks E author links raw) a (Done E P a) := by
  refine .bind (.state ⟨fun self hself => ?_, nofun⟩)
  obtain rfl := Except.ok.inj hself
  refine .bind (.lift ⟨fun parsed hparsed => ?_, fun e _ => .failed e⟩)
  dsimp only
  split
  · next r hfind =>
      have hkey : keyFor E author ∈ a.keys := mem_keys_iff.2 (by rw [hfind]; rfl)
      split
      · exact .bind (.modify ⟨fun _ _ => .pure (.unchanged (.inr (.inr hkey))), nofun⟩)
      · exact take_meets raw (.known hauthor hparsed hkey)
  · next hfind =>
      have hkey : keyFor E author ∉ a.keys := by
        rw [mem_keys_iff, hfind]
        exact nofun
      refine .bind (.lift ⟨fun _ hcount => ?_, fun e _ => .failed e⟩)
      exact take_meets raw (.new hauthor hparsed hkey (require_ok.1 hcount))

/-- Setting links is done as `Done` says. -/
theorem setLinks_meets (links : List FileLink) (raw : Bytes) :
    Meets (fun _ => True) (setLinks E links raw) a (Done E P a) := by
  refine .bind (.lift ⟨fun parsed hparsed => ?_, fun e _ => .failed e⟩)
  refine .bind (.state ⟨fun self hself => ?_, nofun⟩)
  obtain rfl := Except.ok.inj hself
  split
  · exact .pure (.unchanged (.inr (.inl rfl)))
  · exact take_meets raw (.links hparsed)

/-- Every call leaves what `Done` says. -/
theorem perform_meets {c : AuthorshipCall} (hc : ∀ author ∈ c.author?, P author) :
    Meets (fun _ => True) (perform E c) a (Done E P a) := by
  cases c with
  | setAuthor author raw =>
      refine .bind (.state ⟨fun self hself => ?_, nofun⟩)
      obtain rfl := Except.ok.inj hself
      exact setAuthorLinks_meets (hc author rfl) _ raw
  | setAuthorLinks author links raw => exact setAuthorLinks_meets (hc author rfl) links raw
  | setLinks links raw => exact setLinks_meets links raw
  | setLinksFromStrings entries raw =>
      refine .bind (.lift ⟨fun links _ => ?_, fun e _ => .failed e⟩)
      exact setLinks_meets links raw
  | recordChange raw =>
      refine .bind (recordChange_meets raw (fun e => ⟨nofun, fun e _ => .failed e⟩)
        fun time htime hrevision hsize => ⟨fun _ _ => ?_, nofun⟩)
      exact .pure (.recorded .same htime hrevision hsize)
  | clearActiveAuthor =>
      exact .bind (.modify ⟨fun _ _ => .pure (.unchanged (.inl rfl)), nofun⟩)

/-- Each call that may occur is done as `Done` says. -/
theorem Step.done {c : AuthorshipCall} {r : Fallible Bool} (h : Step E a (c, r) b)
    (hc : ∀ author ∈ c.author?, P author) : Done E P a r b := by
  have hmeets := (perform_meets (E := E) (P := P) (a := a) hc [] nofun).1
  rw [show perform E c a [] = (r, b, []) from h] at hmeets
  exact hmeets

/-! ## What a ledger always is -/

/-- The times of an author are in order. -/
structure AuthorRecord.Ordered (modifiedAt : Bytes) (r : AuthorRecord) : Prop where
  first : r.firstChangedAt ≠ []
  last : order r.firstChangedAt ≤ order r.lastChangedAt
  modified : order r.lastChangedAt ≤ order modifiedAt

/-- What is true of every ledger. -/
structure Sound (a : Authorship) : Prop where
  nodup : a.keys.Nodup
  count : a.authors.length ≤ maximumAuthors
  times : ∀ r ∈ a.authors, AuthorRecord.Ordered a.modifiedAt r
  text : a.dump = a.text
  size : a.text.length ≤ maximumBytes

/-- What a later ledger has kept of an earlier one. -/
structure Grows (a b : Authorship) : Prop where
  keys : a.keys <+: b.keys
  first : ∀ (i : Nat) (r r' : AuthorRecord), a.authors[i]? = some r → b.authors[i]? = some r' →
    r.firstChangedAt ≠ [] → r'.firstChangedAt = r.firstChangedAt
  modified : order a.modifiedAt ≤ order b.modifiedAt

/-- What a call says of what it did. -/
structure Reports (a : Authorship) (r : Fallible Bool) (b : Authorship) : Prop where
  changed : r = .ok true → b.revision.toNat = a.revision.toNat + 1
  unchanged : r = .ok false → b.revision = a.revision ∧ b.modifiedAt = a.modifiedAt
    ∧ b.authors = a.authors ∧ b.dump = a.dump
  thrown : ∀ e, r = .error e → b = a

/-! ### Records at a key -/

section
variable {f : AuthorRecord → AuthorRecord} {l : List AuthorRecord}

/-- Changing the record of a key that is not there changes nothing. -/
theorem atKey_of_not_mem (h : key ∉ l.map (·.key)) : atKey key f l = l := by
  induction l with
  | nil => rfl
  | cons r l ih =>
      rw [List.map_cons, List.mem_cons, not_or] at h
      rw [atKey, if_neg (Ne.symm h.1), ih h.2]

/-- Where keys are unique, a change of the first record of a key is a change of every one. -/
theorem atKey_eq_map (h : (l.map (·.key)).Nodup) :
    atKey key f l = l.map fun r => if r.key = key then f r else r := by
  induction l with
  | nil => rfl
  | cons r l ih =>
      rw [List.map_cons, List.nodup_cons] at h
      rw [atKey, List.map_cons, ← ih h.2]
      split
      · next hr =>
          subst hr
          rw [atKey_of_not_mem h.1]
      · rfl

/-- Changing a record keeps the keys and their order. -/
theorem keys_atKey (hf : ∀ r, (f r).key = r.key) :
    (atKey key f l).map (·.key) = l.map (·.key) := by
  induction l with
  | nil => rfl
  | cons r l ih =>
      rw [atKey]
      split
      · rw [List.map_cons, List.map_cons, hf]
      · rw [List.map_cons, List.map_cons, ih]

/-- Changing a record keeps the number of records. -/
theorem length_atKey : (atKey key f l).length = l.length := by
  induction l with
  | nil => rfl
  | cons r l ih =>
      rw [atKey]
      split
      · rfl
      · rw [List.length_cons, List.length_cons, ih]

end

/-! ### Times -/

/-- A printed time is not empty. -/
theorem timeText_ne_nil (instant : Int) : timeText instant ≠ [] := by
  simp [timeText]

/-- An accepted time is not empty. -/
theorem timestamp_ne_nil {raw : Bytes} (h : timestamp raw = .ok time) : time ≠ [] := by
  obtain ⟨instant, -, rfl⟩ := timestamp_ok.1 h
  exact timeText_ne_nil instant

/-- The time of the last change does not go back. -/
theorem le_modified (time : Bytes) : order a.modifiedAt ≤ order (a.modified time) := by
  unfold modified
  split
  · next h =>
      rcases h with hnil | hlt
      · rw [hnil]
        exact not_lt.1 (List.not_lt_nil _)
      · exact hlt.le
  · exact le_rfl

/-- The time of a change is not empty. -/
theorem modified_ne_nil (h : time ≠ []) : a.modified time ≠ [] := by
  unfold modified
  split
  · exact h
  · next hnot => exact fun hnil => hnot (.inl hnil)

/-! ### A change keeps it -/

/-- A record that is in order at a time is in order later. -/
theorem AuthorRecord.Ordered.later {r : AuthorRecord} {t t' : Bytes}
    (h : AuthorRecord.Ordered t r) (ht : order t ≤ order t') : AuthorRecord.Ordered t' r :=
  ⟨h.first, h.last, h.modified.trans ht⟩

/-- A record that is set up is in order once a change is recorded in it. -/
theorem AuthorRecord.ordered_touched {r : AuthorRecord} {t t' : Bytes} (ht : t' ≠ [])
    (h : r.firstChangedAt = [] ∨ AuthorRecord.Ordered t r) (hle : order t ≤ order t') :
    AuthorRecord.Ordered t' (AuthorRecord.touched t' r) := by
  unfold AuthorRecord.touched
  rcases h with hnew | hold
  · rw [if_pos hnew]
    exact ⟨ht, le_rfl, le_rfl⟩
  · rw [if_neg hold.first]
    exact ⟨hold.first, hold.last.trans (hold.modified.trans hle), le_rfl⟩

/-- A prepared copy: the authors it has were there before, or the one it makes active is new behind
them. -/
structure Ready (a b : Authorship) : Prop where
  revision : b.revision = a.revision
  modified : b.modifiedAt = a.modifiedAt
  keys : a.keys <+: b.keys
  nodup : b.keys.Nodup
  count : b.authors.length ≤ maximumAuthors
  times : ∀ r ∈ b.authors, AuthorRecord.Ordered b.modifiedAt r
    ∨ r.key = b.activeAuthor ∧ r.firstChangedAt = []
  first : ∀ (i : Nat) (r r' : AuthorRecord), a.authors[i]? = some r → b.authors[i]? = some r' →
    r'.firstChangedAt = r.firstChangedAt

/-- A ledger prepared with an author's record is ready for the change. -/
theorem Prepared.ready (h : Prepared E P a b) (ha : Sound a) : Ready a b := by
  have hsame : ∀ (i : Nat) (r r' : AuthorRecord), a.authors[i]? = some r →
      a.authors[i]? = some r' → r'.firstChangedAt = r.firstChangedAt := by
    intro i r r' hr hr'
    obtain rfl := Option.some.inj (hr.symm.trans hr')
    rfl
  cases h with
  | same =>
      exact ⟨rfl, rfl, List.prefix_rfl, ha.nodup, ha.count, fun r hr => .inl (ha.times r hr), hsame⟩
  | links h =>
      exact ⟨rfl, rfl, List.prefix_rfl, ha.nodup, ha.count, fun r hr => .inl (ha.times r hr), hsame⟩
  | @known author _ _ _ _ hkey =>
      have hkeys : (atKey (keyFor E author) ({ · with profile := author.profile })
          a.authors).map (·.key) = a.authors.map (·.key) := keys_atKey fun _ => rfl
      have hmap : atKey (keyFor E author) ({ · with profile := author.profile }) a.authors
          = a.authors.map fun r => if r.key = keyFor E author
            then { r with profile := author.profile } else r := atKey_eq_map ha.nodup
      refine ⟨rfl, rfl, ?_, ?_, ?_, fun r hr => .inl ?_, fun i r r' hr hr' => ?_⟩
      · rw [keys, keys, hkeys]
      · rw [keys, hkeys]
        exact ha.nodup
      · rw [length_atKey]
        exact ha.count
      · change r ∈ atKey _ _ _ at hr
        rw [hmap] at hr
        obtain ⟨q, hq, rfl⟩ := List.mem_map.1 hr
        have hordered := ha.times q hq
        split
        · exact ⟨hordered.first, hordered.last, hordered.modified⟩
        · exact hordered
      · change (atKey _ _ _)[i]? = some r' at hr'
        rw [hmap, List.getElem?_map, hr] at hr'
        obtain rfl := Option.some.inj hr'
        rw [apply_ite AuthorRecord.firstChangedAt]
        exact ite_self _
  | @new author _ _ _ _ hkey hcount =>
      refine ⟨rfl, rfl, ?_, ?_, ?_, fun r hr => ?_, fun i r r' hr hr' => ?_⟩
      · rw [keys, keys, List.map_append]
        exact List.prefix_append _ _
      · rw [keys, List.map_append]
        refine List.nodup_append'.2 ⟨ha.nodup, List.nodup_singleton _, ?_⟩
        rintro k hk hlast
        obtain rfl := List.mem_singleton.1 hlast
        exact hkey hk
      · rw [List.length_append]
        exact hcount
      · rcases List.mem_append.1 hr with hr | hr
        · exact .inl (ha.times r hr)
        · obtain rfl := List.mem_singleton.1 hr
          exact .inr ⟨rfl, rfl⟩
      · have hlt : i < a.authors.length := (List.getElem?_eq_some_iff.1 hr).1
        change (a.authors ++ _)[i]? = some r' at hr'
        rw [List.getElem?_append_left hlt] at hr'
        exact hsame i r r' hr hr'

/-- A revision that is not exhausted is raised by one. -/
theorem toNat_succ {n : UInt64} (h : n.toNat ≠ 2 ^ 64 - 1) : (n + 1).toNat = n.toNat + 1 := by
  have hlt := n.toNat_lt
  rw [UInt64.toNat_add, UInt64.toNat_one, Nat.mod_eq_of_lt (by omega)]

/-- **A change that is recorded.** Only the record of the active author gets the time, which is not
before any time it had, and the text was measured before it was stored. -/
theorem Ready.recorded (h : Ready a b) (htime : time ≠ [])
    (hsize : (b.advanced time).text.length ≤ maximumBytes) :
    Sound (b.changed time) ∧ Grows a (b.changed time) := by
  have hmap : atKey b.activeAuthor (AuthorRecord.touched (b.modified time)) b.authors
      = b.authors.map fun r => if r.key = b.activeAuthor
        then AuthorRecord.touched (b.modified time) r else r := atKey_eq_map h.nodup
  have hkeys : (b.changed time).keys = b.keys := keys_atKey fun _ => rfl
  have hle : order b.modifiedAt ≤ order (b.modified time) := le_modified time
  refine ⟨⟨?_, ?_, fun r hr => ?_, rfl, hsize⟩, ⟨?_, fun i r r' hr hr' hfirst => ?_, ?_⟩⟩
  · rw [hkeys]
    exact h.nodup
  · change (atKey _ _ _).length ≤ _
    rw [length_atKey]
    exact h.count
  · change r ∈ atKey _ _ _ at hr
    rw [hmap] at hr
    obtain ⟨q, hq, rfl⟩ := List.mem_map.1 hr
    rcases h.times q hq with hordered | ⟨hactive, hnew⟩
    · split
      · exact AuthorRecord.ordered_touched (modified_ne_nil htime) (.inr hordered) hle
      · exact hordered.later hle
    · rw [if_pos hactive]
      exact AuthorRecord.ordered_touched (t := b.modifiedAt) (modified_ne_nil htime) (.inl hnew) hle
  · rw [hkeys]
    exact h.keys
  · change (atKey _ _ _)[i]? = some r' at hr'
    rw [hmap, List.getElem?_map] at hr'
    obtain ⟨q, hq, rfl⟩ := Option.map_eq_some_iff.1 hr'
    have hsame := h.first i r q hr hq
    split
    · show (if q.firstChangedAt = [] then _ else q.firstChangedAt) = _
      rw [hsame, if_neg hfirst]
    · exact hsame
  · rw [← h.modified]
    exact hle

/-- A ledger grows into itself. -/
theorem Grows.refl (a : Authorship) : Grows a a := by
  refine ⟨List.prefix_rfl, fun i r r' hr hr' _ => ?_, le_rfl⟩
  obtain rfl := Option.some.inj (hr.symm.trans hr')
  rfl

/-- Growing is transitive: records are only appended. -/
theorem Grows.trans {c : Authorship} (h : Grows a b) (h' : Grows b c) : Grows a c := by
  refine ⟨h.keys.trans h'.keys, fun i r r'' hr hr'' hfirst => ?_, h.modified.trans h'.modified⟩
  have hlt : i < b.authors.length := by
    have hlength := h.keys.length_le
    rw [Authorship.keys, Authorship.keys, List.length_map, List.length_map] at hlength
    exact (List.getElem?_eq_some_iff.1 hr).1.trans_le hlength
  have hr' : b.authors[i]? = some b.authors[i] := List.getElem?_eq_getElem hlt
  have hmiddle := h.first i r _ hr hr' hfirst
  exact (h'.first i _ r'' hr' hr'' (hmiddle ▸ hfirst)).trans hmiddle

/-- **What one call keeps.** A call that fails or changes nothing has nothing to show, and the third
case is a change recorded in a prepared copy. -/
theorem Done.keeps {r : Fallible Bool} (h : Done E P a r b) (ha : Sound a) :
    Sound b ∧ Grows a b ∧ Reports a r b := by
  cases h with
  | failed e => exact ⟨ha, .refl a, nofun, nofun, fun _ _ => rfl⟩
  | unchanged h =>
      refine ⟨⟨ha.nodup, ha.count, ha.times, ha.text, ha.size⟩, ?_, nofun, ?_, nofun⟩
      · exact ⟨(Grows.refl a).keys, (Grows.refl a).first, le_rfl⟩
      · exact fun _ => ⟨rfl, rfl, rfl, rfl⟩
  | recorded h htime hrevision hsize =>
      have hready := h.ready ha
      obtain ⟨hsound, hgrows⟩ := hready.recorded (timestamp_ne_nil htime) hsize
      refine ⟨hsound, hgrows, fun _ => ?_, nofun, nofun⟩
      show (_ + 1 : UInt64).toNat = _
      rw [toNat_succ hrevision, hready.revision]

/-! ### A ledger that is read -/

/-- A required date is not empty. -/
theorem optionalDate_ne_nil {value : Json} {name : Bytes}
    (h : optionalDate value name true = .ok time) : time ≠ [] := by
  unfold optionalDate at h
  split at h
  · simp at h
  · simp at h
  · exact timestamp_ne_nil h
  · cases h

/-- The authors that are read: unique, in order, and one for each item. The induction is on the
items: the reader refuses a key that was read before and times out of order. -/
theorem authorsFrom_ok {modifiedAt : Bytes} {items : List Json} {authors l : List AuthorRecord}
    (h : authorsFrom E modifiedAt authors items = .ok l)
    (hnodup : (authors.map (·.key)).Nodup)
    (htimes : ∀ r ∈ authors, AuthorRecord.Ordered modifiedAt r) :
    (l.map (·.key)).Nodup ∧ (∀ r ∈ l, AuthorRecord.Ordered modifiedAt r)
      ∧ l.length = authors.length + items.length := by
  induction items generalizing authors with
  | nil =>
      obtain rfl := pure_ok.1 h
      exact ⟨hnodup, htimes, rfl⟩
  | cons item items ih =>
      simp only [authorsFrom, bind_ok, require_ok] at h
      obtain ⟨_, -, _, -, _, -, author, -, key, -, _, ⟨-, hkey⟩, first, hfirst, last, -, _,
        ⟨hlast, hmodified⟩, h⟩ := h
      have hrest := ih h ?_ ?_
      · obtain ⟨hunique, hordered, hlength⟩ := hrest
        refine ⟨hunique, hordered, ?_⟩
        rw [hlength, List.length_append, List.length_singleton, List.length_cons]
        omega
      · rw [List.map_append]
        refine List.nodup_append'.2 ⟨hnodup, List.nodup_singleton _, ?_⟩
        rintro k hk hnew
        obtain rfl := List.mem_singleton.1 hnew
        exact hkey hk
      · intro r hr
        rcases List.mem_append.1 hr with hr | hr
        · exact htimes r hr
        · obtain rfl := List.mem_singleton.1 hr
          exact ⟨optionalDate_ne_nil hfirst, hlast, hmodified⟩

/-- What it takes to read a ledger. -/
structure Reads (E : NativeLibraries) (bytes : Bytes) (value : Json) (schema : Int)
    (items : List Json) (a : Authorship) : Prop where
  length : bytes.length ≤ maximumBytes
  parse : E.json.parseText bytes = .ok value
  version : ∃ version, value.member (ascii "schemaVersion") = .ok version
    ∧ version.getInt32 = .ok schema ∧ version.equal (.int schema) = true
  range : 1 ≤ schema ∧ schema ≤ 3
  limit : withinLimit E schema value = .ok ()
  keys : Native.keys value (schemaKeys schema) = .ok ()
  revision : revisionOf E value = .ok a.revision
  modifiedAt : optionalDate value (ascii "modifiedAt") (a.revision ≠ 0) = .ok a.modifiedAt
  list : ∃ list, value.member (ascii "authors") = .ok list ∧ list.getElements = .ok items
  count : items.length ≤ maximumAuthors
  authors : authorsFrom E a.modifiedAt [] items = .ok a.authors
  lastAuthor : lastAuthorOf value a.authors = .ok a.lastAuthor
  links : linksOf E schema value = .ok a.links
  blank : a.revision ≠ 0 ∨ (a.authors = [] ∧ a.links = [] ∧ a.modifiedAt = [])
  size : a.text.length ≤ maximumBytes
  roles : rolesAgree E schema value a.text = .ok ()
  activeAuthor : a.activeAuthor = []
  dump : a.dump = a.text

/-- A text is read as a ledger exactly when it reads as its document, schema and records say. -/
theorem ofDump_ok {bytes : Bytes} :
    ofDump E bytes = .ok a ↔ ∃ value schema items, Reads E bytes value schema items a := by
  simp only [ofDump, bind_ok, require_ok, failIf_ok, not_lt, pure_ok]
  constructor
  · rintro ⟨_, hlength, value, hparse, version, hversion, schema, hint, _, ⟨hequal, hschema⟩, _,
      hlimit, _, hkeys, revision, hrevision, modifiedAt, hmodified, list, hlist, items, hitems, _,
      hcount, authors, hauthors, lastAuthor, hlast, links, hlinks, _, hblank, _, hsize, _, hroles,
      rfl⟩
    exact ⟨value, schema, items, hlength, hparse, ⟨version, hversion, hint, hequal⟩, hschema,
      hlimit, hkeys, hrevision, hmodified, ⟨list, hlist, hitems⟩, hcount, hauthors, hlast, hlinks,
      hblank, hsize, hroles, rfl, rfl⟩
  · rintro ⟨value, schema, items, h⟩
    obtain ⟨version, hversion, hint, hequal⟩ := h.version
    obtain ⟨list, hlist, hitems⟩ := h.list
    obtain ⟨revision, modifiedAt, lastAuthor, activeAuthor, dump, authors, links⟩ := a
    obtain rfl : activeAuthor = [] := h.activeAuthor
    obtain rfl : dump = text ⟨revision, modifiedAt, lastAuthor, [], [], authors, links⟩ := h.dump
    exact ⟨(), h.length, value, h.parse, version, hversion, schema, hint, (), ⟨hequal, h.range⟩,
      (), h.limit, (), h.keys, revision, h.revision, modifiedAt, h.modifiedAt, list, hlist, items,
      hitems, (), h.count, authors, h.authors, lastAuthor, h.lastAuthor, links, h.links, (),
      h.blank, (), h.size, (), h.roles, rfl⟩

/-- The call that reads a ledger answers where the reading succeeds. -/
theorem fromDump_eq_some {bytes : Bytes} : fromDump E bytes = some a ↔ ofDump E bytes = .ok a :=
  toOption_eq_some

/-- The empty ledger is sound. -/
theorem sound_empty : Sound empty := by
  refine ⟨List.nodup_nil, Nat.zero_le _, nofun, rfl, ?_⟩
  decide +kernel

/-- Every ledger that the calls lead to is sound. -/
theorem Native.sound (h : Native E a) : Sound a := by
  rcases h with rfl | ⟨bytes, h⟩
  · exact sound_empty
  · obtain ⟨value, schema, items, h⟩ := ofDump_ok.1 (fromDump_eq_some.1 h)
    obtain ⟨hnodup, htimes, hlength⟩ := authorsFrom_ok h.authors List.nodup_nil nofun
    refine ⟨hnodup, ?_, htimes, h.dump, h.size⟩
    rw [hlength, List.length_nil, Nat.zero_add]
    exact h.count

/-! ## Whole runs -/

/-- Each call keeps a ledger sound, lets it only grow and reports what it did. -/
theorem Step.keeps {e : AuthorshipCall × Fallible Bool} (h : Step E a e b) (ha : Sound a) :
    Sound b ∧ Grows a b ∧ Reports a e.2 b :=
  (h.done (P := fun _ => True) fun _ _ => trivial).keeps ha

/-- **The roster only grows.** After any calls on a ledger, new or read, its keys are unique and at
most 256, and the times of every author are in order. Whatever is called from there, every author
keeps its place, its key and the time of its first change, and the time of the last change does not
go back. A call that reports a change raises the revision by one; a call that reports none leaves
the revision, the times and the text; and a call that throws leaves the whole ledger. -/
theorem roster_append_only {start : Authorship} {calls : List (AuthorshipCall × Fallible Bool)}
    (hstart : Native E start) (h : Run (Step E) start calls a) :
    Sound a
      ∧ (∀ later b, Run (Step E) a later b → Grows a b)
      ∧ ∀ c r b, Step E a (c, r) b → Reports a r b := by
  have hsound : Sound a := h.invariant (fun hs hstep => (hstep.keeps hs).1) hstart.sound
  refine ⟨hsound, fun later b hlater => ?_, fun c r b hstep => (hstep.keeps hsound).2.2⟩
  exact hlater.relates Grows.refl Grows.trans (fun hs hstep => (hstep.keeps hs).1)
    (fun hs hstep => (hstep.keeps hs).2.1) hsound

/-! ### A ledger with one author -/

/-- What a call returns is a step. -/
theorem Step.of_result {c : AuthorshipCall} {r : Fallible Bool} (h : (perform E c a []).1 = r) :
    Step E a (c, r) (perform E c a []).2.1 := by
  subst h
  have hrest : (perform E c a []).2.2 = [] := List.eq_nil_iff_forall_not_mem.2 nofun
  exact Prod.ext rfl (Prod.ext rfl hrest)

/-- An author as it is made, without a profile. -/
def sampleAuthor : FileAuthor := ⟨⟨⟨[], [], [], [], [], []⟩, [], []⟩, []⟩

/-- What the sample calls. -/
def sampleCall : AuthorshipCall := .setAuthor sampleAuthor (ascii "2024-05-01T00:00:00Z")

/-- The ledger of the sample's author. -/
def sample : Authorship := (perform .reference sampleCall empty []).2.1

/-- A ledger with two authors only grows in every run that follows. -/
theorem roster_append_only_sample :
    Sound sample
      ∧ (∀ later b, Run (Step .reference) sample later b → Grows sample b)
      ∧ ∀ c r b, Step .reference sample (c, r) b → Reports sample r b := by
  have hresult : (perform .reference sampleCall empty []).1.toOption = some true := by
    decide +kernel
  have hstep : Step .reference empty (sampleCall, .ok true) sample :=
    Step.of_result (toOption_eq_some.1 hresult)
  exact roster_append_only (.inl rfl) (.cons hstep (.nil _))

end Authorship

end FileProvider
