import FileProvider.Native.Roster
import Mathlib.Data.List.DropRight

/-!
# Named links of the native library

The form of a link is its name and its address, between brackets and with a bar between them. A name
is written without a bar, so the first bar of the form is the one behind the name, and a link is
read back from its form.

The text of a name is composed, trimmed and checked, and `clean_clean` says that doing so twice
changes nothing. A ledger takes a list of links that is accepted if it is `Settable`: it has the
list already, or the change can be recorded.
-/

namespace FileProvider

open Bytes Fallible

/-! ## Forms -/

section Forms

variable {α : Type} [DecidableEq α] {opening bar closing : α}

/-- A name and an address between brackets, with a bar between them. -/
def bracketed (opening bar closing : α) (name url : List α) : List α :=
  opening :: (name ++ bar :: (url ++ [closing]))

variable {name url : List α}

/-- The first bar of a form is the one behind its name. -/
theorem takeWhile_bracketed (closing : α) (url : List α) (hopening : opening ≠ bar)
    (hname : bar ∉ name) :
    (bracketed opening bar closing name url).takeWhile (· ≠ bar) = opening :: name := by
  unfold bracketed
  rw [List.takeWhile_cons_of_pos (by simpa using hopening), List.takeWhile_append_of_pos,
    List.takeWhile_cons_of_neg (by simp), List.append_nil]
  intro b hb
  refine decide_eq_true ?_
  rintro rfl
  exact hname hb

omit [DecidableEq α] in
/-- The form of a link is three bytes longer than its two texts. -/
theorem length_bracketed :
    (bracketed opening bar closing name url).length = name.length + url.length + 3 := by
  simp only [bracketed, List.length_cons, List.length_append, List.length_nil]
  omega

omit [DecidableEq α] in
/-- The name is cut out of the form. -/
theorem name_of_bracketed :
    ((bracketed opening bar closing name url).drop 1).take name.length = name := by
  unfold bracketed
  rw [List.drop_one, List.tail_cons, List.take_left]

omit [DecidableEq α] in
/-- The address is cut out of the form. -/
theorem url_of_bracketed :
    ((bracketed opening bar closing name url).drop (name.length + 2)).take url.length = url := by
  unfold bracketed
  rw [show name.length + 2 = name.length + 1 + 1 from rfl, List.drop_succ_cons, List.append_cons,
    List.drop_left' (by simp), List.take_left]

omit [DecidableEq α] in
/-- The form ends in its closing bracket. -/
theorem getLast?_bracketed :
    (bracketed opening bar closing name url).getLast? = some closing := by
  unfold bracketed
  rw [← List.cons_append, List.append_cons, ← List.append_assoc, List.getLast?_concat]

end Forms

/-! ## Texts that are clean -/

namespace Native

/-- What is trimmed is a part of the text. -/
theorem trim_part (points : List Char) : ∃ s t, points = s ++ trim points ++ t := by
  have hfront := List.takeWhile_append_dropWhile (p := whitespace) (l := points)
  have hback := List.takeWhile_append_dropWhile (p := whitespace)
    (l := (points.dropWhile whitespace).reverse)
  have hback := congrArg List.reverse hback
  rw [List.reverse_append, List.reverse_reverse] at hback
  refine ⟨points.takeWhile whitespace,
    ((points.dropWhile whitespace).reverse.takeWhile whitespace).reverse, ?_⟩
  unfold trim
  rw [List.append_assoc, hback, hfront]

/-- A text without white space at its ends is left as it is. The text is a beginning of what is left
when the spaces in front are dropped, and so has none in front of it itself. -/
theorem trim_trim (points : List Char) : trim (trim points) = trim points := by
  have htrim : ∀ s : List Char, trim s = (s.dropWhile whitespace).rdropWhile whitespace :=
    fun _ => rfl
  have hprefix : trim points <+: points.dropWhile whitespace := by
    rw [htrim]
    exact List.rdropWhile_prefix _ _
  have hfront : (trim points).dropWhile whitespace = trim points := by
    obtain ⟨rest, hrest⟩ := hprefix
    generalize trim points = t at hrest
    cases t with
    | nil => rfl
    | cons c t =>
        have hidem := List.dropWhile_idempotent whitespace points
        rw [← hrest, List.cons_append] at hidem
        by_cases hc : whitespace c = true
        · rw [List.dropWhile_cons_of_pos hc] at hidem
          have hlength := congrArg List.length hidem
          have hle := (List.dropWhile_sublist (p := whitespace) (l := t ++ rest)).length_le
          rw [List.length_cons] at hlength
          omega
        · exact List.dropWhile_cons_of_neg hc
  rw [htrim (trim points), hfront, htrim, List.rdropWhile_idempotent]

/-- A text that is composed and trimmed is so already. -/
theorem compose_trim (U : Utf8proc) (points : List Char) :
    U.compose (trim (U.compose points)) = trim (U.compose points) := by
  obtain ⟨s, t, hparts⟩ := trim_part (U.compose points)
  refine U.compose_part s _ t ?_
  rw [← hparts, U.compose_idem]

/-- **A clean text is left as it is.** Composing and trimming a text that was composed and trimmed
leaves it, so that the checks are made on the same scalars again. -/
theorem clean_clean {U : Utf8proc} {value cleaned : Bytes} {maximum : Nat}
    {required multiline : Bool} (h : clean U value maximum required multiline = .ok cleaned) :
    clean U cleaned maximum required multiline = .ok cleaned := by
  simp only [clean, normalize, scalars, bind_ok, orFail_ok, require_ok, pure_ok,
    Bool.false_eq_true, if_false] at h
  obtain ⟨_, ⟨points, -, rfl⟩, points', hpoints', _, hlimits, _, hprintable, rfl⟩ := h
  obtain rfl := Option.some.inj ((Utf8.scalars_encode _).symm.trans hpoints')
  have hcompose := compose_trim U points
  have htrim := trim_trim (U.compose points)
  simp only [clean, normalize, scalars, bind_ok, orFail_ok, require_ok, pure_ok,
    Bool.false_eq_true, if_false]
  refine ⟨_, ⟨_, Utf8.scalars_encode _, rfl⟩, _, Utf8.scalars_encode _, (), ?_, (), ?_, ?_⟩
  · rw [hcompose, htrim]
    exact hlimits
  · rw [hcompose, htrim]
    exact hprintable
  · rw [hcompose, htrim]

end Native

/-! ## Links -/

namespace FileLink

variable {E : NativeLibraries} {l : FileLink}

/-- The form of a link: `[name|url]`. -/
def form (l : FileLink) : Bytes := bracketed 91 124 93 l.name l.url

/-- A link that `create` makes. -/
def Created (E : NativeLibraries) (l : FileLink) : Prop := ∃ name url, create E name url = some l

/-- A link that is created has a clean name without a bar, and an accepted address as it was given.
-/
theorem create_ok {name url : Bytes} (h : create E name url = some l) :
    Native.clean E.unicode name 160 true false = .ok l.name ∧ 124 ∉ l.name ∧
      Native.validUri url false = true ∧ l.url = url := by
  have hchecked := toOption_eq_some.1 h
  simp only [checked, bind_ok, Native.require_ok, pure_ok] at hchecked
  obtain ⟨cleaned, hclean, _, ⟨hbar, hvalid⟩, rfl⟩ := hchecked
  exact ⟨hclean, hbar, hvalid, rfl⟩

/-- A link is made again of its name and its address. -/
theorem Created.create (h : Created E l) : FileLink.create E l.name l.url = some l := by
  obtain ⟨name, url, h⟩ := h
  obtain ⟨hclean, hbar, hvalid, hurl⟩ := create_ok h
  refine toOption_eq_some.2 ?_
  simp only [checked, bind_ok, Native.require_ok, pure_ok]
  exact ⟨l.name, Native.clean_clean hclean, (), ⟨hbar, hurl ▸ hvalid⟩, rfl⟩

/-- The name of a created link is not empty and holds no bar. -/
theorem Created.name (h : Created E l) : l.name ≠ [] ∧ 124 ∉ l.name := by
  obtain ⟨name, url, h⟩ := h
  obtain ⟨hclean, hbar, -, -⟩ := create_ok h
  refine ⟨?_, hbar⟩
  simp only [Native.clean, bind_ok, Native.require_ok, pure_ok] at hclean
  obtain ⟨_, -, points, -, _, ⟨-, hrequired⟩, _, -, hname⟩ := hclean
  intro hnil
  rw [hnil, Utf8.encode_eq_nil] at hname
  exact hrequired.elim (fun hfalse => by cases hfalse) fun hne => hne hname

/-- The address of a created link is not empty. -/
theorem Created.url (h : Created E l) : l.url ≠ [] := by
  obtain ⟨name, url, h⟩ := h
  obtain ⟨-, -, hvalid, hurl⟩ := create_ok h
  rw [hurl]
  rintro rfl
  exact Bool.false_ne_true hvalid

/-- **A link is read back from its form.** The name holds no bar, so that the first one in the form
ends the name, and the lengths of the two parts are read off the form. -/
theorem Created.fromString (h : Created E l) : FileLink.fromString E l.form = some l := by
  obtain ⟨hname, hbar⟩ := h.name
  have hurl := List.length_pos_iff.2 h.url
  have hlengthName := List.length_pos_iff.2 hname
  have hfront := takeWhile_bracketed 93 l.url (show (91 : UInt8) ≠ 124 from of_decide_eq_true rfl)
    hbar
  have hlength : l.form.length = l.name.length + l.url.length + 3 := length_bracketed
  unfold FileLink.fromString
  dsimp only
  rw [if_neg]
  · unfold form at hlength ⊢
    rw [hfront, hlength, List.length_cons, Native.substr, Native.substr,
      show l.name.length + 1 - 1 = l.name.length from rfl, name_of_bracketed,
      show l.name.length + l.url.length + 3 - (l.name.length + 1) - 2 = l.url.length by omega]
    rw [show l.name.length + 1 + 1 = l.name.length + 2 from rfl, url_of_bracketed]
    exact h.create
  · rintro (hopen | hclose | hmissing | hshort | hlong)
    · exact hopen rfl
    · exact hclose getLast?_bracketed
    · refine hmissing (List.mem_cons_of_mem _ (List.mem_append_right _ List.mem_cons_self))
    · unfold form at hshort
      rw [hfront, List.length_cons] at hshort
      omega
    · rw [hlength] at hlong
      unfold form at hlong
      rw [hfront, List.length_cons] at hlong
      omega

/-- Links with one form are one link. -/
theorem Created.eq_of_form {l' : FileLink} (h : Created E l) (h' : Created E l')
    (hform : l.form = l'.form) : l = l' := by
  have hread := h.fromString
  rw [hform, h'.fromString] at hread
  exact (Option.some.inj hread).symm

end FileLink

/-! ## Lists of links -/

namespace Authorship

variable {E : NativeLibraries} {links : List FileLink}

/-- Created links that are distinct are taken as they are. -/
theorem validatedFrom_created {result : List FileLink} (h : ∀ l ∈ links, l.Created E)
    (hdistinct : (result ++ links).Nodup) :
    validatedFrom E result links = .ok (result ++ links) := by
  induction links generalizing result with
  | nil =>
      rw [List.append_nil]
      rfl
  | cons l links ih =>
      obtain ⟨hl, hlinks⟩ := List.forall_mem_cons.1 h
      simp only [validatedFrom, bind_ok, orFail_ok, Native.require_ok]
      have hnew : l ∉ result := by
        intro hmem
        exact (List.nodup_append.1 hdistinct).2.2 l hmem l List.mem_cons_self rfl
      rw [List.append_cons] at hdistinct ⊢
      exact ⟨l, hl.create, (), hnew, ih hlinks hdistinct⟩

/-- Distinct links that `create` makes are accepted as they are. -/
theorem validatedLinks_created (h : ∀ l ∈ links, l.Created E) (hdistinct : links.Nodup)
    (hlength : links.length ≤ maximumLinks) : validatedLinks E links = .ok links := by
  simp only [validatedLinks, bind_ok, Native.require_ok]
  exact ⟨(), hlength, validatedFrom_created h hdistinct⟩

/-- The forms of links are read back. -/
theorem mapM_forms (h : ∀ l ∈ links, l.Created E) :
    ((links.map FileLink.form).mapM fun entry =>
      orFail "Invalid persisted author metadata" (FileLink.fromString E entry)) = .ok links := by
  rw [mapM_ok, List.map_map]
  refine List.map_congr_left fun l hl => ?_
  exact orFail_ok.2 (h l hl).fromString

/-- What lets a ledger take a list of links: it has the list already, or a change can be recorded,
at an accepted time, after a revision that is not the last, and in a text within its limit. -/
def Settable (links : List FileLink) (raw : Bytes) (a : Authorship) : Prop :=
  links = a.links ∨ ∃ time, Native.timestamp raw = .ok time ∧ a.revision.toNat ≠ 2 ^ 64 - 1 ∧
    (({ a with links } : Authorship).advanced time).text.length ≤ maximumBytes

/-- A change that can be recorded is recorded. -/
theorem recordChange_run {raw time : Bytes} {a : Authorship}
    (htime : Native.timestamp raw = .ok time)
    (hrevision : a.revision.toNat ≠ 2 ^ 64 - 1)
    (hsize : (a.advanced time).text.length ≤ maximumBytes) :
    recordChange raw a [] = (.ok (), a.changed time, []) := by
  have hdump : rebuildDump (a.advanced time) [] = (.ok (), a.changed time, []) := by
    rw [rebuildDump, Program.bind_run]
    simp only [Program.state]
    rw [Program.bind_run, Program.failIf_run (not_lt.2 hsize)]
    rfl
  rw [recordChange, htime, Program.bind_run]
  simp only [Program.lift]
  rw [Program.bind_run]
  simp only [Program.state]
  rw [Program.bind_run, Program.failIf_run hrevision]
  simp only [Program.bind_run, Program.within, hdump]
  rfl

/-- A list that is set leaves the ledger with it, and a list that cannot be set leaves the ledger as
it is. -/
theorem setLinks_sets (hvalid : validatedLinks E links = .ok links) (raw : Bytes)
    (a : Authorship) :
    Program.Meets (fun _ => True) (setLinks E links raw) a
      fun r a' => (∀ b, r = .ok b → Settable links raw a ∧ a'.links = links) ∧
        ∀ e, r = .error e → a' = a := by
  refine .bind (.lift ⟨fun parsed hparsed => ?_, fun e herror => ?_⟩)
  · obtain rfl : links = parsed := Except.ok.inj (hvalid.symm.trans hparsed)
    refine .bind (.state ⟨fun self hself => ?_, nofun⟩)
    obtain rfl := Except.ok.inj hself
    split
    · next hsame => exact .pure ⟨fun _ _ => ⟨.inl hsame, hsame.symm⟩, nofun⟩
    · refine .bind (.within (recordChange_meets raw
        (fun e => ⟨nofun, fun e _ => ⟨nofun, fun _ _ => rfl⟩⟩)
        fun time htime hrevision hsize => ⟨fun next hnext => ?_, nofun⟩))
      obtain rfl := Except.ok.inj hnext
      exact .bind (.modify ⟨fun _ _ => .pure
        ⟨fun _ _ => ⟨.inr ⟨time, htime, hrevision, hsize⟩, rfl⟩, nofun⟩, nofun⟩)
  · rw [hvalid] at herror
    cases herror

/-- **A list that can be set is set.** The links pass their own check, so that only the comparison
with the present ones and the new revision are left. -/
theorem setLinks_run (hvalid : validatedLinks E links = .ok links) {raw : Bytes} {a : Authorship}
    (h : Settable links raw a) : ∃ b, (setLinks E links raw a []).1 = .ok b := by
  rw [setLinks, hvalid, Program.bind_run]
  simp only [Program.lift]
  rw [Program.bind_run]
  simp only [Program.state]
  split
  · exact ⟨false, rfl⟩
  · next hnew =>
      obtain ⟨time, htime, hrevision, hsize⟩ := h.resolve_left hnew
      have hrun := recordChange_run (a := { a with links }) htime hrevision hsize
      rw [Program.bind_run]
      simp only [Program.within, hrun]
      exact ⟨true, rfl⟩

/-- **A list is set by its forms**: what `setLinksFromStrings` does with the forms of distinct links
is what `setLinks` does with the links. It sets them exactly if the ledger can take them, and leaves
the ledger as it is otherwise. -/
theorem setLinksFromStrings_forms (h : ∀ l ∈ links, l.Created E) (hdistinct : links.Nodup)
    (hlength : links.length ≤ maximumLinks) (raw : Bytes) (a : Authorship) :
    setLinksFromStrings E (links.map FileLink.form) raw a [] = setLinks E links raw a [] ∧
      Program.Decides (Settable links raw a) (fun a' => a'.links = links)
        (setLinksFromStrings E (links.map FileLink.form) raw) a := by
  have hsame : setLinksFromStrings E (links.map FileLink.form) raw a []
      = setLinks E links raw a [] := by
    rw [setLinksFromStrings, Program.bind_run, mapM_forms h]
    rfl
  have hvalid := validatedLinks_created h hdistinct hlength
  have hdecides := (setLinks_sets hvalid raw a).decides fun hset => setLinks_run hvalid hset
  refine ⟨hsame, ?_⟩
  unfold Program.Decides
  rwa [hsame]

end Authorship

end FileProvider
