import FileProvider.Library.Json

/-!
# The sizes of JSON texts

The text of an object has the texts of its keys and values and three characters more for each
member, whatever their order. So a part that gets shorter makes the whole shorter, and what a text
holds is no longer than the text.

`textSize` is the size without the text, and the two agree wherever there is a text. The sizes are
what limits on documents are about: a document that keeps a limit keeps it when a member of it
becomes smaller.
-/

namespace Json

open Bytes

variable {realText : Double → Bytes}

/-- The size of the text of a value, where it has one. -/
def textSize (realText : Double → Bytes) (j : Json) : Nat :=
  ((dump realText j).map List.length).getD 0

/-- The size of a member with its colon and its comma. -/
def memberSize (realText : Double → Bytes) (m : Bytes × Json) : Nat :=
  textSize realText (.str m.1) + textSize realText m.2 + 2

/-- The size that is computed is the length of the text. -/
theorem textSize_eq {j : Json} {t : Bytes} (h : dump realText j = some t) :
    textSize realText j = t.length := by
  rw [textSize, h]
  rfl

/-- The text of an object is as long as its members and their separators. -/
theorem length_dumpMembers_eq {l : List (Bytes × Json)} {t : Bytes}
    (h : dumpMembers realText l = some t) :
    t.length = (l.map (memberSize realText)).sum + 1 := by
  induction l generalizing t with
  | nil =>
      obtain rfl := Option.some.inj h
      rfl
  | cons m l ih =>
      obtain ⟨k, v⟩ := m
      simp only [dumpMembers, Option.bind_eq_bind, Option.bind_eq_some_iff, Option.pure_def,
        Option.some.injEq] at h
      obtain ⟨name, hname, value, hvalue, rest, hrest, rfl⟩ := h
      have hkey : textSize realText (.str k) = name.length :=
        textSize_eq (by rw [dump]; exact hname)
      have htail := ih hrest
      simp only [List.map_cons, List.sum_cons, memberSize, hkey, textSize_eq hvalue,
        List.cons_append, List.length_cons, List.length_append]
      omega

/-- **The size of an object.** An empty one has its two braces. -/
theorem length_dump_object_eq {members : List (Bytes × Json)} {t : Bytes}
    (h : dump realText (object members) = some t) :
    t.length = max 2 ((members.map (memberSize realText)).sum + 1) := by
  have hperm : (Keyset.orderBy (fun m => order m.1) members).Perm members :=
    Keyset.orderBy_perm members
  rw [← (hperm.map (memberSize realText)).sum_nat]
  rw [object] at h
  generalize Keyset.orderBy (fun m => order m.1) members = l at h
  cases l with
  | nil =>
      rw [dump] at h
      obtain rfl := Option.some.inj h
      rfl
  | cons m l =>
      obtain ⟨rest, rfl, hpart⟩ := dump_obj_cons h
      have hsize := length_dumpMembers_eq hpart
      have htwo : 2 ≤ memberSize realText m := Nat.le_add_left 2 _
      simp only [List.map_cons, List.sum_cons, List.length_cons] at hsize ⊢
      omega

/-- No text of an array is shorter than that of the empty one. -/
theorem textSize_arr_le {l : List Json} {t : Bytes} (h : dump realText (.arr l) = some t) :
    textSize realText (.arr []) ≤ textSize realText (.arr l) := by
  have hempty : dump realText (.arr []) = some (ascii "[]") := by rw [dump]
  rw [textSize_eq hempty, textSize_eq h]
  cases l with
  | nil =>
      rw [hempty] at h
      exact (congrArg List.length (Option.some.inj h)).le
  | cons x l =>
      rw [dump] at h
      simp only [Option.bind_eq_bind, Option.bind_eq_some_iff, Option.pure_def,
        Option.some.injEq] at h
      obtain ⟨first, hfirst, rest, hrest, rfl⟩ := h
      have hclosed : 1 ≤ rest.length := by
        cases l with
        | nil =>
            rw [dumpElements] at hrest
            obtain rfl := Option.some.inj hrest
            exact le_rfl
        | cons y l =>
            rw [dumpElements] at hrest
            simp only [Option.bind_eq_bind, Option.bind_eq_some_iff, Option.pure_def,
              Option.some.injEq] at hrest
            obtain ⟨_, -, _, -, rfl⟩ := hrest
            exact Nat.succ_le_succ (Nat.zero_le _)
      have htwo : (ascii "[]").length = 2 := rfl
      simp only [List.cons_append, List.length_cons, List.length_append, htwo]
      omega

/-- A string is shorter than its text by the quotes at least. -/
theorem length_add_two_le_textSize {s t : Bytes} (h : dump realText (.str s) = some t) :
    s.length + 2 ≤ textSize realText (.str s) := by
  have hescaped : ∀ s : Bytes, s.length ≤ (s.flatMap escapeByte).length := by
    intro s
    induction s with
    | nil => exact le_rfl
    | cons b s ih =>
        have hb : 1 ≤ (escapeByte b).length := by
          unfold escapeByte
          split_ifs <;> simp
        rw [List.flatMap_cons, List.length_append, List.length_cons]
        omega
  rw [textSize_eq h]
  rw [dump, dumpString] at h
  split at h
  · obtain rfl := Option.some.inj h
    have hlen := hescaped s
    rw [List.cons_append, List.length_cons, List.length_append, List.length_singleton]
    omega
  · cases h

/-- The keys and the strings of an object, each with its quotes, fit into its text. The induction is
on the members: each adds the text of its key and that of its string, which have their quotes. -/
theorem length_strings_le {entries : List (Bytes × Bytes)} {t : Bytes}
    (h : dump realText (.obj (entries.map fun e => (e.1, .str e.2))) = some t) :
    (entries.map fun e => (e.1.length + 2) + (e.2.length + 2)).sum ≤ t.length := by
  have hmembers : ∀ {entries : List (Bytes × Bytes)} {t : Bytes},
      dumpMembers realText (entries.map fun e => (e.1, .str e.2)) = some t →
      (entries.map fun e => (e.1.length + 2) + (e.2.length + 2)).sum ≤ t.length := by
    intro entries
    induction entries with
    | nil => exact fun _ => Nat.zero_le _
    | cons e entries ih =>
        intro t h
        rw [List.map_cons] at h
        simp only [dumpMembers, Option.bind_eq_bind, Option.bind_eq_some_iff, Option.pure_def,
          Option.some.injEq] at h
        obtain ⟨name, hname, value, hvalue, rest, hrest, rfl⟩ := h
        have hkey : dump realText (.str e.1) = some name := by rw [dump]; exact hname
        have hkeyLength := length_add_two_le_textSize hkey
        have hvalueLength := length_add_two_le_textSize hvalue
        rw [textSize_eq hkey] at hkeyLength
        rw [textSize_eq hvalue] at hvalueLength
        have htail := ih hrest
        simp only [List.map_cons, List.sum_cons, List.cons_append, List.length_cons,
          List.length_append]
        omega
  cases entries with
  | nil => exact Nat.zero_le _
  | cons e entries =>
      obtain ⟨rest, rfl, hpart⟩ := dump_obj_cons h
      exact (@hmembers (e :: entries) _ hpart).trans_eq rfl

end Json
