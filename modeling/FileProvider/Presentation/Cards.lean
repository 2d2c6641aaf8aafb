import FileProvider.Library.Keyset
import FileProvider.Library.FixedWidth

/-!
# Cards of the provider

The records of a presentation, and the cards the provider draws itself: `xml` escapes a text for an
SVG document, and `card` draws the name, the kind and the first rows of a file.

The texts of the markup are those of the source, so that a card can be compared with what the source
writes byte for byte. Rows beyond those that a card has room for are left out, and long texts are
shortened before they are escaped.
-/

namespace FileProvider

open Bytes

namespace Presentation

/-! ## Records -/

/-- Properties in the order of their names. -/
structure Properties where
  entries : List (Bytes × Bytes)
  ascending : Keyset.Ascending (fun e => order e.1) entries

namespace Properties

/-- No properties are in order. -/
theorem ascending_nil : Keyset.Ascending (fun e : Bytes × Bytes => order e.1) [] := .nil

/-- The value of a property. -/
def get? (p : Properties) (name : Bytes) : Option Bytes :=
  (p.entries.find? (fun e => e.1 = name)).map (·.2)

/-- A property that is put takes the place of the one with its name. -/
theorem nodup_put (p : Properties) (name value : Bytes) :
    (((name, value) :: p.entries.filter (fun e => e.1 ≠ name)).map (fun e => order e.1)).Nodup := by
  rw [List.map_cons, List.nodup_cons]
  constructor
  · intro h
    obtain ⟨e, he, heq⟩ := List.mem_map.1 h
    have hne := of_decide_eq_true (List.mem_filter.1 he).2
    exact hne (order_injective heq)
  · exact p.ascending.nodup_keys.sublist (List.filter_sublist.map _)

/-- The properties with one set. -/
def put (p : Properties) (name value : Bytes) : Properties where
  entries := Keyset.orderBy (fun e => order e.1)
    ((name, value) :: p.entries.filter (fun e => e.1 ≠ name))
  ascending := Keyset.ascending_orderBy (p.nodup_put name value)

/-- The names of properties are distinct. -/
theorem nodup_names (p : Properties) : (p.entries.map (·.1)).Nodup := by
  have h : ((p.entries.map (·.1)).map order).Nodup := by
    rw [List.map_map]
    exact p.ascending.nodup_keys
  exact h.of_map

/-- A property is got exactly when it is there. -/
theorem get?_eq_some {p : Properties} {name value : Bytes} :
    p.get? name = some value ↔ (name, value) ∈ p.entries := by
  have hnodup := p.nodup_names
  unfold get?
  generalize p.entries = entries at hnodup ⊢
  induction entries with
  | nil => simp
  | cons e l ih =>
      rw [List.map_cons, List.nodup_cons] at hnodup
      by_cases he : e.1 = name
      · rw [List.find?_cons_of_pos (by simpa using he), Option.map_some, Option.some.injEq]
        constructor
        · rintro rfl
          rw [← he]
          exact List.mem_cons_self
        · intro h
          rcases List.mem_cons.1 h with h | h
          · rw [← h]
          · exact absurd (he ▸ List.mem_map_of_mem h) hnodup.1
      · rw [List.find?_cons_of_neg (by simpa using he), List.mem_cons]
        refine (ih hnodup.2).trans ⟨.inr, fun h => h.resolve_left ?_⟩
        rintro rfl
        exact he rfl

/-- Only the property that is set changes. -/
theorem get?_put (p : Properties) (name value name' : Bytes) :
    (p.put name value).get? name' = if name' = name then some value else p.get? name' := by
  refine Option.ext fun value' => ?_
  rw [get?_eq_some]
  unfold put
  rw [Keyset.mem_orderBy, List.mem_cons, List.mem_filter, Prod.mk.injEq, decide_eq_true_iff]
  split
  · next h =>
      rw [Option.some.injEq]
      exact ⟨fun h' => h'.elim (fun h' => h'.2.symm) fun h' => absurd h h'.2,
        fun h' => .inl ⟨h, h'.symm⟩⟩
  · next h =>
      rw [get?_eq_some]
      exact ⟨fun h' => h'.elim (fun h' => absurd h'.1 h) fun h' => h'.1, fun h' => .inr ⟨h', h⟩⟩

end Properties

/-- `FileDetails`. -/
structure FileDetails where
  name : Bytes
  extension : Bytes
  mimeType : Bytes
  size : UInt64
  modifiedAtNs : Int64
  properties : Properties

/-- `FilePreview`. -/
structure FilePreview where
  mimeType : Bytes
  kind : Bytes
  bytes : Bytes
  width : UInt32
  height : UInt32
deriving DecidableEq

/-! ## Code points -/

/-- A byte that continues a code point. -/
def continuation (b : UInt8) : Bool := b &&& 0xC0 = 0x80

/-- `utf8proc_iterate`: how many bytes the first code point of a text has, and the code point. -/
def iterate : Bytes → Option (Nat × Nat)
  | [] => none
  | a :: s =>
      if a.toNat < 0x80 then some (1, a.toNat)
      else if a.toNat < 0xC2 ∨ 0xF4 < a.toNat then none
      else if a.toNat < 0xE0 then
        match s with
        | b :: _ =>
            if continuation b then some (2, a.toNat % 32 * 64 + b.toNat % 64) else none
        | _ => none
      else if a.toNat < 0xF0 then
        match s with
        | b :: c :: _ =>
            if !continuation b || !continuation c then none
            else if a = 0xED ∧ 0x9F < b.toNat then none
            else if a.toNat % 16 * 4096 + b.toNat % 64 * 64 + c.toNat % 64 < 0x800 then none
            else some (3, a.toNat % 16 * 4096 + b.toNat % 64 * 64 + c.toNat % 64)
        | _ => none
      else
        match s with
        | b :: c :: d :: _ =>
            if !continuation b || !continuation c || !continuation d then none
            else if a = 0xF0 ∧ b.toNat < 0x90 ∨ a = 0xF4 ∧ 0x8F < b.toNat then none
            else some (4,
              a.toNat % 8 * 262144 + b.toNat % 64 * 4096 + c.toNat % 64 * 64 + d.toNat % 64)
        | _ => none

/-! ## Escaped texts -/

/-- U+FFFD, which stands for a byte that begins no code point. -/
def replacement : Bytes := [0xEF, 0xBF, 0xBD]

/-- A code point in an SVG document, given its bytes. -/
def escape (cp : Nat) (bytes : Bytes) : Bytes :=
  if cp = 38 then ascii "&amp;"
  else if cp = 60 then ascii "&lt;"
  else if cp = 62 then ascii "&gt;"
  else if cp = 34 then ascii "&quot;"
  else if cp = 39 then ascii "&apos;"
  else if 32 ≤ cp ∨ cp = 9 then bytes
  else []

/-- The loop of `xml`, which advances with every turn. -/
def xmlFrom : Nat → Bytes → Bytes
  | 0, _ => []
  | _, [] => []
  | fuel + 1, a :: s =>
      match iterate (a :: s) with
      | none => replacement ++ xmlFrom fuel s
      | some (n, cp) => escape cp ((a :: s).take n) ++ xmlFrom fuel ((a :: s).drop n)

/-- `xml`: a text in an SVG document. -/
def xml (input : Bytes) : Bytes := xmlFrom input.length input

/-! ## Cards -/

def svgStart : Bytes :=
  ascii "<svg xmlns=\"http://www.w3.org/2000/svg\" width=\"512\" height=\"512\" viewBox=\"0 0 512 512\">" ++
    ascii "<rect width=\"512\" height=\"512\" fill=\"#f7f7f8\"/>"

/-- A middle dot between spaces. -/
def dot : Bytes := [32, 0xC2, 0xB7, 32]

/-- Where the next newline is. -/
def newline? (content : Bytes) (start : Nat) : Option Nat :=
  ((content.drop start).findIdx? (· = 10)).map (start + ·)

/-- A row of at most 66 bytes, and those that continue its last code point. -/
def cut (content : Bytes) (start : Nat) : Nat :=
  let stop := min content.length (start + 66)
  stop + ((content.drop stop).takeWhile continuation).length

/-- Where the row from `start` ends. -/
def rowStop (content : Bytes) (start : Nat) : Nat :=
  match newline? content start with
  | some stop => if start + 66 < stop then cut content start else stop
  | none => cut content start

/-- The rows of a card, from the row of a number on. -/
def rows (content : Bytes) : Nat → Nat → Nat → Bytes
  | 0, _, _ => []
  | count + 1, row, start =>
      if start < content.length then
        let stop := rowStop content start
        ascii "<text x=\"24\" y=\"" ++ decimal (96 + row * 17) ++
          ascii "\" font-family=\"monospace\" font-size=\"12\" fill=\"#303134\">" ++
          xml ((content.drop start).take (stop - start)) ++ ascii "</text>" ++
          rows content count (row + 1) (stop + if content[stop]? = some 10 then 1 else 0)
      else []

def card (details : FileDetails) (content : Bytes) (isText : Bool) : FilePreview where
  mimeType := ascii "image/svg+xml"
  kind := ascii (if isText then "text" else "information")
  bytes := svgStart ++
    (ascii "<text x=\"24\" y=\"38\" font-family=\"sans-serif\" font-size=\"18\" fill=\"#202124\">" ++
      xml (details.name.take 120) ++ ascii "</text>") ++
    (ascii "<text x=\"24\" y=\"64\" font-family=\"sans-serif\" font-size=\"12\" fill=\"#555\">" ++
      xml (details.mimeType ++ dot ++ decimal details.size.toNat ++ ascii " bytes") ++
      ascii "</text>") ++
    rows content 23 0 0 ++ ascii "</svg>"
  width := 512
  height := 512

end Presentation

end FileProvider
