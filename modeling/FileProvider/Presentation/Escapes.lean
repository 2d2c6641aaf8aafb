import FileProvider.Library.Utf8
import FileProvider.Presentation.Cards
import Mathlib.Algebra.Ring.Nat

/-!
# Escaped texts

`xml` repairs and escapes a text. `decoded` is the repaired text, with U+FFFD for every byte that
begins no code point, and `xml_eq` says that what is written is its escaped form. In that form the
signs of markup are references (`CharData`), and its characters are those of XML 1.0 but for U+FFFE
and U+FFFF, which are written as they are (`xmlChar_escaped`).

The repair and the escaping are one loop in the source, and two functions here, which `xml_eq` puts
together. That what is written has none of the signs of markup is a property of the escaped form of
one character, and goes over to texts by induction.
-/

namespace FileProvider

open Bytes

namespace Presentation

/-! ## Code points -/

/-- The source's test for a further byte is that of UTF-8. -/
theorem continuation_iff {b : UInt8} :
    continuation b = true ↔ 0x80 ≤ b.toNat ∧ b.toNat ≤ 0xBF := by
  have hall : ∀ n : Fin 256, continuation (UInt8.ofNat n.val) = true ↔
      0x80 ≤ n.val ∧ n.val ≤ 0xBF := by decide +kernel
  have hb := hall ⟨b.toNat, b.toNat_lt⟩
  rw [UInt8.ofNat_toNat] at hb
  exact hb

/-- A byte within the bounds is accepted as a further one. -/
theorem contByte_of_bounds {lo hi : Nat} {b : UInt8} (hlo : lo ≤ b.toNat) (hhi : b.toNat ≤ hi) :
    Json.contByte lo hi b = true := by
  unfold Json.contByte
  rw [decide_eq_true hlo, decide_eq_true hhi]
  rfl

/-- A text that begins with a code point begins with its bytes. -/
theorem iterate_char {s : Bytes} {n cp : Nat} : iterate s = some (n, cp) →
    cp.isValidChar ∧ ∃ rest, s = String.utf8EncodeChar (Char.ofNat cp) ++ rest ∧
      n = (String.utf8EncodeChar (Char.ofNat cp)).length := by
  fun_cases iterate s with
  | case2 a s hone =>
      intro h
      cases h
      refine ⟨.inl (by omega), s, ?_, ?_⟩
      · rw [Utf8.encode_one hone]
        rfl
      · rw [Utf8.encode_one hone]
        rfl
  | case4 a hone hlead htwo b s hb =>
      intro h
      cases h
      have hbounds := continuation_iff.1 hb
      have hchar := Utf8.encode_two (show 0xC2 ≤ a.toNat by omega) (show a.toNat ≤ 0xDF by omega)
        (contByte_of_bounds hbounds.1 hbounds.2)
      rw [show (a.toNat - 0xC0) * 64 + (b.toNat - 0x80) = a.toNat % 32 * 64 + b.toNat % 64 by omega]
        at hchar
      refine ⟨.inl (by omega), s, ?_, ?_⟩
      · rw [hchar]
        rfl
      · rw [hchar]
        rfl
  | case10 a hone hlead htwo hthree b c s hcont hsurrogate hover =>
      intro h
      cases h
      simp only [Bool.or_eq_true, Bool.not_eq_true', not_or, Bool.not_eq_false] at hcont
      have hb := continuation_iff.1 hcont.1
      have hc := continuation_iff.1 hcont.2
      have hed : a.toNat = 0xED → b.toNat ≤ 0x9F := fun ha =>
        Nat.not_lt.1 fun hlt => hsurrogate ⟨UInt8.toNat_inj.1 ha, hlt⟩
      have hsecond : (if a.toNat = 0xE0 then Json.contByte 0xA0 0xBF b
          else if a.toNat = 0xED then Json.contByte 0x80 0x9F b
          else Json.contByte 0x80 0xBF b) = true := by
        split
        · exact contByte_of_bounds (by omega) hb.2
        · split
          · next ha => exact contByte_of_bounds hb.1 (hed ha)
          · exact contByte_of_bounds hb.1 hb.2
      have hchar := Utf8.encode_three (show 0xE0 ≤ a.toNat by omega) (show a.toNat ≤ 0xEF by omega)
        hsecond (contByte_of_bounds hc.1 hc.2)
      rw [show ((a.toNat - 0xE0) * 64 + (b.toNat - 0x80)) * 64 + (c.toNat - 0x80)
        = a.toNat % 16 * 4096 + b.toNat % 64 * 64 + c.toNat % 64 by omega] at hchar
      refine ⟨?_, s, ?_, ?_⟩
      · unfold Nat.isValidChar
        omega
      · rw [hchar]
        rfl
      · rw [hchar]
        rfl
  | case14 a hone hlead htwo hthree b c d s hcont hrange =>
      intro h
      cases h
      simp only [Bool.or_eq_true, Bool.not_eq_true', not_or, Bool.not_eq_false] at hcont
      obtain ⟨⟨hb, hc⟩, hd⟩ := hcont
      have hb := continuation_iff.1 hb
      have hc := continuation_iff.1 hc
      have hd := continuation_iff.1 hd
      have hlow : a.toNat = 0xF0 → 0x90 ≤ b.toNat := fun ha =>
        Nat.not_lt.1 fun hlt => hrange (.inl ⟨UInt8.toNat_inj.1 ha, hlt⟩)
      have hhigh : a.toNat = 0xF4 → b.toNat ≤ 0x8F := fun ha =>
        Nat.not_lt.1 fun hlt => hrange (.inr ⟨UInt8.toNat_inj.1 ha, hlt⟩)
      have hsecond : (if a.toNat = 0xF0 then Json.contByte 0x90 0xBF b
          else if a.toNat = 0xF4 then Json.contByte 0x80 0x8F b
          else decide (0xF1 ≤ a.toNat) && decide (a.toNat ≤ 0xF3) && Json.contByte 0x80 0xBF b)
          = true := by
        split
        · next ha => exact contByte_of_bounds (hlow ha) hb.2
        · split
          · next ha => exact contByte_of_bounds hb.1 (hhigh ha)
          · rw [decide_eq_true (show 0xF1 ≤ a.toNat by omega),
              decide_eq_true (show a.toNat ≤ 0xF3 by omega), contByte_of_bounds hb.1 hb.2]
            rfl
      have hchar := Utf8.encode_four hsecond (contByte_of_bounds hc.1 hc.2)
        (contByte_of_bounds hd.1 hd.2)
      rw [show (((a.toNat - 0xF0) * 64 + (b.toNat - 0x80)) * 64 + (c.toNat - 0x80)) * 64
        + (d.toNat - 0x80) = a.toNat % 8 * 262144 + b.toNat % 64 * 4096 + c.toNat % 64 * 64
          + d.toNat % 64 by omega] at hchar
      refine ⟨?_, s, ?_, ?_⟩
      · unfold Nat.isValidChar
        omega
      · rw [hchar]
        rfl
      · rw [hchar]
        rfl
  | case1 | case3 | case5 | case6 | case7 | case8 | case9 | case11 | case12 | case13 | case15 =>
      intro h
      cases h

/-! ## Repaired texts -/

/-- The code points of a text, with U+FFFD for a byte that begins none. -/
def decodedFrom : Nat → Bytes → List Char
  | 0, _ => []
  | _, [] => []
  | fuel + 1, a :: s =>
      match iterate (a :: s) with
      | none => Char.ofNat 0xFFFD :: decodedFrom fuel s
      | some (n, cp) => Char.ofNat cp :: decodedFrom fuel ((a :: s).drop n)

/-- The repaired text. -/
def decoded (input : Bytes) : List Char := decodedFrom input.length input

/-- A character that `xml` keeps, or writes as a reference. -/
def kept (c : Char) : Bool := 32 ≤ c.toNat || c.toNat = 9

/-- The signs of markup, with the references that stand for them. -/
def references : List (Char × List Char) :=
  [('&', "&amp;".toList), ('<', "&lt;".toList), ('>', "&gt;".toList), ('"', "&quot;".toList),
    ('\'', "&apos;".toList)]

/-- A character in an SVG document. -/
def escaped (c : Char) : List Char :=
  match references.lookup c with
  | some name => name
  | none => if kept c then [c] else []

/-- A character is escaped to the encoding of what `escaped` says. The characters with an escape of
their own are compared one by one, and every other one is kept or replaced by its class. -/
theorem escape_char {cp : Nat} (h : cp.isValidChar) :
    escape cp (String.utf8EncodeChar (Char.ofNat cp)) = Utf8.encode (escaped (Char.ofNat cp)) := by
  have hcp : (Char.ofNat cp).toNat = cp := Utf8.val_ofNat h
  have hne : ∀ {n : Nat} (c : Char), c.toNat = n → cp ≠ n → (Char.ofNat cp == c) = false := by
    rintro n c rfl hc
    refine beq_eq_false_iff_ne.2 fun heq => hc ?_
    rw [← heq, hcp]
  unfold escape
  split
  · next h => subst h; rfl
  split
  · next h => subst h; rfl
  split
  · next h => subst h; rfl
  split
  · next h => subst h; rfl
  split
  · next h => subst h; rfl
  · next hamp hlt hgt hquot hapos =>
      unfold escaped references kept
      rw [List.lookup_cons, hne '&' rfl hamp, List.lookup_cons, hne '<' rfl hlt, List.lookup_cons,
        hne '>' rfl hgt, List.lookup_cons, hne '"' rfl hquot, List.lookup_cons, hne '\'' rfl hapos,
        List.lookup_nil, hcp]
      dsimp only
      split
      · next hkept =>
          rw [if_pos (by simpa using hkept)]
          exact (List.append_nil _).symm
      · next hkept =>
          rw [if_neg (by simpa using hkept)]
          rfl

/-- The loop escapes what it decodes, character by character, by induction on its fuel.
-/
theorem xmlFrom_eq (fuel : Nat) (s : Bytes) :
    xmlFrom fuel s = Utf8.encode ((decodedFrom fuel s).flatMap escaped) := by
  fun_induction xmlFrom fuel s with
  | case1 => rfl
  | case2 fuel =>
      cases fuel with
      | zero => rfl
      | succ fuel => rfl
  | case3 fuel a s h ih =>
      unfold decodedFrom
      rw [h]
      dsimp only
      rw [List.flatMap_cons, Utf8.encode_append, ih]
      rfl
  | case4 fuel a s n cp h ih =>
      obtain ⟨hvalid, rest, hs, hn⟩ := iterate_char h
      have htake : (a :: s).take n = String.utf8EncodeChar (Char.ofNat cp) := by
        rw [hs, hn, List.take_left]
      unfold decodedFrom
      rw [h]
      dsimp only
      rw [List.flatMap_cons, Utf8.encode_append, ih, htake, escape_char hvalid]

/-- **What is written is the repaired text in its escaped form.** -/
theorem xml_eq (input : Bytes) : xml input = Utf8.encode ((decoded input).flatMap escaped) :=
  xmlFrom_eq _ _

/-! ## Character data -/

/-- A text between the tags of a document, with the text it stands for: the signs of markup stand
in it as references only. -/
inductive CharData : List Char → List Char → Prop where
  | nil : CharData [] []
  | plain {c : Char} {l t : List Char} : references.lookup c = none → CharData l t →
      CharData (c :: l) (c :: t)
  | reference {c : Char} {name l t : List Char} : references.lookup c = some name → CharData l t →
      CharData (name ++ l) (c :: t)

/-- A reference that is found is one of the table. -/
theorem mem_references {c : Char} {name : List Char} (h : references.lookup c = some name) :
    (c, name) ∈ references := by
  obtain ⟨l, l', hl, -⟩ := List.lookup_eq_some_iff.1 h
  rw [hl]
  exact List.mem_append_right _ List.mem_cons_self

/-- A character with a reference is kept. -/
theorem kept_of_reference {c : Char} {name : List Char} (h : references.lookup c = some name) :
    kept c = true := by
  have hall : references.all (fun r => kept r.1) = true := by decide
  exact List.all_eq_true.1 hall _ (mem_references h)

/-- What is escaped is character data, and stands for the characters that are kept. -/
theorem charData_escaped (l : List Char) : CharData (l.flatMap escaped) (l.filter kept) := by
  induction l with
  | nil => exact .nil
  | cons c l ih =>
      rw [List.flatMap_cons]
      unfold escaped
      split
      · next name h =>
          rw [List.filter_cons_of_pos (kept_of_reference h)]
          exact .reference h ih
      · next h =>
          split
          · next hkept =>
              rw [List.filter_cons_of_pos hkept]
              exact .plain h ih
          · next hkept =>
              rw [List.filter_cons_of_neg hkept]
              exact ih

/-- No tag begins in character data. -/
theorem CharData.lt_not_mem {l t : List Char} (h : CharData l t) : '<' ∉ l := by
  induction h with
  | nil => exact List.not_mem_nil
  | plain h _ ih =>
      intro hmem
      rcases List.mem_cons.1 hmem with rfl | hmem
      · cases h
      · exact ih hmem
  | @reference c name l t h _ ih =>
      have hall : references.all (fun r => !r.2.contains '<') = true := by decide
      have hname := List.all_eq_true.1 hall _ (mem_references h)
      intro hmem
      rcases List.mem_append.1 hmem with hmem | hmem
      · rw [Bool.not_eq_true'] at hname
        exact Bool.false_ne_true (hname.symm.trans (List.contains_iff_mem.2 hmem))
      · exact ih hmem

/-- No escaped text holds `<`. -/
theorem lt_not_mem_xml (input : Bytes) : 60 ∉ xml input := by
  intro h
  rw [xml_eq] at h
  exact (charData_escaped _).lt_not_mem ((Utf8.mem_encode (a := 60) (by decide)).1 h)

/-! ## The characters of XML -/

/-- A character that a document of XML 1.0 can hold. -/
def xmlChar (c : Char) : Bool :=
  c.toNat ∈ [9, 10, 13] || 32 ≤ c.toNat && c.toNat ≠ 0xFFFE && c.toNat ≠ 0xFFFF

/-- U+FFFE and U+FFFF, which are code points but no characters. -/
def noncharacter (c : Char) : Bool := c.toNat = 0xFFFE || c.toNat = 0xFFFF

/-- Of the characters in a text, only U+FFFE and U+FFFF are written although XML does not allow
them. -/
theorem xmlChar_escaped (c : Char) : (escaped c).all xmlChar = !noncharacter c := by
  unfold escaped
  split
  · next name h =>
      have hall : references.all (fun r => r.2.all xmlChar && !noncharacter r.1) = true := by decide
      have hname := Bool.and_eq_true_iff.1 (List.all_eq_true.1 hall _ (mem_references h))
      rw [hname.1, hname.2]
  · split
    · next hkept =>
        unfold kept at hkept
        unfold xmlChar noncharacter
        rw [List.all_cons, List.all_nil, Bool.and_true]
        simp only [List.mem_cons, List.not_mem_nil, or_false, Bool.or_eq_true, decide_eq_true_eq]
          at hkept ⊢
        rw [Bool.eq_iff_iff]
        simp only [Bool.or_eq_true, Bool.and_eq_true, decide_eq_true_eq, Bool.not_eq_true',
          Bool.or_eq_false_iff, decide_eq_false_iff_not]
        omega
    · next hkept =>
        unfold kept at hkept
        unfold noncharacter
        rw [List.all_nil, Bool.eq_iff_iff]
        simp only [true_iff, Bool.or_eq_true, decide_eq_true_eq, not_or, Bool.not_eq_true',
          Bool.or_eq_false_iff, decide_eq_false_iff_not] at hkept ⊢
        omega

/-- A text in UTF-8 of characters that XML allows. -/
def XmlText (s : Bytes) : Prop := ∃ l, Utf8.scalars s = some l ∧ l.all xmlChar = true

/-- An encoded text is one of XML exactly when each of its characters is. -/
theorem xmlText_encode {l : List Char} : XmlText (Utf8.encode l) ↔ l.all xmlChar = true := by
  unfold XmlText
  rw [Utf8.scalars_encode]
  constructor
  · rintro ⟨l', hl, h⟩
    rw [Option.some.inj hl]
    exact h
  · exact fun h => ⟨l, rfl, h⟩

/-! ## Lengths -/

/-- How many bytes a character takes in an SVG document. -/
def cost (c : Char) : Nat := (Utf8.encode (escaped c)).length

/-- The length of an escaped text is the cost of its characters. -/
theorem length_xml (input : Bytes) : (xml input).length = ((decoded input).map cost).sum := by
  rw [xml_eq]
  induction decoded input with
  | nil => rfl
  | cons c l ih =>
      rw [List.flatMap_cons, Utf8.encode_append, List.length_append, ih, List.map_cons,
        List.sum_cons]
      rfl

/-- A character costs at most six bytes. -/
theorem cost_le (c : Char) : cost c ≤ 6 := by
  unfold cost escaped
  split
  · next name h =>
      have hall : references.all (fun r => (Utf8.encode r.2).length ≤ 6) = true := by decide
      exact of_decide_eq_true (List.all_eq_true.1 hall _ (mem_references h))
  · split
    · have h := String.length_utf8EncodeChar c
      have hsize := c.utf8Size_le_four
      unfold Utf8.encode
      rw [List.flatMap_cons, List.flatMap_nil, List.append_nil, h]
      omega
    · exact Nat.zero_le _

/-- No more characters are decoded than there are bytes. -/
theorem length_decodedFrom (fuel : Nat) (s : Bytes) : (decodedFrom fuel s).length ≤ s.length := by
  fun_induction decodedFrom fuel s with
  | case1 => exact Nat.zero_le _
  | case2 => exact Nat.le_refl _
  | case3 fuel a s h ih =>
      rw [List.length_cons, List.length_cons]
      omega
  | case4 fuel a s n cp h ih =>
      obtain ⟨-, rest, -, hn⟩ := iterate_char h
      have hpos : 0 < n := by
        rw [hn, String.length_utf8EncodeChar]
        exact Char.utf8Size_pos _
      rw [List.length_drop] at ih
      simp only [List.length_cons] at ih ⊢
      omega

/-- An escaped text is at most six times as long as the text. -/
theorem length_xml_le (input : Bytes) : (xml input).length ≤ 6 * input.length := by
  have hsum : ∀ l : List Char, (l.map cost).sum ≤ 6 * l.length := by
    intro l
    induction l with
    | nil => exact Nat.le_refl _
    | cons c l ih =>
        have := cost_le c
        rw [List.map_cons, List.sum_cons, List.length_cons]
        omega
  rw [length_xml]
  exact (hsum _).trans (Nat.mul_le_mul_left _ (length_decodedFrom _ _))

end Presentation

end FileProvider
