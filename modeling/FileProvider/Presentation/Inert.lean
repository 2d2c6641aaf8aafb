import FileProvider.Presentation.Escapes
import FileProvider.Presentation.Previews
import FileProvider.Presentation.Waves
import Mathlib.Algebra.Order.BigOperators.Group.List

/-!
# Inert cards

A card is a list of pieces: the provider's own markup, and texts of the input, which are escaped.
Such a card passes the checks of a portable document when it is short enough, and it is a text of
XML 1.0 unless a text of the input has U+FFFE or U+FFFF, which `xml` writes as they are.

The checks of a portable document are passed piece by piece: the markup is a finite number of texts,
each of which is checked by computation, and no input can form a tag, as the signs for it are
escaped. The lengths are bounded in the same way.
-/

namespace FileProvider

open Bytes Fallible

namespace Presentation

/-! ## Pieces -/

/-- The markup of the provider's cards. -/
inductive Markup where
  | start
  | title
  | kind
  | row (n : Nat)
  | waveTitle
  | waveLine
  | close
  | bar (bin : Nat) (height : ℤ)
  | finish

def Markup.text : Markup → Bytes
  | .start => svgStart
  | .title =>
      ascii "<text x=\"24\" y=\"38\" font-family=\"sans-serif\" font-size=\"18\" fill=\"#202124\">"
  | .kind =>
      ascii "<text x=\"24\" y=\"64\" font-family=\"sans-serif\" font-size=\"12\" fill=\"#555\">"
  | .row n => ascii "<text x=\"24\" y=\"" ++ decimal (96 + n * 17) ++
      ascii "\" font-family=\"monospace\" font-size=\"12\" fill=\"#303134\">"
  | .waveTitle => ascii "<text x=\"24\" y=\"40\" font-family=\"sans-serif\" font-size=\"16\">"
  | .waveLine => ascii "<text x=\"24\" y=\"68\" font-family=\"sans-serif\" font-size=\"12\">"
  | .close => ascii "</text>"
  | .bar bin height => barText bin height
  | .finish => ascii "</svg>"

/-- A piece of a card. -/
inductive Piece where
  | markup (m : Markup)
  | shown (t : Bytes)

namespace Piece

def text : Piece → Bytes
  | .markup m => m.text
  | .shown t => xml t

/-- The text of the input that a piece shows. -/
def shown? : Piece → Option Bytes
  | .markup _ => none
  | .shown t => some t

/-- How many bytes a piece takes. -/
def size : Piece → Nat
  | .markup m => m.text.length
  | .shown t => ((decoded t).map cost).sum

end Piece

/-- The texts of pieces, one behind the other. -/
def render (l : List Piece) : Bytes := l.flatMap Piece.text

/-- Pieces are printed one after the other. -/
theorem render_append (l l' : List Piece) : render (l ++ l') = render l ++ render l' :=
  List.flatMap_append

/-- The first piece is printed in front of the others. -/
theorem render_cons (p : Piece) (l : List Piece) : render (p :: l) = p.text ++ render l :=
  List.flatMap_cons

/-! ## The pieces of a card -/

/-- The pieces of the rows of a card. -/
def rowPieces (content : Bytes) : Nat → Nat → Nat → List Piece
  | 0, _, _ => []
  | count + 1, row, start =>
      if start < content.length then
        let stop := rowStop content start
        .markup (.row row) :: .shown ((content.drop start).take (stop - start)) ::
          .markup .close ::
          rowPieces content count (row + 1) (stop + if content[stop]? = some 10 then 1 else 0)
      else []

def cardPieces (details : FileDetails) (content : Bytes) : List Piece :=
  [.markup .start, .markup .title, .shown (details.name.take 120), .markup .close, .markup .kind,
    .shown (details.mimeType ++ dot ++ decimal details.size.toNat ++ ascii " bytes"),
    .markup .close] ++ rowPieces content 23 0 0 ++ [.markup .finish]

/-- The pieces of a wave form. -/
def wavePieces (name line : Bytes) (heights : List ℤ) : List Piece :=
  [.markup .start, .markup .waveTitle, .shown name, .markup .close, .markup .waveLine, .shown line,
    .markup .close] ++ heights.zipIdx.map (fun b => .markup (.bar b.2 b.1)) ++ [.markup .finish]

/-- The rows of a hexadecimal card are the printed row pieces, by induction on the rows that are
left. -/
theorem rows_eq (content : Bytes) (count row start : Nat) :
    rows content count row start = render (rowPieces content count row start) := by
  induction count generalizing row start with
  | zero => rfl
  | succ count ih =>
      unfold rows rowPieces
      split
      · dsimp only
        rw [render_cons, render_cons, render_cons, ih]
        simp only [List.append_assoc, Piece.text, Markup.text]
      · rfl

/-- A card is its pieces printed, so that what it shows of the file stands in pieces of its own. -/
theorem card_bytes (details : FileDetails) (content : Bytes) (isText : Bool) :
    (card details content isText).bytes = render (cardPieces details content) := by
  unfold card cardPieces
  rw [render_append, render_append, ← rows_eq]
  simp only [render, List.flatMap_cons, List.flatMap_nil, List.append_nil, Piece.text, Markup.text,
    List.append_assoc]

/-- A picture of a wave is its pieces printed, the bars among them. -/
theorem wave_bytes (name line : Bytes) (heights : List ℤ) :
    waveHead name line ++ barsText heights ++ ascii "</svg>"
      = render (wavePieces name line heights) := by
  unfold waveHead wavePieces barsText
  rw [render_append, render_append]
  simp only [render, List.flatMap_cons, List.flatMap_nil, List.append_nil, Piece.text, Markup.text,
    List.append_assoc, List.flatMap_map]

/-! ## Markup does nothing -/

section

variable {t u s d : Bytes}

/-- A text without a part of those that a tag must not contain. -/
def Harmless (t : Bytes) : Prop := ∀ token ∈ activeTokens, ¬ token <:+: t

instance (t : Bytes) : Decidable (Harmless t) :=
  inferInstanceAs (Decidable (∀ token ∈ activeTokens, ¬ token <:+: t))

/-- A part of a text that lacks a byte of it lies before that byte or behind it. -/
theorem infix_of_append_cons {c : UInt8} (hc : c ∉ t) (h : t <:+: u ++ c :: s) :
    t <:+: u ∨ t <:+: s := by
  obtain ⟨a, b, h⟩ := h
  rw [List.append_assoc, List.append_eq_append_iff] at h
  rcases h with ⟨a', rfl, h⟩ | ⟨c', rfl, h⟩
  · rw [List.append_eq_append_iff] at h
    rcases h with ⟨x, rfl, -⟩ | ⟨x, rfl, h⟩
    · exact .inl ⟨a, x, List.append_assoc _ _ _⟩
    · cases x with
      | nil => exact .inl ⟨a, [], by simp⟩
      | cons b' x =>
          cases h
          exact absurd (List.mem_append_right _ List.mem_cons_self) hc
  · cases c' with
    | nil =>
        cases t with
        | nil => exact .inr (List.nil_infix)
        | cons b' t =>
            cases h
            exact absurd List.mem_cons_self hc
    | cons b' c' =>
        cases h
        exact .inr ⟨c', b, List.append_assoc _ _ _⟩

/-- A sign of a number. -/
def numeral (c : UInt8) : Bool := 48 ≤ c.toNat && c.toNat ≤ 57 || c.toNat = 45

/-- No active token holds a digit, a sign or a point. -/
theorem numeral_not_mem {token : Bytes} (htoken : token ∈ activeTokens) {c : UInt8}
    (hc : numeral c = true) : c ∉ token := by
  have hall : activeTokens.all (fun token => token.all fun c => !numeral c) = true := by decide
  intro hmem
  have hnot := List.all_eq_true.1 (List.all_eq_true.1 hall token htoken) c hmem
  rw [hc] at hnot
  cases hnot

/-- A number between harmless texts does no harm. -/
theorem Harmless.number (hd : d.all numeral = true) (hne : d ≠ []) (ht : Harmless t)
    (hu : Harmless u) : Harmless (t ++ d ++ u) := by
  intro token htoken hinfix
  have hbehind : ∀ d : Bytes, d.all numeral = true → ¬ token <:+: d ++ u := by
    intro d hd
    induction d with
    | nil => exact hu token htoken
    | cons c d ih =>
        rw [List.all_cons, Bool.and_eq_true] at hd
        intro h
        rcases infix_of_append_cons (u := []) (numeral_not_mem htoken hd.1) h with h | h
        · rw [List.infix_nil] at h
          rw [h] at htoken
          revert htoken
          decide
        · exact ih hd.2 h
  cases d with
  | nil => exact hne rfl
  | cons c d =>
      rw [List.all_cons, Bool.and_eq_true] at hd
      rw [List.append_assoc] at hinfix
      rcases infix_of_append_cons (numeral_not_mem htoken hd.1) hinfix with h | h
      · exact ht token htoken h
      · exact hbehind d hd.2 h

/-- A natural number is printed with digits. -/
theorem all_numeral_decimal (n : Nat) : (decimal n).all numeral = true := by
  refine List.all_eq_true.2 fun c hc => ?_
  obtain ⟨hlo, hhi⟩ := digit_of_mem_decimal hc
  unfold numeral
  rw [decide_eq_true hlo, decide_eq_true hhi]
  rfl

/-- An integer is printed with digits and a sign. -/
theorem all_numeral_decimalInt (n : ℤ) : (decimalInt n).all numeral = true := by
  cases n with
  | ofNat n => exact all_numeral_decimal n
  | negSucc n =>
      unfold decimalInt
      rw [List.all_cons, all_numeral_decimal]
      rfl

/-- A printed integer is not empty. -/
theorem decimalInt_ne_nil (n : ℤ) : decimalInt n ≠ [] := by
  cases n with
  | ofNat n => exact decimal_ne_nil n
  | negSucc n => exact List.cons_ne_nil _ _

/-- Lowering leaves digits, signs and points as they are. -/
theorem lower_numeral (h : d.all numeral = true) : lower d = d := by
  refine (List.map_congr_left fun c hc => ?_).trans (List.map_id d)
  have hnumeral := List.all_eq_true.1 h c hc
  unfold numeral at hnumeral
  simp only [Bool.or_eq_true, Bool.and_eq_true, decide_eq_true_eq] at hnumeral
  exact if_neg (by omega)

/-- What follows a text that ends the name of its tag does not change the name. -/
theorem tagName_append (h : (tagName t).length ≠ t.length) : tagName (t ++ u) = tagName t := by
  unfold tagName at h ⊢
  rw [List.takeWhile_append, if_neg h]

/-- A scan runs over a text. -/
def Passes (t : Bytes) : Prop := ∀ s, scanTags (t ++ s) = scanTags s

/-- A tag without another `>` and without active tokens passes the scan, whatever was scanned before
it. -/
theorem passes_tag (hclose : 62 ∉ t) (hquiet : Quiet (lower t)) : Passes (60 :: (t ++ [62])) := by
  intro s
  rw [List.cons_append, List.append_assoc]
  exact scanTags_tag hclose hquiet

/-- Texts that pass the scan pass it one after the other. -/
theorem Passes.append (ht : Passes t) (hu : Passes u) : Passes (t ++ u) := by
  intro s
  rw [List.append_assoc, ht, hu]

/-- A text that is one tag, which can do nothing. -/
def OneTag (t : Bytes) : Prop :=
  t = 60 :: (t.tail.dropLast ++ [62]) ∧ 62 ∉ t.tail.dropLast ∧ Quiet (lower t.tail.dropLast)

instance (t : Bytes) : Decidable (OneTag t) :=
  inferInstanceAs (Decidable (t = 60 :: (t.tail.dropLast ++ [62]) ∧ 62 ∉ t.tail.dropLast ∧
    Quiet (lower t.tail.dropLast)))

/-- A text that is one quiet tag passes the scan. -/
theorem OneTag.passes (h : OneTag t) : Passes t := by
  rw [h.1]
  exact passes_tag h.2.1 h.2.2

/-- A part of a tag, in lower case, that can do nothing. -/
structure Still (t : Bytes) : Prop where
  harmless : Harmless t
  lower : lower t = t
  close : 62 ∉ t

instance (t : Bytes) : Decidable (Still t) :=
  decidable_of_iff (Harmless t ∧ Presentation.lower t = t ∧ 62 ∉ t)
    ⟨fun h => ⟨h.1, h.2.1, h.2.2⟩, fun h => ⟨h.harmless, h.lower, h.close⟩⟩

/-- A number between two still texts leaves a still text: no token begins, ends or lies in it. -/
theorem Still.number (ht : Still t) (hd : d.all numeral = true) (hne : d ≠ []) (hu : Still u) :
    Still (t ++ d ++ u) := by
  refine ⟨ht.harmless.number hd hne hu.harmless, ?_, ?_⟩
  · rw [lower_append, lower_append, ht.lower, hu.lower, lower_numeral hd]
  · simp only [List.mem_append, not_or]
    refine ⟨⟨ht.close, fun hmem => ?_⟩, hu.close⟩
    cases List.all_eq_true.1 hd 62 hmem

/-- A tag of parts that can do nothing, whose name ends in the first of them. -/
theorem Still.passes (h : Still (t ++ u)) (hname : tagName t ∈ elements)
    (hends : (tagName t).length ≠ t.length) : Passes (60 :: (t ++ u ++ [62])) := by
  refine passes_tag h.close ?_
  rw [h.lower]
  refine ⟨?_, h.harmless⟩
  rw [tagName_append hends]
  exact hname

/-- The tag of a row passes the scan for every row. -/
theorem passes_row (n : Nat) : Passes (Markup.row n).text := by
  have hfirst : Still (ascii "text x=\"24\" y=\"") := by decide +kernel
  have hlast : Still
      (ascii "\" font-family=\"monospace\" font-size=\"12\" fill=\"#303134\"") := by
    decide +kernel
  have hbody := hfirst.number (all_numeral_decimal (96 + n * 17)) (decimal_ne_nil _) hlast
  have htext : (Markup.row n).text = 60 :: (ascii "text x=\"24\" y=\"" ++
      (decimal (96 + n * 17) ++
        ascii "\" font-family=\"monospace\" font-size=\"12\" fill=\"#303134\"") ++ [62]) := by
    have hopen : ascii "<text x=\"24\" y=\"" = 60 :: ascii "text x=\"24\" y=\"" := by
      decide +kernel
    have hclose : ascii "\" font-family=\"monospace\" font-size=\"12\" fill=\"#303134\">" =
        ascii "\" font-family=\"monospace\" font-size=\"12\" fill=\"#303134\"" ++ [62] := by
      decide +kernel
    unfold Markup.text
    rw [hopen, hclose]
    simp only [List.cons_append, List.append_assoc]
  rw [htext]
  rw [List.append_assoc] at hbody
  exact hbody.passes (by decide +kernel) (by decide +kernel)

/-- The tag of a bar passes the scan for every bar and height. -/
theorem passes_bar (bin : Nat) (height : ℤ) : Passes (Markup.bar bin height).text := by
  have hfirst : Still (ascii "rect x=\"") := by decide +kernel
  have hy : Still (ascii "\" y=\"") := by decide +kernel
  have hheight : Still (ascii "\" width=\"1\" height=\"") := by decide +kernel
  have hlast : Still (ascii "\" fill=\"#4475cb\"/") := by decide +kernel
  have hbody := ((hfirst.number (all_numeral_decimal (24 + bin * 2)) (decimal_ne_nil _) hy).number
    (all_numeral_decimalInt (280 - height)) (decimalInt_ne_nil _) hheight).number
    (all_numeral_decimalInt (height * 2)) (decimalInt_ne_nil _) hlast
  simp only [List.append_assoc] at hbody
  have hpasses := hbody.passes (by decide +kernel) (by decide +kernel)
  have hopen : ascii "<rect x=\"" = 60 :: ascii "rect x=\"" := by decide +kernel
  have hclose : ascii "\" fill=\"#4475cb\"/>" = ascii "\" fill=\"#4475cb\"/" ++ [62] := by
    decide +kernel
  unfold Markup.text barText
  rw [hopen, hclose]
  simp only [List.cons_append, List.append_assoc] at hpasses ⊢
  exact hpasses

/-- Each of the cards' own tags passes the scan. -/
theorem passes_markup (m : Markup) : Passes m.text := by
  cases m with
  | start =>
      have hsvg : OneTag (ascii "<svg xmlns=\"http://www.w3.org/2000/svg\" width=\"512\" height=\"512\" viewBox=\"0 0 512 512\">") := by
        decide +kernel
      have hrect : OneTag (ascii "<rect width=\"512\" height=\"512\" fill=\"#f7f7f8\"/>") := by
        decide +kernel
      exact hsvg.passes.append hrect.passes
  | title | kind | waveTitle | waveLine | close | finish =>
      refine OneTag.passes ?_
      unfold Markup.text
      decide +kernel
  | row n => exact passes_row n
  | bar bin height => exact passes_bar bin height

/-- A scan runs over all the pieces of a card. -/
theorem scanTags_render (l : List Piece) : scanTags (render l) = .ok () := by
  induction l with
  | nil => exact scanTags_nil rfl
  | cons p l ih =>
      rw [render_cons]
      cases p with
      | markup m => exact (passes_markup m _).trans ih
      | shown t => exact (scanTags_text (lt_not_mem_xml t)).trans ih

/-! ## The characters of a card -/

/-- A byte of ASCII that is printed. -/
def printed (c : UInt8) : Bool := 32 ≤ c.toNat && c.toNat < 127

/-- Digits, signs and points are printable. -/
theorem all_printed_numeral (h : d.all numeral = true) : d.all printed = true := by
  refine List.all_eq_true.2 fun c hc => ?_
  have hnumeral := List.all_eq_true.1 h c hc
  unfold numeral at hnumeral
  unfold printed
  simp only [Bool.or_eq_true, Bool.and_eq_true, decide_eq_true_eq] at hnumeral ⊢
  omega

/-- The cards' own tags consist of printable ASCII. -/
theorem all_printed_markup (m : Markup) : m.text.all printed = true := by
  have hdecimal := fun n => all_printed_numeral (all_numeral_decimal n)
  have hdecimalInt := fun n => all_printed_numeral (all_numeral_decimalInt n)
  cases m with
  | start | title | kind | waveTitle | waveLine | close | finish =>
      unfold Markup.text
      decide +kernel
  | row n =>
      have hfirst : (ascii "<text x=\"24\" y=\"").all printed = true := by decide +kernel
      have hlast : (ascii "\" font-family=\"monospace\" font-size=\"12\" fill=\"#303134\">").all
          printed = true := by decide +kernel
      unfold Markup.text
      rw [List.all_append, List.all_append, hfirst, hlast, hdecimal]
      rfl
  | bar bin height =>
      have hfirst : (ascii "<rect x=\"").all printed = true := by decide +kernel
      have hy : (ascii "\" y=\"").all printed = true := by decide +kernel
      have hheight : (ascii "\" width=\"1\" height=\"").all printed = true := by decide +kernel
      have hlast : (ascii "\" fill=\"#4475cb\"/>").all printed = true := by decide +kernel
      unfold Markup.text barText
      simp only [List.all_append, hfirst, hy, hheight, hlast, hdecimal, hdecimalInt, Bool.and_self]

/-- The characters of a piece. -/
def Piece.chars : Piece → List Char
  | .markup m => m.text.map fun c => Char.ofNat c.toNat
  | .shown t => (decoded t).flatMap escaped

/-- Printable ASCII is the encoding of its bytes read as characters, and all of these are characters
of XML. -/
theorem encode_printed (h : t.all printed = true) :
    Utf8.encode (t.map fun c => Char.ofNat c.toNat) = t ∧
      (t.map fun c => Char.ofNat c.toNat).all xmlChar = true := by
  induction t with
  | nil => exact ⟨rfl, rfl⟩
  | cons c t ih =>
      rw [List.all_cons, Bool.and_eq_true] at h
      obtain ⟨hencode, hall⟩ := ih h.2
      have hc := h.1
      unfold printed at hc
      rw [Bool.and_eq_true, decide_eq_true_iff, decide_eq_true_iff] at hc
      have hchar : (Char.ofNat c.toNat).toNat = c.toNat := Utf8.val_ofNat (.inl (by omega))
      rw [List.map_cons, Utf8.encode_cons, hencode, Utf8.encode_one (by omega), List.all_cons, hall,
        Bool.and_true]
      refine ⟨rfl, ?_⟩
      unfold xmlChar
      rw [hchar, decide_eq_true hc.1, decide_eq_true (show c.toNat ≠ 0xFFFE by omega),
        decide_eq_true (show c.toNat ≠ 0xFFFF by omega)]
      exact Bool.or_true _

/-- The characters of a piece encode to its text. -/
theorem encode_chars (p : Piece) : Utf8.encode p.chars = p.text := by
  cases p with
  | markup m => exact (encode_printed (all_printed_markup m)).1
  | shown t => exact (xml_eq t).symm

/-- The characters of all pieces encode to what is printed. -/
theorem encode_render (l : List Piece) : Utf8.encode (l.flatMap Piece.chars) = render l := by
  induction l with
  | nil => rfl
  | cons p l ih => rw [List.flatMap_cons, Utf8.encode_append, encode_chars, ih, render_cons]

/-- A text that has neither U+FFFE nor U+FFFF. -/
def Plain (t : Bytes) : Prop := (decoded t).all (fun c => !noncharacter c) = true

instance (t : Bytes) : Decidable (Plain t) :=
  inferInstanceAs (Decidable ((decoded t).all (fun c => !noncharacter c) = true))

/-- The characters of a shown text are characters of XML exactly when the text is plain: escaping
neither adds nor hides one. -/
theorem all_chars_shown : (Piece.shown t).chars.all xmlChar = true ↔ Plain t := by
  unfold Piece.chars Plain
  rw [List.all_flatMap]
  simp only [xmlChar_escaped]

/-- A card is a text of XML when the texts in it have neither U+FFFE nor U+FFFF. -/
theorem xmlText_render (l : List Piece) :
    XmlText (render l) ↔ ∀ t ∈ l.filterMap Piece.shown?, Plain t := by
  rw [← encode_render, xmlText_encode, List.all_flatMap, List.all_eq_true]
  constructor
  · intro h t ht
    obtain ⟨p, hp, hshown⟩ := List.mem_filterMap.1 ht
    cases p with
    | markup m => cases hshown
    | shown t' =>
        obtain rfl := Option.some.inj hshown
        exact all_chars_shown.1 (h _ hp)
  · intro h p hp
    cases p with
    | markup m => exact (encode_printed (all_printed_markup m)).2
    | shown t => exact all_chars_shown.2 (h t (List.mem_filterMap.2 ⟨_, hp, rfl⟩))

/-! ## The length of a card -/

/-- The size of a piece is the length of its text. -/
theorem length_text (p : Piece) : p.text.length = p.size := by
  cases p with
  | markup m => rfl
  | shown t => exact length_xml t

/-- The length of what is printed is the sum of the sizes of its pieces. -/
theorem length_render (l : List Piece) : (render l).length = (l.map Piece.size).sum := by
  unfold render
  rw [List.length_flatMap, funext length_text]

/-- The pieces of a card together keep to the bound of a preview. -/
def Fits (l : List Piece) : Prop := (l.map Piece.size).sum ≤ maximumDocumentBytes / 2

/-! ## Inert cards -/

/-- A preview that is accepted from a portable document, in which the given texts of the input are
shown as character data, and which is a text of XML 1.0. -/
structure Inert (p : FilePreview) (texts : List Bytes) : Prop where
  accepted : validatePreview p false = .ok ()
  escaped : ∃ l : List Piece, p.bytes = render l ∧ l.filterMap Piece.shown? = texts ∧
    ∀ t ∈ texts, ∃ chars, xml t = Utf8.encode chars ∧ CharData chars ((decoded t).filter kept)
  allowed : XmlText p.bytes

/-- A card of the provider. -/
structure OwnCard (p : FilePreview) (l : List Piece) : Prop where
  mimeType : p.mimeType = ascii "image/svg+xml"
  kind : p.kind ∈ kinds
  width : p.width = 512
  height : p.height = 512
  bytes : p.bytes = render l
  begins : ∃ middle, l = .markup .start :: middle ++ [.markup .finish]

/-- A card is accepted when it keeps to the bound. All the other tests are passed by any card: it
begins and ends with the tags it should have and has none of the tokens that are refused. -/
theorem OwnCard.accepted_iff {p : FilePreview} {l : List Piece} (h : OwnCard p l) :
    validatePreview p false = .ok () ↔ Fits l := by
  have hlength : p.bytes.length = (l.map Piece.size).sum := by
    rw [h.bytes, length_render]
  obtain ⟨middle, hl⟩ := h.begins
  have hbegins : svgStart <+: p.bytes ∧ ascii "</svg>" <:+ p.bytes := by
    rw [h.bytes, hl, List.cons_append, render_cons, render_append]
    exact ⟨List.prefix_append _ _, ⟨_, (List.append_assoc _ _ _)⟩⟩
  have hne : p.bytes ≠ [] := by
    intro hnil
    rw [hnil] at hbegins
    exact absurd (List.prefix_nil.1 hbegins.1) (by decide +kernel)
  have hpng : ascii "image/svg+xml" ≠ ascii "image/png" := by decide +kernel
  have hcard : checkCard p = .ok () := by
    unfold checkCard failIf
    rw [if_neg (not_or.2 ⟨not_not.2 hbegins.1, not_not.2 hbegins.2⟩), h.bytes]
    exact scanTags_render l
  unfold validatePreview Fits
  rw [h.mimeType, if_neg hpng, if_pos ⟨rfl, rfl⟩, hcard, h.width, h.height, ← hlength]
  simp only [bind_ok, failIf_ok, not_or, not_lt]
  constructor
  · rintro ⟨-, ⟨-, -, -, -, -, hle⟩, -⟩
    exact hle
  · intro hle
    exact ⟨(), ⟨by decide, by decide, by decide, by decide, hne, hle⟩, (), trivial,
      not_not.2 h.kind⟩

/-- Of a preview that is a card of the program's own, inertness comes down to two conditions: it
fits the limit, and the texts that it shows are plain. -/
theorem OwnCard.inert_iff {p : FilePreview} {l : List Piece} (h : OwnCard p l) :
    Inert p (l.filterMap Piece.shown?) ↔ Fits l ∧ ∀ t ∈ l.filterMap Piece.shown?, Plain t := by
  rw [← xmlText_render, ← h.accepted_iff, ← h.bytes]
  refine ⟨fun hi => ⟨hi.accepted, hi.allowed⟩, fun hi => ⟨hi.1, ⟨l, h.bytes, rfl, ?_⟩, hi.2⟩⟩
  intro t _
  exact ⟨_, xml_eq t, charData_escaped _⟩

/-- A preview that shows some texts of the input as they must be shown has neither U+FFFE nor U+FFFF
in any of them. -/
theorem Inert.plain {p : FilePreview} {texts : List Bytes} (h : Inert p texts) :
    ∀ t ∈ texts, Plain t := by
  obtain ⟨l, hbytes, hshown, -⟩ := h.escaped
  have hallowed := h.allowed
  rw [hbytes, xmlText_render, hshown] at hallowed
  exact hallowed

/-- The cards of text and binary files are cards of the program's own. -/
theorem ownCard_card (details : FileDetails) (content : Bytes) (isText : Bool) :
    OwnCard (card details content isText) (cardPieces details content) where
  mimeType := rfl
  kind := by
    cases isText with
    | false => exact .tail _ (.tail _ (.tail _ (.head _)))
    | true => exact .tail _ (.head _)
  width := rfl
  height := rfl
  bytes := card_bytes details content isText
  begins := ⟨_, rfl⟩

/-! ## The numbers of a wave form -/

/-- Rounding to the nearest integer adds at most one. -/
theorem nearest_le (q : ℚ) : (nearest q : ℚ) ≤ q + 1 := by
  have hfloor := Int.floor_le q
  unfold nearest
  split
  · linarith
  · push_cast
    linarith

/-- Rounding to the nearest keeps the sign of what is not negative. -/
theorem nearest_nonneg {q : ℚ} (h : 0 ≤ q) : 0 ≤ nearest q := by
  have hfloor := Int.floor_nonneg.2 h
  unfold nearest
  split <;> omega

/-- Rounding as `std::lround` does keeps the sign of what is not negative. -/
theorem rounded_nonneg {q : ℚ} (h : 0 ≤ q) : 0 ≤ rounded q := by
  unfold rounded
  split
  · exact le_refl _
  · have hscale : (0 : ℚ) < 2 ^ (52 - Int.log 2 q) := zpow_pos two_pos _
    have hnearest := nearest_nonneg (mul_nonneg h hscale.le)
    exact div_nonneg (Int.cast_nonneg hnearest) hscale.le

/-- Rounding at most doubles a number. -/
theorem rounded_le {q : ℚ} (h : 0 ≤ q) : rounded q ≤ 2 * q := by
  unfold rounded
  split
  · linarith
  · next hne =>
      have hpos : 0 < q := lt_of_le_of_ne h (Ne.symm hne)
      have hscale : (0 : ℚ) < 2 ^ (52 - Int.log 2 q) := zpow_pos two_pos _
      rw [div_le_iff₀ hscale]
      have hnearest := nearest_le (q * 2 ^ (52 - Int.log 2 q))
      have hlog : (2 : ℚ) ^ Int.log 2 q ≤ q := by
        exact_mod_cast Int.zpow_log_le_self (b := 2) Nat.one_lt_two hpos
      have hone : 1 ≤ q * 2 ^ (52 - Int.log 2 q) := by
        calc (1 : ℚ) ≤ 2 ^ (52 : ℤ) := by norm_num
          _ = 2 ^ Int.log 2 q * 2 ^ (52 - Int.log 2 q) := by
              rw [← zpow_add₀ (by norm_num), add_sub_cancel]
          _ ≤ q * 2 ^ (52 - Int.log 2 q) := mul_le_mul_of_nonneg_right hlog hscale.le
      linarith

/-- The text of a duration stays within 18 bytes for every format and length of the file's 32-bit
fields. -/
theorem length_seconds {f : Format} {length : Nat} (hrate : f.sampleRate ≠ 0) (halign : f.align ≠ 0)
    (hlength : length < 2 ^ 32) : (seconds f length).length ≤ 18 := by
  have hdivide : ∀ {q : ℚ} {n : Nat}, n ≠ 0 → 0 ≤ q → 0 ≤ q / n ∧ q / n ≤ q := by
    intro q n hn hq
    have hone : (1 : ℚ) ≤ n := by exact_mod_cast Nat.one_le_iff_ne_zero.2 hn
    exact ⟨div_nonneg hq (by linarith), div_le_self hq hone⟩
  have hrate : f.sampleRate.toNat ≠ 0 := fun h => hrate (UInt32.toNat_inj.1 h)
  have halign : f.align.toNat ≠ 0 := fun h => halign (UInt32.toNat_inj.1 h)
  have hlength : (length : ℚ) ≤ 2 ^ 32 := by exact_mod_cast hlength.le
  obtain ⟨hnonneg, hle⟩ := hdivide hrate (Nat.cast_nonneg length)
  have hfirst := rounded_le hnonneg
  obtain ⟨hnonneg', hle'⟩ := hdivide halign (rounded_nonneg hnonneg)
  have hsecond := rounded_le hnonneg'
  unfold seconds fixed
  generalize rounded (rounded (length / f.sampleRate.toNat) / f.align.toNat) = q at hsecond ⊢
  have hnearest := nearest_le (q * 10 ^ 6)
  have hbound : nearest (q * 10 ^ 6) ≤ 2 ^ 34 * 10 ^ 6 + 1 := by
    have hcast : (nearest (q * 10 ^ 6) : ℚ) ≤ ((2 ^ 34 * 10 ^ 6 + 1 : ℤ) : ℚ) := by
      push_cast
      linarith
    exact_mod_cast hcast
  have hdigits : (nearest (q * 10 ^ 6)).toNat / 10 ^ 6 < 10 ^ 11 := by omega
  have hwhole := length_decimal (k := 11) (by omega) hdigits
  rw [List.length_append, List.length_cons, length_places]
  omega

/-- The lead byte of U+FFFE and U+FFFF is in no line of numbers. -/
theorem lead_not_mem_number (h : d.all numeral = true) : 0xEF ∉ d := by
  intro hmem
  cases List.all_eq_true.1 h 0xEF hmem

/-- No duration holds the lead byte of the two noncharacters, as it is ASCII. -/
theorem lead_not_mem_seconds (f : Format) (length : Nat) : 0xEF ∉ seconds f length := by
  unfold seconds fixed
  simp only [List.mem_append, List.mem_cons, not_or]
  refine ⟨lead_not_mem_number (all_numeral_decimal _), by decide, fun hmem => ?_⟩
  obtain ⟨n, hn, heq⟩ := digit_of_mem_places hmem
  have hdigit := toNat_digit hn
  rw [← heq] at hdigit
  change 239 = 48 + n at hdigit
  omega

/-- Nor does the line below a wave hold it. -/
theorem lead_not_mem_line (f : Format) (length : Nat) : 0xEF ∉ waveLine (seconds f length) f := by
  unfold waveLine
  simp only [List.mem_append, not_or]
  exact ⟨⟨⟨⟨⟨⟨⟨lead_not_mem_seconds f length, by decide⟩, by decide⟩,
    lead_not_mem_number (all_numeral_decimal _)⟩, by decide⟩, by decide⟩,
    lead_not_mem_number (all_numeral_decimal _)⟩, by decide⟩

/-- U+FFFE and U+FFFF come from their lead byte. -/
theorem plain_of_lead_not_mem (h : 0xEF ∉ t) : Plain t := by
  unfold Plain decoded
  generalize t.length = fuel
  fun_induction decodedFrom fuel t with
  | case1 | case2 => rfl
  | case3 fuel a s _ ih =>
      rw [List.all_cons, ih fun hmem => h (List.mem_cons_of_mem _ hmem)]
      decide
  | case4 fuel a s n cp hiterate ih =>
      obtain ⟨hvalid, rest, hs, hn⟩ := iterate_char hiterate
      rw [List.all_cons, ih fun hmem => h (List.mem_of_mem_drop hmem), Bool.and_true,
        Bool.not_eq_true', Bool.eq_false_iff]
      intro hnon
      refine h ?_
      rw [hs]
      refine List.mem_append_left _ ?_
      unfold noncharacter at hnon
      rw [Bool.or_eq_true, decide_eq_true_iff, decide_eq_true_iff] at hnon
      have hcp : (Char.ofNat cp).toNat = cp := Utf8.val_ofNat hvalid
      rw [hcp] at hnon
      rcases hnon with rfl | rfl
      · decide
      · decide

/-! ## The length of a wave form -/

/-- A number below a power of ten has at most as many digits as the exponent. -/
theorem length_decimalInt {n : ℤ} {k : Nat} (hk : 0 < k) (hn : 0 ≤ n) (h : n < 10 ^ k) :
    (decimalInt n).length ≤ k := by
  cases n with
  | ofNat n =>
      have hcast : ((n : ℕ) : ℤ) < ((10 ^ k : ℕ) : ℤ) := by
        push_cast
        exact h
      exact length_decimal hk (Int.ofNat_lt.1 hcast)
  | negSucc n => exact absurd hn (by omega)

/-- A bar within the picture takes at most 80 bytes. -/
theorem size_bar {bin : Nat} {h : ℤ} (hbin : bin < 232) (hheight : 1 ≤ h ∧ h ≤ 144) :
    (Piece.markup (.bar bin h)).size ≤ 80 := by
  have hx := length_decimal (k := 3) (n := 24 + bin * 2) (by omega) (by omega)
  have hy := length_decimalInt (k := 3) (n := 280 - h) (by omega) (by omega) (by omega)
  have hlength := length_decimalInt (k := 3) (n := h * 2) (by omega) (by omega) (by omega)
  have hfirst : (ascii "<rect x=\"").length ≤ 10 := by decide
  have hnext : (ascii "\" y=\"").length ≤ 10 := by decide
  have hwidth : (ascii "\" width=\"1\" height=\"").length ≤ 20 := by decide
  have hlast : (ascii "\" fill=\"#4475cb\"/>").length ≤ 20 := by decide
  unfold Piece.size Markup.text barText
  simp only [List.length_append]
  omega

/-- Escaping makes a text at most six times as long. -/
theorem size_shown (t : Bytes) : (Piece.shown t).size ≤ 6 * t.length := by
  rw [← length_text]
  exact length_xml_le t

/-- The line below a wave stays within 100 bytes for every format and length. -/
theorem length_line {f : Format} {length : Nat} (hrate : f.sampleRate ≠ 0) (halign : f.align ≠ 0)
    (hlength : length < 2 ^ 32) : (waveLine (seconds f length) f).length ≤ 100 := by
  have hseconds := length_seconds hrate halign hlength
  have hsample := length_decimal (k := 10) (n := f.sampleRate.toNat) (by omega)
    (by have := f.sampleRate.toNat_lt; omega)
  have hchannels := length_decimal (k := 10) (n := f.channels.toNat) (by omega)
    (by have := f.channels.toNat_lt; omega)
  have hs : (ascii " s").length = 2 := by decide
  have hhz : (ascii " Hz").length = 3 := by decide
  have hnames : (ascii " channels").length = 9 := by decide
  have hdot : dot.length = 4 := rfl
  unfold waveLine
  simp only [List.length_append]
  omega

/-- A wave form always keeps to the bound. The sizes of the pieces are added up, each with its own
bound, and the sum is below the limit. -/
theorem fits_wavePieces {name line : Bytes} {heights : List ℤ} (hname : name.length ≤ 120)
    (hline : line.length ≤ 100) (hcount : heights.length = 232)
    (hheights : ∀ h ∈ heights, 1 ≤ h ∧ h ≤ 144) : Fits (wavePieces name line heights) := by
  have hbars : ((heights.zipIdx.map fun b => Piece.markup (.bar b.2 b.1)).map Piece.size).sum
      ≤ 232 * 80 := by
    have hle := List.sum_le_card_nsmul
      ((heights.zipIdx.map fun b => Piece.markup (.bar b.2 b.1)).map Piece.size) 80 ?_
    · rw [List.length_map, List.length_map, List.length_zipIdx, hcount] at hle
      exact hle
    · intro n hn
      rw [List.map_map] at hn
      obtain ⟨b, hb, rfl⟩ := List.mem_map.1 hn
      have hmem := List.mem_zipIdx hb
      refine size_bar (by omega) (hheights _ ?_)
      rw [hmem.2.2]
      exact List.getElem_mem _
  have hfixed : ([.start, .waveTitle, .close, .waveLine, .close, .finish].map
      fun m => (Markup.text m).length).sum ≤ 1000 := by decide +kernel
  have hshownName := size_shown name
  have hshownLine := size_shown line
  unfold Fits wavePieces maximumDocumentBytes
  simp only [List.map_append, List.sum_append, List.map_cons, List.map_nil, List.sum_cons,
    List.sum_nil] at hfixed ⊢
  simp only [Piece.size] at hbars hshownName hshownLine ⊢
  omega

end

/-! ## Cards -/

/-- The texts of the input that a card shows: the start of the name, the kind with the size, and the
rows. -/
def cardTexts (details : FileDetails) (content : Bytes) : List Bytes :=
  (cardPieces details content).filterMap Piece.shown?

/-- The preview of a wave form is the card of its pieces, which keeps to the bound. The pieces are
those of what the header was found to say, and the line under the name is made of numbers. -/
theorem ownCard_wave {v : View} {details d : FileDetails} {p : FilePreview} {reads : List Nat}
    (h : wave v details [] = .ok ((some p, d), reads)) :
    ∃ f length heights,
      OwnCard p (wavePieces (details.name.take 120) (waveLine (seconds f length) f) heights) ∧
      Fits (wavePieces (details.name.take 120) (waveLine (seconds f length) f) heights) ∧
      Plain (waveLine (seconds f length) f) := by
  obtain ⟨r, reads', hrun, -, -, hshown⟩ := reads_wave (v := v) details
  rw [h] at hrun
  cases hrun
  obtain ⟨c, hfound, hshows⟩ := hshown
  have hdrawn := hshows.drawn
  obtain ⟨heights, hcount, hbars, hbytes⟩ := hdrawn.bytes
  have hlength : c.length < 2 ^ 32 := hfound.length ▸ (word32 v.bytes (c.data - 4)).toNat_lt
  have hheights : ∀ h ∈ heights, 1 ≤ h ∧ h ≤ 144 := by
    intro h hmem
    obtain ⟨bin, hbin⟩ := List.mem_iff_getElem?.1 hmem
    exact (hbars bin h hbin).height
  refine ⟨c.format, c.length, heights, ⟨hdrawn.mimeType, ?_, hdrawn.width,
    hdrawn.height, hbytes.trans (wave_bytes _ _ _), ⟨_, rfl⟩⟩, ?_, ?_⟩
  · rw [hdrawn.kind]
    exact .tail _ (.tail _ (.head _))
  · exact fits_wavePieces (List.length_take_le _ _)
      (length_line hfound.sampleRate hfound.align hlength) hcount hheights
  · exact plain_of_lead_not_mem (lead_not_mem_line c.format c.length)

/-- The texts of the input that the preview of a wave form shows: the start of the name, and the
line of numbers. The bars are the provider's own. -/
theorem shown_wavePieces (name line : Bytes) (heights : List ℤ) :
    (wavePieces name line heights).filterMap Piece.shown? = [name, line] := by
  unfold wavePieces
  rw [List.filterMap_append, List.filterMap_append, List.filterMap_map]
  have hbars : heights.zipIdx.filterMap (Piece.shown? ∘ fun b => Piece.markup (.bar b.2 b.1))
      = [] := List.filterMap_eq_nil_iff.2 fun _ _ => rfl
  rw [hbars]
  rfl

/-- **The cards of the provider are inert.** Inert is a preview that the checks of a portable
document accept, that shows each text of the input as character data, with every sign of markup
escaped, and that is valid UTF-8 of characters of XML 1.0. For every name, MIME type, size and
content, a card is so exactly if it keeps to the bound of a preview and none of its texts has U+FFFE
or U+FFFF, which `xml` writes as they are. For every text of bytes that `wave` draws, the preview
always keeps to the bound, and it is so exactly if the start of the name has neither of the two:
when the name has one, no line of numbers makes the preview inert. -/
theorem cards_inert (details : FileDetails) (content : Bytes) (isText : Bool) :
    (Inert (card details content isText) (cardTexts details content) ↔
      Fits (cardPieces details content) ∧ ∀ t ∈ cardTexts details content, Plain t) ∧
    ∀ v p d reads, wave v details [] = .ok ((some p, d), reads) →
      ((∃ f length, Inert p [details.name.take 120, waveLine (seconds f length) f]) ↔
        Plain (details.name.take 120)) := by
  refine ⟨(ownCard_card details content isText).inert_iff, fun v p d reads h => ⟨?_, ?_⟩⟩
  · rintro ⟨f, length, hinert⟩
    exact hinert.plain _ (.head _)
  · intro hname
    obtain ⟨f, length, heights, hown, hfits, hline⟩ := ownCard_wave h
    have hinert := hown.inert_iff.2
    rw [shown_wavePieces] at hinert
    refine ⟨f, length, hinert ⟨hfits, fun t ht => ?_⟩⟩
    rcases List.mem_pair.1 ht with rfl | rfl
    · exact hname
    · exact hline

/-- A name with a sign of markup is drawn inert, both on the card of a text with more such signs and
over the wave form of a file. -/
theorem cards_inert_sample :
    Inert (card waveDetails (ascii "x < y & \"z\"") true)
      (cardTexts waveDetails (ascii "x < y & \"z\"")) ∧
    ∃ p d reads f length, wave sampleWave waveDetails [] = .ok ((some p, d), reads) ∧
      Inert p [ascii "a<b", waveLine (seconds f length) f] := by
  obtain ⟨hcard, hwave⟩ := cards_inert waveDetails (ascii "x < y & \"z\"") true
  obtain ⟨p, d, reads, hrun, -⟩ := wave_sampleWave
  obtain ⟨f, length, hinert⟩ := (hwave _ _ _ _ hrun).2 (by decide)
  refine ⟨hcard.2 ⟨?_, ?_⟩, p, d, reads, f, length, hrun, hinert⟩
  · unfold Fits
    decide +kernel
  · decide +kernel

/-- The name U+FFFE is drawn as it is, although XML has no such character: the check accepts the
card, and what it shows is not character data. -/
theorem card_of_noncharacter : ¬ Inert
    (card ⟨[0xEF, 0xBF, 0xBE], [], [], 0, 0, ⟨[], .nil⟩⟩ [] false)
    (cardTexts ⟨[0xEF, 0xBF, 0xBE], [], [], 0, 0, ⟨[], .nil⟩⟩ []) := by
  intro h
  have hplain := ((ownCard_card _ _ _).inert_iff.1 h).2 [0xEF, 0xBF, 0xBE]
    (.head _)
  revert hplain
  decide

end Presentation

end FileProvider
