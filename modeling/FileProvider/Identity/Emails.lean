import FileProvider.Library.Utf16
import FileProvider.Native.Accounts

/-!
# The addresses of accounts in the two libraries

The Qt library and the native one read the address of an account from the same metadata. Both
compose it, trim it, fold it and match it, and both limit what stands before its sign; but the one
counts UTF-16 units there and the other bytes, so an address of the one is an address of the other
exactly when that part is short enough in bytes.

The pattern of the source is written once over an alphabet and used for units and for bytes.
`AddressOf` takes a text apart at its sign, so that the two lengths are about one part of one text,
and the condition of the theorem is on that part.
-/

namespace FileProvider

open Bytes Fallible

/-! ## The shape of an address -/

/-- `[^\s@]+@[^\s@]+\.[^\s@]+` over an alphabet with a sign, a dot and spaces. -/
def addressShape {α : Type} [DecidableEq α] (sign dot : α) (space : α → Bool) (s : List α) :
    Bool :=
  let mailbox := s.takeWhile (· ≠ sign)
  let domain := s.drop (mailbox.length + 1)
  sign ∈ s && mailbox ≠ [] && (mailbox ++ domain).all (fun c => !space c && c ≠ sign)
    && dot ∈ (domain.drop 1).dropLast

/-- A text as the pattern takes it apart. -/
structure AddressOf {α : Type} (sign dot : α) (space : α → Bool) (s m p q : List α) : Prop where
  parts : s = m ++ sign :: (p ++ dot :: q)
  mailbox : m ≠ []
  domain : p ≠ []
  top : q ≠ []
  plain : ∀ c ∈ m ++ (p ++ dot :: q), space c = false ∧ c ≠ sign

section Shape

variable {α : Type} [DecidableEq α] {sign dot : α} {space : α → Bool} {s : List α}

omit [DecidableEq α] in
/-- A text with something before a dot and something behind it. The list is cut at both ends by the
source, so that the dot that is left has a nonempty part on either side. -/
theorem inner_dot {d : List α} :
    dot ∈ (d.drop 1).dropLast ↔ ∃ p q, d = p ++ dot :: q ∧ p ≠ [] ∧ q ≠ [] := by
  cases d with
  | nil => simp
  | cons c d =>
      rw [List.drop_one, List.tail_cons]
      constructor
      · intro h
        obtain ⟨p, q, hpq⟩ := List.append_of_mem h
        have hne : d ≠ [] := by
          rintro rfl
          cases h
        refine ⟨c :: p, q ++ [d.getLast hne], ?_, by simp, by simp⟩
        have hlast := List.dropLast_append_getLast hne
        rw [hpq, List.append_assoc] at hlast
        rw [List.cons_append, ← @List.cons_append _ _ q, hlast]
      · rintro ⟨p, q, hpq, hp, hq⟩
        cases p with
        | nil => exact absurd rfl hp
        | cons a p =>
            rw [List.cons_append] at hpq
            obtain ⟨-, rfl⟩ := List.cons.inj hpq
            rw [List.dropLast_append_of_ne_nil (by simp), List.dropLast_cons_of_ne_nil hq]
            simp

/-- The part before the first sign is taken. -/
theorem takeWhile_sign {m r : List α} (hm : ∀ c ∈ m, c ≠ sign) :
    (m ++ sign :: r).takeWhile (· ≠ sign) = m := by
  rw [List.takeWhile_append_of_pos fun c hc => decide_eq_true (hm c hc),
    List.takeWhile_cons_of_neg (by simp), List.append_nil]

omit [DecidableEq α] in
/-- The part behind it is what is left. -/
theorem drop_sign (m r : List α) : (m ++ sign :: r).drop (m.length + 1) = r := by
  rw [List.append_cons, List.drop_left' (by simp)]

/-- The pattern matches what can be taken apart. -/
theorem addressShape_iff :
    addressShape sign dot space s = true ↔ ∃ m p q, AddressOf sign dot space s m p q := by
  constructor
  · intro h
    simp only [addressShape, Bool.and_eq_true, decide_eq_true_eq, List.all_eq_true,
      Bool.not_eq_true'] at h
    obtain ⟨⟨⟨hsign, hm⟩, hall⟩, hdot⟩ := h
    obtain ⟨m, r, rfl, hfirst⟩ := List.eq_append_cons_of_mem hsign
    have hsigns : ∀ c ∈ m, c ≠ sign := fun c hc heq => hfirst (heq ▸ hc)
    rw [takeWhile_sign hsigns, drop_sign] at hall hdot
    rw [takeWhile_sign hsigns] at hm
    obtain ⟨p, q, rfl, hp, hq⟩ := inner_dot.1 hdot
    exact ⟨m, p, q, rfl, hm, hp, hq, hall⟩
  · rintro ⟨m, p, q, rfl, hm, hp, hq, hall⟩
    have hsigns : ∀ c ∈ m, c ≠ sign := fun c hc => (hall c (List.mem_append_left _ hc)).2
    simp only [addressShape, takeWhile_sign hsigns, drop_sign, Bool.and_eq_true,
      decide_eq_true_eq, List.all_eq_true, Bool.not_eq_true']
    exact ⟨⟨⟨by simp, hm⟩, hall⟩, inner_dot.2 ⟨p, q, rfl, hp, hq⟩⟩

end Shape

/-! ## The address of the Qt library -/

/-- A text of Qt: its UTF-16 units. -/
abbrev QString := List UInt16

namespace Identity

variable (U : Utf8proc)

/-- `QString::size` of the text of some scalars. -/
def size (points : List Char) : Nat := (Utf16.encode points).length

/-- `QChar::isSpace`. -/
def isSpace (c : Char) : Bool :=
  c.toNat = 0x20 || 9 ≤ c.toNat && c.toNat ≤ 13 || c.toNat = 0x85 || Native.spaceSeparator c
    || Native.lineSeparator c

/-- `QString::trimmed`. -/
def trimmed (points : List Char) : List Char :=
  ((points.dropWhile isSpace).reverse.dropWhile isSpace).reverse

/-- A scalar that `cleanText` lets pass. -/
def clean (multiline : Bool) (code : Char) : Bool :=
  multiline && code.toNat = 10 || !Native.control code && !Native.lineSeparator code

def cleanText (text : QString) (field : String) (maximum : Nat) (required multiline : Bool) :
    Fallible (List Char) := do
  let points ← orFail field (Utf16.scalars text)
  let points := trimmed (U.compose points)
  failIf (¬ ((required = false ∨ points ≠ []) ∧ points.length ≤ maximum)) field
  failIf (points.all (clean multiline) = false) field
  pure points

/-- The white space of a pattern without Unicode properties. -/
def patternSpace (c : Char) : Bool := c.toNat = 32 || 9 ≤ c.toNat && c.toNat ≤ 13

def email (value : List Char) (field : String) : Fallible (List Char) := do
  let value := (U.compatible value).flatMap (Native.lowered U)
  failIf (¬ (3 ≤ size value ∧ size value ≤ 254
    ∧ addressShape '@' '.' patternSpace value = true
    ∧ size (value.takeWhile (· ≠ '@')) ≤ 64)) field
  pure value

/-- The canonical form of an address: composed and trimmed, in its compatible form and in lower
case. -/
def canonical (points : List Char) : List Char :=
  (U.compatible (trimmed (U.compose points))).flatMap (Native.lowered U)

/-- The address of an account, as `readAccount` reads it. -/
def accountEmail (value : QString) : Fallible (List Char) := do
  let value ← cleanText U value "email" 254 true false
  email U value "email"

end Identity

/-! ## The two parsers -/

namespace Identity

/-- The white space of the two patterns is the same. -/
theorem patternSpace_ofNat {a : UInt8} (h : a.toNat < 0x80) :
    patternSpace (Char.ofNat a.toNat) = Native.isSpace a := by
  have hnat : (Char.ofNat a.toNat).toNat = a.toNat := Utf8.val_ofNat (.inl (by omega))
  have hspace : a = 32 ↔ a.toNat = 32 := by
    rw [← UInt8.toNat_inj]
    rfl
  rw [Bool.eq_iff_iff]
  simp only [patternSpace, Native.isSpace, hnat, hspace, UInt8.le_iff_toNat_le, Bool.or_eq_true,
    Bool.and_eq_true, decide_eq_true_eq]
  rfl

/-- A text is free of signs and spaces in its bytes as in its scalars. An ASCII scalar is one byte
with its number, and the bytes of any other scalar are above 127, where neither spaces nor the sign
are. -/
theorem plain_encode {l : List Char} :
    (∀ b ∈ Utf8.encode l, Native.isSpace b = false ∧ b ≠ 64) ↔
      ∀ c ∈ l, patternSpace c = false ∧ c ≠ '@' := by
  constructor
  · intro h c hc
    by_cases hascii : c.toNat < 0x80
    · have hbyte : (UInt8.ofNat c.toNat).toNat = c.toNat := Utf8.toNat_ofNat (by omega)
      have hchar : Char.ofNat (UInt8.ofNat c.toNat).toNat = c := by rw [hbyte, Char.ofNat_toNat]
      have hsmall : (UInt8.ofNat c.toNat).toNat < 0x80 := by omega
      have hmem : UInt8.ofNat c.toNat ∈ Utf8.encode l := by
        rw [Utf8.mem_encode hsmall, hchar]
        exact hc
      obtain ⟨hspace, hsign⟩ := h _ hmem
      rw [← patternSpace_ofNat hsmall, hchar] at hspace
      refine ⟨hspace, ?_⟩
      rintro rfl
      exact hsign rfl
    · refine ⟨?_, ?_⟩
      · simp only [patternSpace, Bool.or_eq_false_iff, Bool.and_eq_false_iff,
          decide_eq_false_iff_not]
        omega
      · rintro rfl
        exact hascii (by decide)
  · intro h b hb
    by_cases hascii : b.toNat < 0x80
    · obtain ⟨hspace, hsign⟩ := h _ ((Utf8.mem_encode hascii).1 hb)
      rw [patternSpace_ofNat hascii] at hspace
      refine ⟨hspace, ?_⟩
      rintro rfl
      exact hsign rfl
    · refine ⟨?_, ?_⟩
      · have hspace : b = 32 ↔ b.toNat = 32 := by
          rw [← UInt8.toNat_inj]
          rfl
        have hthirteen : b ≤ 13 ↔ b.toNat ≤ 13 := UInt8.le_iff_toNat_le
        simp only [Native.isSpace, hspace, hthirteen, Bool.or_eq_false_iff, Bool.and_eq_false_iff,
          decide_eq_false_iff_not]
        omega
      · rintro rfl
        exact hascii (by decide)

/-- A point is one byte of the encoding. -/
theorem encode_dot (p q : List Char) :
    Utf8.encode (p ++ '.' :: q) = Utf8.encode p ++ 46 :: Utf8.encode q := by
  rw [Utf8.encode_append, Utf8.encode_cons]
  rfl

/-- An at sign is one byte of the encoding. -/
theorem encode_sign (m r : List Char) :
    Utf8.encode (m ++ '@' :: r) = Utf8.encode m ++ 64 :: Utf8.encode r := by
  rw [Utf8.encode_append, Utf8.encode_cons]
  rfl

/-- The pattern matches a text in UTF-8 as it does its scalars. Both the sign and the dot are ASCII,
so that they occur in the bytes where they occur among the scalars, and the parts between them
correspond. -/
theorem emailPattern_encode (s : List Char) :
    Native.emailPattern (Utf8.encode s) = addressShape '@' '.' patternSpace s := by
  have hsign : (64 : UInt8).toNat < 0x80 := by decide
  have hdot : (46 : UInt8).toNat < 0x80 := by decide
  rw [Bool.eq_iff_iff]
  show addressShape 64 46 Native.isSpace (Utf8.encode s) = true ↔ _
  rw [addressShape_iff, addressShape_iff]
  constructor
  · rintro ⟨m, p, q, h⟩
    obtain ⟨m', r, rfl, rfl, hr⟩ := Utf8.encode_split hsign h.parts
    obtain ⟨p', q', rfl, rfl, rfl⟩ := Utf8.encode_split hdot hr
    have hplain := h.plain
    rw [← encode_dot, ← Utf8.encode_append] at hplain
    exact ⟨m', p', q', rfl, mt Utf8.encode_eq_nil.2 h.mailbox, mt Utf8.encode_eq_nil.2 h.domain,
      mt Utf8.encode_eq_nil.2 h.top, plain_encode.1 hplain⟩
  · rintro ⟨m, p, q, h⟩
    have hplain := plain_encode.2 h.plain
    rw [Utf8.encode_append, encode_dot] at hplain
    refine ⟨Utf8.encode m, Utf8.encode p, Utf8.encode q, ?_, mt Utf8.encode_eq_nil.1 h.mailbox,
      mt Utf8.encode_eq_nil.1 h.domain, mt Utf8.encode_eq_nil.1 h.top, hplain⟩
    rw [h.parts, encode_sign, encode_dot]

/-- What stands before the sign is the same in bytes and in scalars. -/
theorem takeWhile_encode (s : List Char) :
    (Utf8.encode s).takeWhile (· ≠ 64) = Utf8.encode (s.takeWhile (· ≠ '@')) := by
  induction s with
  | nil => rfl
  | cons c s ih =>
      by_cases hc : c = '@'
      · rw [hc, List.takeWhile_cons_of_neg (by simp)]
        rfl
      · rw [List.takeWhile_cons_of_pos (by simpa using hc), Utf8.encode_cons, Utf8.encode_cons,
          List.takeWhile_append_of_pos, ih]
        intro b hb
        refine decide_eq_true ?_
        rintro rfl
        have hnat := Utf8.ascii_of_mem_char hb (by decide)
        exact hc (by rw [← Char.ofNat_toNat c, hnat]; rfl)

variable {E : NativeLibraries} {s : QString} {c points : List Char}

/-- White space is the same for both libraries. -/
theorem isSpace_eq : isSpace = Native.whitespace := by
  funext c
  simp only [isSpace, Native.whitespace, Native.spaceSeparator, Native.lineSeparator]
  rw [Bool.eq_iff_iff]
  simp only [Bool.or_eq_true, Bool.and_eq_true, decide_eq_true_eq, List.mem_cons,
    List.not_mem_nil, or_false]
  omega

/-- What one library cleans a text to the other does too. Both trim the same spaces, and what they
ask of the length and of the characters is asked of the same scalars. -/
theorem clean_of_cleanText {maximum : Nat} {required multiline : Bool} {field : String}
    (hs : Utf16.scalars s = some points)
    (h : cleanText E.unicode s field maximum required multiline = .ok c) :
    Native.clean E.unicode (Utf8.encode points) maximum required multiline = .ok (Utf8.encode c)
      ∧ c = trimmed (E.unicode.compose points) := by
  simp only [cleanText, bind_ok, orFail_ok, failIf_ok, pure_ok, not_not] at h
  obtain ⟨points', hpoints', _, ⟨hrequired, hlength⟩, _, hclean, rfl⟩ := h
  obtain rfl := Option.some.inj (hs.symm.trans hpoints')
  refine ⟨?_, rfl⟩
  have htrim : trimmed = Native.trim := by
    unfold trimmed Native.trim
    rw [isSpace_eq]
  rw [htrim] at hrequired hlength hclean ⊢
  have hnormal : Native.normalize E.unicode (Utf8.encode points) false false
      = .ok (Utf8.encode (E.unicode.compose points)) := by
    simp only [Native.normalize, Native.scalars, bind_ok, orFail_ok, pure_ok]
    exact ⟨points, Utf8.scalars_encode points, rfl⟩
  have hscalars : Native.scalars (Utf8.encode (E.unicode.compose points))
      = .ok (E.unicode.compose points) :=
    orFail_ok.2 (Utf8.scalars_encode _)
  have hprintable : (Native.trim (E.unicode.compose points)).all (Native.printable multiline)
      = true := Bool.eq_true_of_not_eq_false hclean
  simp only [Native.clean, bind_ok, Native.require_ok, pure_ok]
  exact ⟨_, hnormal, _, hscalars, (), ⟨hlength, hrequired⟩, (), hprintable, rfl⟩

/-- The native library reads the address of an account as the canonical one of the Qt library,
unless what stands before the sign is too long in bytes. -/
theorem mailOf_iff {account : Json} {mail : Bytes} (hs : Utf16.scalars s = some points)
    (h : accountEmail E.unicode s = .ok c)
    (haccount : account.member? (ascii "email") = some (.str (Utf8.encode points))) :
    Native.mailOf E account = .ok mail ↔
      (Utf8.encode ((canonical E.unicode points).takeWhile (· ≠ '@'))).length ≤ 64 ∧
        Utf8.encode c = mail := by
  simp only [accountEmail, email, bind_ok, failIf_ok, pure_ok, not_not] at h
  obtain ⟨value, hvalue, _, ⟨-, -, hshape, -⟩, rfl⟩ := h
  obtain ⟨hclean, rfl⟩ := clean_of_cleanText hs hvalue
  generalize hvalue' : trimmed (E.unicode.compose points) = value at hclean hshape
  rw [canonical, hvalue']
  have htext : Native.text E.unicode account (ascii "email") 254 true false
      = .ok (Utf8.encode value) := by
    unfold Native.text
    rw [haccount]
    exact hclean
  have hfolded : Native.normalize E.unicode (Utf8.encode value) true true
      = .ok (Utf8.encode ((E.unicode.compatible value).flatMap (Native.lowered E.unicode))) := by
    simp only [Native.normalize, Native.scalars, bind_ok, orFail_ok, pure_ok]
    exact ⟨value, Utf8.scalars_encode value, rfl⟩
  simp only [Native.mailOf, bind_ok, htext, hfolded, Except.ok.injEq, exists_eq_left',
    Native.require_ok, pure_ok, emailPattern_encode, takeWhile_encode, hshape, true_and,
    exists_const]

/-- **The native library takes an address of the Qt library, in the same canonical form, exactly
when its part before the sign has at most 64 bytes.** The address is any that the Qt library
accepts; the part is that of the normalised text, and it is there that the two count differently. -/
theorem acceptsMail_of_accountEmail (E : NativeLibraries) (s : QString) (c : List Char)
    (points : List Char) (hs : Utf16.scalars s = some points)
    (h : accountEmail E.unicode s = .ok c) :
    Native.AcceptsMail E (Utf8.encode points) (Utf8.encode c) ↔
      (Utf8.encode ((canonical E.unicode points).takeWhile (· ≠ '@'))).length ≤ 64 :=
  Native.acceptsMail_iff fun _ _ haccount => mailOf_iff hs h haccount

/-- An address in capitals is one of both. -/
theorem acceptsMail_of_accountEmail_sample :
    Native.AcceptsMail .reference (Utf8.encode "A@a.ru".toList) (Utf8.encode "a@a.ru".toList) := by
  have hqt : accountEmail NativeLibraries.reference.unicode (Utf16.encode "A@a.ru".toList)
      = .ok "a@a.ru".toList :=
    toOption_eq_some.1 (by decide +kernel)
  have hiff := acceptsMail_of_accountEmail .reference _ _ _ (Utf16.scalars_encode _) hqt
  exact hiff.2 (by decide +kernel)

/-- Thirty-three Cyrillic letters before the sign are 66 bytes: the one library takes the address
and the other does not. -/
theorem mails_differ : ∃ s c points, Utf16.scalars s = some points ∧
    accountEmail NativeLibraries.reference.unicode s = .ok c ∧
      ¬ Native.AcceptsMail .reference (Utf8.encode points) (Utf8.encode c) := by
  have hqt : accountEmail NativeLibraries.reference.unicode
      (Utf16.encode (List.replicate 33 'я' ++ "@a.ru".toList))
      = .ok (List.replicate 33 'я' ++ "@a.ru".toList) :=
    toOption_eq_some.1 (by decide +kernel)
  refine ⟨_, _, _, Utf16.scalars_encode _, hqt, fun h => ?_⟩
  have hshort := (acceptsMail_of_accountEmail .reference _ _ _ (Utf16.scalars_encode _) hqt).1 h
  revert hshort
  decide +kernel

end Identity

end FileProvider
