import FileProvider.Library.Json

/-!
# The scalars of a text

`scalars` reads the Unicode scalars of a text that is well-formed UTF-8, and `encode` writes them.
`scalars_encode` says that what was written is read back; `isSome_scalars` says that the texts that
can be read are those a JSON string can hold.

The bounds of the second byte exclude long forms, surrogates and what is beyond the last plane. The
lemmas for one to four bytes are those of the reader and the writer separately; the two inverse
theorems go by the induction of the reader.
-/

namespace Utf8

/-- The text of some scalars. -/
def encode (l : List Char) : Bytes := l.flatMap String.utf8EncodeChar

/-- The scalar of its bits in a text, after those of the rest. -/
def scalar (n : Nat) (rest : Option (List Char)) : Option (List Char) :=
  rest.map (Char.ofNat n :: ·)

/-- The scalars of a text, which must be well-formed UTF-8: no overlong form, no surrogate, nothing
past U+10FFFF. -/
def scalars : Bytes → Option (List Char)
  | [] => some []
  | a :: s =>
      if a.toNat < 0x80 then scalar a.toNat (scalars s)
      else match s with
        | [] => none
        | b :: s =>
          if 0xC2 ≤ a.toNat && a.toNat ≤ 0xDF then
            if Json.contByte 0x80 0xBF b then
              scalar ((a.toNat - 0xC0) * 64 + (b.toNat - 0x80)) (scalars s)
            else none
          else match s with
            | [] => none
            | c :: s =>
              if 0xE0 ≤ a.toNat && a.toNat ≤ 0xEF then
                if (if a.toNat = 0xE0 then Json.contByte 0xA0 0xBF b
                    else if a.toNat = 0xED then Json.contByte 0x80 0x9F b
                    else Json.contByte 0x80 0xBF b) && Json.contByte 0x80 0xBF c then
                  scalar (((a.toNat - 0xE0) * 64 + (b.toNat - 0x80)) * 64 + (c.toNat - 0x80))
                    (scalars s)
                else none
              else match s with
                | [] => none
                | d :: s =>
                  if (if a.toNat = 0xF0 then Json.contByte 0x90 0xBF b
                      else if a.toNat = 0xF4 then Json.contByte 0x80 0x8F b
                      else 0xF1 ≤ a.toNat && a.toNat ≤ 0xF3 && Json.contByte 0x80 0xBF b)
                      && Json.contByte 0x80 0xBF c && Json.contByte 0x80 0xBF d then
                    scalar ((((a.toNat - 0xF0) * 64 + (b.toNat - 0x80)) * 64 +
                      (c.toNat - 0x80)) * 64
                      + (d.toNat - 0x80)) (scalars s)
                  else none

@[simp] theorem isSome_scalar {n : Nat} {rest : Option (List Char)} :
    (scalar n rest).isSome = rest.isSome :=
  Option.isSome_map

/-- A text that begins with the lead of three bytes. The cases of the second byte exclude the long
forms and the surrogates, and the lemma is the branch of the definition with its tests decided. -/
theorem validUtf8_three {a b c : UInt8} {s : Bytes}
    (h : (decide (0xE0 ≤ a.toNat) && decide (a.toNat ≤ 0xEF)) = true) :
    Json.validUtf8 (a :: b :: c :: s) =
      ((if a.toNat = 0xE0 then Json.contByte 0xA0 0xBF b
        else if a.toNat = 0xED then Json.contByte 0x80 0x9F b else Json.contByte 0x80 0xBF b)
        && Json.contByte 0x80 0xBF c && Json.validUtf8 s) := by
  rw [Bool.and_eq_true, decide_eq_true_iff, decide_eq_true_iff] at h
  have htwo : ¬ (decide (0xC2 ≤ a.toNat) && decide (a.toNat ≤ 0xDF)) = true := by
    rw [Bool.and_eq_true, decide_eq_true_iff, decide_eq_true_iff]
    omega
  conv_lhs => unfold Json.validUtf8
  rw [if_neg (show ¬ a.toNat < 0x80 by omega)]
  dsimp only
  rw [if_neg htwo]
  by_cases hfirst : a.toNat = 0xE0
  · rw [if_pos hfirst, if_pos hfirst]
  rw [if_neg hfirst, if_neg hfirst]
  by_cases hsurrogate : a.toNat = 0xED
  · rw [if_pos hsurrogate, if_pos hsurrogate]
  rw [if_neg hsurrogate, if_neg hsurrogate, if_pos]
  rw [Bool.and_eq_true, decide_eq_true_iff, decide_eq_true_iff]
  omega

/-- A text that begins with another lead than one of at most three bytes. Three bytes are too few
for it, and with a fourth one the rule for four bytes is the only one left. -/
theorem validUtf8_four {a b c : UInt8} (hone : ¬ a.toNat < 0x80)
    (htwo : ¬ (decide (0xC2 ≤ a.toNat) && decide (a.toNat ≤ 0xDF)) = true)
    (hthree : ¬ (decide (0xE0 ≤ a.toNat) && decide (a.toNat ≤ 0xEF)) = true) :
    Json.validUtf8 [a, b, c] = false ∧ ∀ d s, Json.validUtf8 (a :: b :: c :: d :: s) =
      ((if a.toNat = 0xF0 then Json.contByte 0x90 0xBF b
        else if a.toNat = 0xF4 then Json.contByte 0x80 0x8F b
        else 0xF1 ≤ a.toNat && a.toNat ≤ 0xF3 && Json.contByte 0x80 0xBF b)
        && Json.contByte 0x80 0xBF c && Json.contByte 0x80 0xBF d && Json.validUtf8 s) := by
  rw [Bool.and_eq_true, decide_eq_true_iff, decide_eq_true_iff] at hthree
  have hfirst : ¬ a.toNat = 0xE0 := by omega
  have hsurrogate : ¬ a.toNat = 0xED := by omega
  have hrest : ¬ (decide (0xE1 ≤ a.toNat) && decide (a.toNat ≤ 0xEF)) = true := by
    rw [Bool.and_eq_true, decide_eq_true_iff, decide_eq_true_iff]
    omega
  constructor
  · unfold Json.validUtf8
    rw [if_neg hone]
    dsimp only
    rw [if_neg htwo, if_neg hfirst, if_neg hsurrogate, if_neg hrest]
  · intro d s
    conv_lhs => unfold Json.validUtf8
    rw [if_neg hone]
    dsimp only
    rw [if_neg htwo, if_neg hfirst, if_neg hsurrogate, if_neg hrest]

/-- The texts that have scalars are the well-formed ones. -/
theorem isSome_scalars (s : Bytes) : (scalars s).isSome = Json.validUtf8 s := by
  fun_induction scalars s with
  | case1 => rfl
  | case2 a s hone ih =>
      unfold Json.validUtf8
      rw [isSome_scalar, ih, if_pos hone]
  | case3 a hone =>
      unfold Json.validUtf8
      rw [if_neg hone]
      rfl
  | case4 a hone b s htwo hb ih =>
      unfold Json.validUtf8
      rw [isSome_scalar, ih, if_neg hone]
      dsimp only
      rw [if_pos htwo, hb, Bool.true_and]
  | case5 a hone b s htwo hb =>
      unfold Json.validUtf8
      rw [if_neg hone]
      dsimp only
      rw [if_pos htwo, Bool.eq_false_iff.2 hb, Bool.false_and]
      rfl
  | case6 a hone b htwo =>
      unfold Json.validUtf8
      rw [if_neg hone]
      dsimp only
      rw [if_neg htwo]
      rfl
  | case7 a hone b htwo c s hthree hc ih =>
      rw [isSome_scalar, ih, validUtf8_three hthree, hc, Bool.true_and]
  | case8 a hone b htwo c s hthree hc =>
      rw [validUtf8_three hthree, Bool.eq_false_iff.2 hc, Bool.false_and]
      rfl
  | case9 a hone b htwo c hthree =>
      rw [(validUtf8_four hone htwo hthree).1]
      rfl
  | case10 a hone b htwo c hthree d s hd ih =>
      rw [isSome_scalar, ih, (validUtf8_four hone htwo hthree).2]
      exact (congrArg (· && Json.validUtf8 s) hd).symm
  | case11 a hone b htwo c hthree d s hd =>
      rw [(validUtf8_four hone htwo hthree).2]
      exact (congrArg (· && Json.validUtf8 s) (Bool.eq_false_iff.2 hd)).symm
/-! ## What is written is read back -/

/-- A number below 256 is kept in a byte. -/
theorem toNat_ofNat {n : Nat} (h : n < 256) : (UInt8.ofNat n).toNat = n := by
  rw [UInt8.toNat_ofNat']
  exact Nat.mod_eq_of_lt h

/-- A byte within the bounds is accepted as a further one. -/
theorem contByte_ofNat {lo hi n : Nat} (hn : n < 256) (hlo : lo ≤ n) (hhi : n ≤ hi) :
    Json.contByte lo hi (UInt8.ofNat n) = true := by
  simp only [Json.contByte, toNat_ofNat hn, hlo, hhi, decide_true, Bool.and_self]

section
variable {a b c d : UInt8} {s : Bytes}

/-- The rule for one byte. -/
theorem scalars_one (h : a.toNat < 0x80) : scalars (a :: s) = scalar a.toNat (scalars s) := by
  conv_lhs => unfold scalars
  rw [if_pos h]

/-- The rule for two bytes. -/
theorem scalars_two (h : 0xC2 ≤ a.toNat) (h' : a.toNat ≤ 0xDF)
    (hb : Json.contByte 0x80 0xBF b = true) :
    scalars (a :: b :: s) = scalar ((a.toNat - 0xC0) * 64 + (b.toNat - 0x80)) (scalars s) := by
  conv_lhs => unfold scalars
  rw [if_neg (by omega)]
  simp only [h, h', decide_true, Bool.and_self, if_true, hb]

/-- The rule for three bytes, which excludes long forms and surrogates. -/
theorem scalars_three (h : 0xE0 ≤ a.toNat) (h' : a.toNat ≤ 0xEF)
    (hb : Json.contByte (if a.toNat = 0xE0 then 0xA0 else 0x80)
      (if a.toNat = 0xED then 0x9F else 0xBF) b = true)
    (hc : Json.contByte 0x80 0xBF c = true) :
    scalars (a :: b :: c :: s) =
      scalar (((a.toNat - 0xE0) * 64 + (b.toNat - 0x80)) * 64 + (c.toNat - 0x80)) (scalars s) := by
  have hb' : (if a.toNat = 0xE0 then Json.contByte 0xA0 0xBF b
      else if a.toNat = 0xED then Json.contByte 0x80 0x9F b
      else Json.contByte 0x80 0xBF b) = true := by
    split at hb <;> split at hb <;> simp_all
  have htwo : (decide (0xC2 ≤ a.toNat) && decide (a.toNat ≤ 0xDF)) = false := by
    simp only [Bool.and_eq_false_iff, decide_eq_false_iff_not]
    omega
  conv_lhs => unfold scalars
  rw [if_neg (by omega)]
  simp only [htwo, h, h', decide_true, Bool.and_self, if_true, hb', hc,
    Bool.false_eq_true, if_false]

/-- The rule for four bytes, which excludes long forms and what is beyond the last plane. The tests
of the definition are in terms of the second byte as well, so that the first and the last lead are
cases of their own. -/
theorem scalars_four (h : 0xF0 ≤ a.toNat) (h' : a.toNat ≤ 0xF4)
    (hb : Json.contByte (if a.toNat = 0xF0 then 0x90 else 0x80)
      (if a.toNat = 0xF4 then 0x8F else 0xBF) b = true)
    (hc : Json.contByte 0x80 0xBF c = true) (hd : Json.contByte 0x80 0xBF d = true) :
    scalars (a :: b :: c :: d :: s) =
      scalar ((((a.toNat - 0xF0) * 64 + (b.toNat - 0x80)) * 64 + (c.toNat - 0x80)) * 64
        + (d.toNat - 0x80)) (scalars s) := by
  have hb' : (if a.toNat = 0xF0 then Json.contByte 0x90 0xBF b
      else if a.toNat = 0xF4 then Json.contByte 0x80 0x8F b
      else decide (0xF1 ≤ a.toNat) && decide (a.toNat ≤ 0xF3)
        && Json.contByte 0x80 0xBF b) = true := by
    by_cases hfirst : a.toNat = 0xF0
    · simp_all
    · by_cases hlast : a.toNat = 0xF4
      · simp_all
      · have hlo : 0xF1 ≤ a.toNat := by omega
        have hhi : a.toNat ≤ 0xF3 := by omega
        simp_all
  have htwo : (decide (0xC2 ≤ a.toNat) && decide (a.toNat ≤ 0xDF)) = false := by
    simp only [Bool.and_eq_false_iff, decide_eq_false_iff_not]
    omega
  have hthree : (decide (0xE0 ≤ a.toNat) && decide (a.toNat ≤ 0xEF)) = false := by
    simp only [Bool.and_eq_false_iff, decide_eq_false_iff_not]
    omega
  conv_lhs => unfold scalars
  rw [if_neg (by omega)]
  simp only [htwo, hthree, hb', hc, hd, Bool.and_self, if_true, Bool.false_eq_true, if_false]

end

/-- One scalar is read back from the front of its text. -/
theorem scalars_char (c : Char) (s : Bytes) :
    scalars (String.utf8EncodeChar c ++ s) = (scalars s).map (c :: ·) := by
  have hvalid : c.val.toNat < 0xD800 ∨ 0xDFFF < c.val.toNat ∧ c.val.toNat < 0x110000 := c.valid
  have hscalar : ∀ n, n = c.val.toNat → scalar n (scalars s) = (scalars s).map (c :: ·) := by
    rintro n rfl
    exact congrArg (fun d => (scalars s).map (d :: ·)) (Char.ofNat_toNat c)
  unfold String.utf8EncodeChar
  generalize c.val.toNat = n at hvalid hscalar ⊢
  change scalars
    ((if n ≤ 0x7f then _ else if n ≤ 0x7ff then _ else if n ≤ 0xffff then _ else _) ++ s)
    = _
  split
  · next hone =>
      have ha := toNat_ofNat (n := n) (by omega)
      exact (scalars_one (by omega)).trans (hscalar _ ha)
  split
  · next hone htwo =>
      have ha := toNat_ofNat (n := n / 64 % 0x20 + 0xc0) (by omega)
      have hb := toNat_ofNat (n := n % 0x40 + 0x80) (by omega)
      refine (scalars_two (by omega) (by omega)
        (contByte_ofNat (by omega) (by omega) (by omega))).trans (hscalar _ ?_)
      rw [ha, hb]
      omega
  split
  · next hone htwo hthree =>
      have ha := toNat_ofNat (n := n / 4096 % 0x10 + 0xe0) (by omega)
      have hb := toNat_ofNat (n := n / 64 % 0x40 + 0x80) (by omega)
      have hc := toNat_ofNat (n := n % 0x40 + 0x80) (by omega)
      refine (scalars_three (by omega) (by omega)
        (contByte_ofNat (by omega) ?_ ?_)
        (contByte_ofNat (by omega) (by omega) (by omega))).trans (hscalar _ ?_)
      · split <;> omega
      · split <;> omega
      · rw [ha, hb, hc]
        omega
  · next hone htwo hthree =>
      have ha := toNat_ofNat (n := n / 262144 % 0x08 + 0xf0) (by omega)
      have hb := toNat_ofNat (n := n / 4096 % 0x40 + 0x80) (by omega)
      have hc := toNat_ofNat (n := n / 64 % 0x40 + 0x80) (by omega)
      have hd := toNat_ofNat (n := n % 0x40 + 0x80) (by omega)
      refine (scalars_four (by omega) (by omega)
        (contByte_ofNat (by omega) ?_ ?_)
        (contByte_ofNat (by omega) (by omega) (by omega))
        (contByte_ofNat (by omega) (by omega) (by omega))).trans (hscalar _ ?_)
      · split <;> omega
      · split <;> omega
      · rw [ha, hb, hc, hd]
        omega

/-- **What is written is read back.** -/
theorem scalars_encode (l : List Char) : scalars (encode l) = some l := by
  induction l with
  | nil => rfl
  | cons c l ih =>
      have hcons : encode (c :: l) = String.utf8EncodeChar c ++ encode l := List.flatMap_cons
      rw [hcons, scalars_char, ih]
      rfl

/-- An encoded text is valid UTF-8. -/
theorem validUtf8_encode (l : List Char) : Json.validUtf8 (encode l) = true := by
  rw [← isSome_scalars, scalars_encode]
  rfl

/-! ## What is read is what was written -/

/-- A valid number is kept in a character. -/
theorem val_ofNat {n : Nat} (h : n.isValidChar) : (Char.ofNat n).val.toNat = n := by
  unfold Char.ofNat
  rw [dif_pos h]
  have hlt : n < 2 ^ 32 := by
    rcases h with h | h <;> omega
  show (UInt32.ofNatLT n _).toNat = n
  exact UInt32.toNat_ofNatLT

/-- The byte of a number is the byte it was taken from. -/
theorem ofNat_eq {n : Nat} {a : UInt8} (h : n = a.toNat) : UInt8.ofNat n = a := by
  subst h
  exact UInt8.ofNat_toNat

/-- A character below 128 is encoded as it was read. -/
theorem encode_one {a : UInt8} (h : a.toNat < 0x80) :
    String.utf8EncodeChar (Char.ofNat a.toNat) = [a] := by
  have hval := val_ofNat (n := a.toNat) (.inl (by omega))
  unfold String.utf8EncodeChar
  generalize (Char.ofNat a.toNat).val.toNat = n at hval ⊢
  change (if n ≤ 0x7f then _ else if n ≤ 0x7ff then _ else if n ≤ 0xffff then _ else _) = _
  rw [if_pos (by omega)]
  exact congrArg (fun b => [b]) (ofNat_eq hval)

/-- A character read from two bytes is encoded as them. -/
theorem encode_two {a b : UInt8} (h : 0xC2 ≤ a.toNat) (h' : a.toNat ≤ 0xDF)
    (hb : Json.contByte 0x80 0xBF b = true) :
    String.utf8EncodeChar (Char.ofNat ((a.toNat - 0xC0) * 64 + (b.toNat - 0x80))) = [a, b] := by
  simp only [Json.contByte, Bool.and_eq_true, decide_eq_true_eq] at hb
  have hval := val_ofNat (n := (a.toNat - 0xC0) * 64 + (b.toNat - 0x80)) (.inl (by omega))
  unfold String.utf8EncodeChar
  generalize (Char.ofNat ((a.toNat - 0xC0) * 64 + (b.toNat - 0x80))).val.toNat = n at hval ⊢
  change (if n ≤ 0x7f then _ else if n ≤ 0x7ff then _ else if n ≤ 0xffff then _ else _) = _
  rw [if_neg (by omega), if_pos (by omega)]
  show [UInt8.ofNat (n / 64 % 0x20 + 0xc0), UInt8.ofNat (n % 0x40 + 0x80)] = [a, b]
  rw [ofNat_eq (a := a) (by omega), ofNat_eq (a := b) (by omega)]

/-- A character read from three bytes is encoded as them. The number is between 0x800 and 0xFFFF, as
the long forms are excluded, and not a surrogate. -/
theorem encode_three {a b c : UInt8} (h : 0xE0 ≤ a.toNat) (h' : a.toNat ≤ 0xEF)
    (hb : (if a.toNat = 0xE0 then Json.contByte 0xA0 0xBF b
      else if a.toNat = 0xED then Json.contByte 0x80 0x9F b
      else Json.contByte 0x80 0xBF b) = true) (hc : Json.contByte 0x80 0xBF c = true) :
    String.utf8EncodeChar (Char.ofNat
      (((a.toNat - 0xE0) * 64 + (b.toNat - 0x80)) * 64 + (c.toNat - 0x80))) = [a, b, c] := by
  simp only [Json.contByte, Bool.and_eq_true, decide_eq_true_eq] at hb hc
  have hbounds : 0x80 ≤ b.toNat ∧ b.toNat ≤ 0xBF ∧ (a.toNat = 0xE0 → 0xA0 ≤ b.toNat) ∧
      (a.toNat = 0xED → b.toNat ≤ 0x9F) := by
    split_ifs at hb
    all_goals simp only [Bool.and_eq_true, decide_eq_true_eq] at hb; omega
  obtain ⟨hlo, hhi, hover, hsurrogate⟩ := hbounds
  have hval := val_ofNat (n := ((a.toNat - 0xE0) * 64 + (b.toNat - 0x80)) * 64 + (c.toNat - 0x80))
    (by unfold Nat.isValidChar; omega)
  unfold String.utf8EncodeChar
  generalize (Char.ofNat
    (((a.toNat - 0xE0) * 64 + (b.toNat - 0x80)) * 64 + (c.toNat - 0x80))).val.toNat = n at hval ⊢
  change (if n ≤ 0x7f then _ else if n ≤ 0x7ff then _ else if n ≤ 0xffff then _ else _) = _
  rw [if_neg (by omega), if_neg (by omega), if_pos (by omega)]
  show [UInt8.ofNat (n / 4096 % 0x10 + 0xe0), UInt8.ofNat (n / 64 % 0x40 + 0x80),
    UInt8.ofNat (n % 0x40 + 0x80)] = [a, b, c]
  rw [ofNat_eq (a := a) (by omega), ofNat_eq (a := b) (by omega), ofNat_eq (a := c) (by omega)]

/-- A character read from four bytes is encoded as them. -/
theorem encode_four {a b c d : UInt8} (hb : (if a.toNat = 0xF0 then Json.contByte 0x90 0xBF b
      else if a.toNat = 0xF4 then Json.contByte 0x80 0x8F b
      else decide (0xF1 ≤ a.toNat) && decide (a.toNat ≤ 0xF3) && Json.contByte 0x80 0xBF b) = true)
    (hc : Json.contByte 0x80 0xBF c = true) (hd : Json.contByte 0x80 0xBF d = true) :
    String.utf8EncodeChar (Char.ofNat ((((a.toNat - 0xF0) * 64 + (b.toNat - 0x80)) * 64
      + (c.toNat - 0x80)) * 64 + (d.toNat - 0x80))) = [a, b, c, d] := by
  simp only [Json.contByte, Bool.and_eq_true, decide_eq_true_eq] at hc hd
  have hbounds : 0xF0 ≤ a.toNat ∧ a.toNat ≤ 0xF4 ∧ 0x80 ≤ b.toNat ∧ b.toNat ≤ 0xBF ∧
      (a.toNat = 0xF0 → 0x90 ≤ b.toNat) ∧ (a.toNat = 0xF4 → b.toNat ≤ 0x8F) := by
    split_ifs at hb
    all_goals simp only [Json.contByte, Bool.and_eq_true, decide_eq_true_eq] at hb; omega
  obtain ⟨hfirst, hlast, hlo, hhi, hover, hpast⟩ := hbounds
  have hval := val_ofNat (n := (((a.toNat - 0xF0) * 64 + (b.toNat - 0x80)) * 64
    + (c.toNat - 0x80)) * 64 + (d.toNat - 0x80)) (by unfold Nat.isValidChar; omega)
  unfold String.utf8EncodeChar
  generalize (Char.ofNat ((((a.toNat - 0xF0) * 64 + (b.toNat - 0x80)) * 64
    + (c.toNat - 0x80)) * 64 + (d.toNat - 0x80))).val.toNat = n at hval ⊢
  change (if n ≤ 0x7f then _ else if n ≤ 0x7ff then _ else if n ≤ 0xffff then _ else _) = _
  rw [if_neg (by omega), if_neg (by omega), if_neg (by omega)]
  show [UInt8.ofNat (n / 262144 % 0x08 + 0xf0), UInt8.ofNat (n / 4096 % 0x40 + 0x80),
    UInt8.ofNat (n / 64 % 0x40 + 0x80), UInt8.ofNat (n % 0x40 + 0x80)] = [a, b, c, d]
  rw [ofNat_eq (a := a) (by omega), ofNat_eq (a := b) (by omega), ofNat_eq (a := c) (by omega),
    ofNat_eq (a := d) (by omega)]

/-- A read character stands in front of what is read from the rest. -/
theorem scalar_eq_some {n : Nat} {rest : Option (List Char)} {l : List Char} :
    scalar n rest = some l ↔ ∃ cs, rest = some cs ∧ Char.ofNat n :: cs = l :=
  Option.map_eq_some_iff

/-- **What is read is what was written.** The induction is that of the reader, and in each of its
cases the scalar is encoded as the bytes it was read from. -/
theorem encode_scalars {s : Bytes} {l : List Char} (h : scalars s = some l) : encode l = s := by
  have hcons : ∀ (c : Char) (cs : List Char),
      encode (c :: cs) = String.utf8EncodeChar c ++ encode cs :=
    fun _ _ => List.flatMap_cons
  fun_induction scalars s generalizing l with
  | case1 =>
      obtain rfl := Option.some.inj h
      rfl
  | case2 a s hone ih =>
      obtain ⟨cs, hcs, rfl⟩ := scalar_eq_some.1 h
      rw [hcons, encode_one hone, ih hcs]
      rfl
  | case4 a hone b s htwo hb ih =>
      obtain ⟨cs, hcs, rfl⟩ := scalar_eq_some.1 h
      rw [Bool.and_eq_true, decide_eq_true_iff, decide_eq_true_iff] at htwo
      rw [hcons, encode_two htwo.1 htwo.2 hb, ih hcs]
      rfl
  | case7 a hone b htwo c s hthree hc ih =>
      obtain ⟨cs, hcs, rfl⟩ := scalar_eq_some.1 h
      rw [Bool.and_eq_true, decide_eq_true_iff, decide_eq_true_iff] at hthree
      rw [Bool.and_eq_true] at hc
      rw [hcons, encode_three hthree.1 hthree.2 hc.1 hc.2, ih hcs]
      rfl
  | case10 a hone b htwo c hthree d s hd ih =>
      obtain ⟨cs, hcs, rfl⟩ := scalar_eq_some.1 h
      rw [Bool.and_eq_true, Bool.and_eq_true] at hd
      rw [hcons, encode_four hd.1.1 hd.1.2 hd.2, ih hcs]
      rfl
  | case3 | case5 | case6 | case8 | case9 | case11 => cases h

/-- The bytes of ASCII in the text of a scalar are the scalar itself. -/
theorem ascii_of_mem_char {c : Char} {b : UInt8} (h : b ∈ String.utf8EncodeChar c)
    (hb : b.toNat < 0x80) : c.toNat = b.toNat := by
  have hval : c.toNat = c.val.toNat := rfl
  rw [hval]
  unfold String.utf8EncodeChar at h
  generalize c.val.toNat = n at h ⊢
  change b ∈ (if n ≤ 0x7f then [UInt8.ofNat n]
    else if n ≤ 0x7ff then [UInt8.ofNat (n / 64 % 0x20 + 0xc0), UInt8.ofNat (n % 0x40 + 0x80)]
    else if n ≤ 0xffff then [UInt8.ofNat (n / 4096 % 0x10 + 0xe0),
      UInt8.ofNat (n / 64 % 0x40 + 0x80), UInt8.ofNat (n % 0x40 + 0x80)]
    else [UInt8.ofNat (n / 262144 % 0x08 + 0xf0), UInt8.ofNat (n / 4096 % 0x40 + 0x80),
      UInt8.ofNat (n / 64 % 0x40 + 0x80), UInt8.ofNat (n % 0x40 + 0x80)]) at h
  have hlead : ∀ m, 0x80 ≤ m → m < 256 → b ≠ UInt8.ofNat m := by
    rintro m hlo hhi rfl
    rw [toNat_ofNat hhi] at hb
    omega
  split at h
  · rw [List.mem_singleton] at h
    subst h
    rw [toNat_ofNat (by omega)]
  · split_ifs at h
    all_goals
      simp only [List.mem_cons, List.not_mem_nil, or_false] at h
    · rcases h with h | h
      · exact absurd h (hlead _ (by omega) (by omega))
      · exact absurd h (hlead _ (by omega) (by omega))
    · rcases h with h | h | h
      · exact absurd h (hlead _ (by omega) (by omega))
      · exact absurd h (hlead _ (by omega) (by omega))
      · exact absurd h (hlead _ (by omega) (by omega))
    · rcases h with h | h | h | h
      · exact absurd h (hlead _ (by omega) (by omega))
      · exact absurd h (hlead _ (by omega) (by omega))
      · exact absurd h (hlead _ (by omega) (by omega))
      · exact absurd h (hlead _ (by omega) (by omega))

/-! ## Parts of a text -/

/-- Only the empty text is encoded as nothing. -/
theorem encode_eq_nil {l : List Char} : encode l = [] ↔ l = [] := by
  constructor
  · intro h
    have hread := scalars_encode l
    rw [h] at hread
    exact (Option.some.inj hread).symm
  · rintro rfl
    rfl

/-- Texts are encoded one after the other. -/
theorem encode_append (l m : List Char) : encode (l ++ m) = encode l ++ encode m :=
  List.flatMap_append

/-- The first character is encoded in front of the others. -/
theorem encode_cons (c : Char) (l : List Char) :
    encode (c :: l) = String.utf8EncodeChar c ++ encode l :=
  List.flatMap_cons

/-- An ASCII byte occurs in the encoding exactly when its character occurs. -/
theorem mem_encode {l : List Char} {a : UInt8} (h : a.toNat < 0x80) :
    a ∈ encode l ↔ Char.ofNat a.toNat ∈ l := by
  constructor
  · intro ha
    obtain ⟨c, hc, hac⟩ := List.mem_flatMap.1 ha
    rw [← ascii_of_mem_char hac h, Char.ofNat_toNat]
    exact hc
  · intro hc
    refine List.mem_flatMap.2 ⟨_, hc, ?_⟩
    rw [encode_one h]
    exact List.mem_singleton_self a

/-- A text comes apart at an ASCII byte as its scalars do. The induction is on the scalars: the byte
is either in the text of the first one, which is then this byte alone, or behind it. -/
theorem encode_split {a : UInt8} (h : a.toNat < 0x80) {l : List Char} {p q : Bytes}
    (hl : encode l = p ++ a :: q) :
    ∃ m r, l = m ++ Char.ofNat a.toNat :: r ∧ encode m = p ∧ encode r = q := by
  induction l generalizing p with
  | nil => cases p <;> cases hl
  | cons c l ih =>
      rw [encode_cons, List.append_eq_append_iff] at hl
      rcases hl with ⟨p', rfl, hrest⟩ | ⟨inside, hchar, hrest⟩
      · obtain ⟨m, r, rfl, rfl, rfl⟩ := ih hrest
        exact ⟨c :: m, r, rfl, List.flatMap_cons, rfl⟩
      · cases inside with
        | nil =>
            rw [List.append_nil] at hchar
            obtain ⟨m, r, rfl, hm, rfl⟩ := ih (p := []) hrest.symm
            refine ⟨c :: m, r, rfl, ?_, rfl⟩
            rw [← hchar]
            show String.utf8EncodeChar c ++ encode m = _
            rw [hm, List.append_nil]
        | cons b inside =>
            obtain ⟨rfl, hq⟩ := List.cons.inj hrest
            have hmem : a ∈ String.utf8EncodeChar c := by
              rw [hchar]
              exact List.mem_append_right _ List.mem_cons_self
            have hc : Char.ofNat a.toNat = c := by
              rw [← ascii_of_mem_char hmem h, Char.ofNat_toNat]
            rw [← hc, encode_one h] at hchar
            cases p with
            | nil =>
                obtain ⟨-, hinside⟩ := List.cons.inj hchar
                subst hinside
                exact ⟨[], l, by rw [hc]; rfl, rfl, hq.symm⟩
            | cons b p => cases p <;> cases hchar

end Utf8
