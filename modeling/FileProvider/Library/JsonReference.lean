import FileProvider.Library.Json

/-!
# A reference parser

A recursive-descent parser of the compact texts, which shows that a `JsonLibrary` exists and
gives one to compute with. A floating-point number is written as `r` and its bits, so that it
is told apart from an integer; a real library writes decimals. The fuel of the parser is the
length of its text, and `readValue_dump` is its correctness: it reads a dumped value back and
stops behind it.

The lemmas follow the parser: one for each token, with the text that follows it as a parameter, and
one for values, elements and members together.
-/

namespace JsonReference

open Bytes Json

/-- The text of a floating-point number. -/
def realText (x : Double) : Bytes := 114 :: decimal x.bits.toNat

/-! ## Tokens -/

def isDigit (b : UInt8) : Bool := 48 ≤ b.toNat && b.toNat ≤ 57

/-- The number at the front of a text. -/
def readNat (s : Bytes) : Nat × Bytes :=
  (Nat.ofDigitChars 10 ((s.takeWhile isDigit).map fun b => Char.ofNat b.toNat) 0,
    s.dropWhile isDigit)

/-- The text goes on with something other than a digit. -/
def Stops (rest : Bytes) : Prop := ∀ b ∈ rest.head?, isDigit b = false

/-- A printed number is read back, and what follows it is left. -/
theorem readNat_decimal (n : Nat) {rest : Bytes} (hrest : Stops rest) :
    readNat (decimal n ++ rest) = (n, rest) := by
  have hdigits : ∀ b ∈ decimal n, isDigit b = true := by
    intro b hb
    obtain ⟨h₁, h₂⟩ := digit_of_mem_decimal hb
    simp [isDigit, h₁, h₂]
  have htake : rest.takeWhile isDigit = [] := by
    cases rest with
    | nil => rfl
    | cons b rest => simp [hrest b (by simp)]
  have hdrop : rest.dropWhile isDigit = rest := by
    cases rest with
    | nil => rfl
    | cons b rest => simp [hrest b (by simp)]
  rw [readNat, List.takeWhile_append_of_pos hdigits, List.dropWhile_append_of_pos hdigits, htake,
    hdrop, List.append_nil, map_ofNat_decimal, Nat.ofDigitChars_toDigits (by decide) (by decide)]

/-- The value of a hexadecimal digit. -/
def hexValue (b : UInt8) : UInt8 := if b < 58 then b - 48 else b - 87

/-- The first byte of a string, and the text behind it. -/
def readChar : Bytes → Option (UInt8 × Bytes)
  | [] => none
  | b :: s =>
      if b ≠ 92 then some (b, s) else
        match s with
        | [] => none
        | c :: s =>
            if c = 98 then some (8, s)
            else if c = 116 then some (9, s)
            else if c = 110 then some (10, s)
            else if c = 102 then some (12, s)
            else if c = 114 then some (13, s)
            else if c = 117 then
              match s with
              | _ :: _ :: h :: l :: s => some (16 * hexValue h + hexValue l, s)
              | _ => none
            else some (c, s)

/-- The bytes of a string up to its closing quote. -/
def readString : Nat → Bytes → Option (Bytes × Bytes)
  | 0, _ => none
  | fuel + 1, s =>
      if s.head? = some 34 then some ([], s.tail) else do
        let (c, s) ← readChar s
        let (cs, s) ← readString fuel s
        pure (c :: cs, s)

/-- The control bytes are read back from their four digits, one by one. -/
theorem control_bytes : ∀ n : Fin 32,
    let b : UInt8 := n.val.toUInt8
    readChar (92 :: 117 :: 48 :: 48 :: hexByte b) = some (b, []) := by
  decide

/-- An escaped byte is read back, and does not end the string. -/
theorem readChar_escapeByte (b : UInt8) (rest : Bytes) :
    readChar (escapeByte b ++ rest) = some (b, rest) ∧ (escapeByte b ++ rest).head? ≠ some 34 := by
  unfold escapeByte
  split_ifs with h₁ h₂ h₃ h₄ h₅ h₆ h₇ h₈
  · subst h₁; exact ⟨rfl, by simp⟩
  · subst h₂; exact ⟨rfl, by simp⟩
  · subst h₃; exact ⟨rfl, by simp⟩
  · subst h₄; exact ⟨rfl, by simp⟩
  · subst h₅; exact ⟨rfl, by simp⟩
  · subst h₆; exact ⟨rfl, by simp⟩
  · subst h₇; exact ⟨rfl, by simp⟩
  · refine ⟨?_, by simp⟩
    have hcontrol := control_bytes ⟨b.toNat, by omega⟩
    simp only [Nat.toUInt8_eq, UInt8.ofNat_toNat] at hcontrol
    simp only [hexByte, readChar, ne_eq, not_true_eq_false, if_false] at hcontrol ⊢
    simpa using hcontrol
  · refine ⟨?_, by simpa using h₆⟩
    simp [readChar, h₇]

/-- An escaped byte is not empty. -/
theorem length_escapeByte_pos (b : UInt8) : 1 ≤ (escapeByte b).length := by
  unfold escapeByte
  split_ifs <;> simp

/-- An escaped text is read back up to its quote, by induction on its bytes. -/
theorem readString_escape (s : Bytes) {fuel : Nat} {rest : Bytes}
    (hfuel : (s.flatMap escapeByte).length < fuel) :
    readString fuel (s.flatMap escapeByte ++ 34 :: rest) = some (s, rest) := by
  induction s generalizing fuel with
  | nil =>
      obtain ⟨fuel, rfl⟩ := Nat.exists_eq_succ_of_ne_zero (by omega : fuel ≠ 0)
      rfl
  | cons b s ih =>
      obtain ⟨fuel, rfl⟩ := Nat.exists_eq_succ_of_ne_zero (by omega : fuel ≠ 0)
      have hpos := length_escapeByte_pos b
      rw [List.flatMap_cons, List.length_append] at hfuel
      rw [List.flatMap_cons, List.append_assoc, readString]
      obtain ⟨hread, hhead⟩ := readChar_escapeByte b (s.flatMap escapeByte ++ 34 :: rest)
      rw [if_neg hhead, hread]
      simp only [Option.bind_eq_bind, Option.bind_some]
      rw [ih (by omega)]
      rfl

/-! ## Values -/

mutual

/-- The value at the front of a text. -/
def readValue : Nat → Bytes → Option (Json × Bytes)
  | 0, _ => none
  | _ + 1, [] => none
  | fuel + 1, b :: s =>
      if b = 110 then some (.null, s.drop 3)
      else if b = 116 then some (.bool true, s.drop 3)
      else if b = 102 then some (.bool false, s.drop 4)
      else if b = 114 then
        some (.real ⟨UInt64.ofNat (readNat s).1⟩, (readNat s).2)
      else if b = 45 then some (.int (-(readNat s).1), (readNat s).2)
      else if b = 34 then (readString fuel s).map fun r => (.str r.1, r.2)
      else if b = 91 then
        if s.head? = some 93 then some (.arr [], s.tail) else do
          let (x, s) ← readValue fuel s
          let (xs, s) ← readElements fuel s
          pure (.arr (x :: xs), s)
      else if b = 123 then
        if s.head? = some 125 then some (.obj [], s.tail) else do
          let (m, s) ← readMember fuel s
          let (ms, s) ← readMembers fuel s
          pure (.obj (m :: ms), s)
      else some (.int (readNat (b :: s)).1, (readNat (b :: s)).2)

/-- The elements after the first, up to the closing bracket. -/
def readElements : Nat → Bytes → Option (List Json × Bytes)
  | 0, _ => none
  | fuel + 1, s =>
      if s.head? = some 93 then some ([], s.tail) else do
        let (x, s) ← readValue fuel s.tail
        let (xs, s) ← readElements fuel s
        pure (x :: xs, s)

/-- A member: its key and its value. -/
def readMember : Nat → Bytes → Option ((Bytes × Json) × Bytes)
  | 0, _ => none
  | fuel + 1, s => do
      let (k, s) ← readString fuel s.tail
      let (v, s) ← readValue fuel s.tail
      pure ((k, v), s)

/-- The members after the first, up to the closing brace. -/
def readMembers : Nat → Bytes → Option (List (Bytes × Json) × Bytes)
  | 0, _ => none
  | fuel + 1, s =>
      if s.head? = some 125 then some ([], s.tail) else do
        let (m, s) ← readMember fuel s.tail
        let (ms, s) ← readMembers fuel s
        pure (m :: ms, s)

end

/-- A string is printed as its escaped bytes between quotes. -/
theorem dumpString_eq_some {s t : Bytes} :
    dumpString s = some t → t = 34 :: s.flatMap escapeByte ++ [34] := by
  unfold dumpString
  split
  · intro h
    exact (Option.some.inj h).symm
  · intro h
    cases h

/-- Where the elements of an array are printed, no digit begins. -/
theorem dumpElements_stops {l : List Json} {t rest : Bytes}
    (h : dumpElements realText l = some t) : Stops (t ++ rest) := by
  cases l with
  | nil =>
      obtain rfl := Option.some.inj h
      intro b hb
      obtain rfl : 93 = b := by simpa using hb
      rfl
  | cons x xs =>
      simp only [dumpElements, Option.bind_eq_bind, Option.bind_eq_some_iff, Option.pure_def,
        Option.some.injEq] at h
      obtain ⟨_, -, _, -, rfl⟩ := h
      intro b hb
      obtain rfl : 44 = b := by simpa using hb
      rfl

/-- Nor where the members of an object are. -/
theorem dumpMembers_stops {l : List (Bytes × Json)} {t rest : Bytes}
    (h : dumpMembers realText l = some t) : Stops (t ++ rest) := by
  cases l with
  | nil =>
      obtain rfl := Option.some.inj h
      intro b hb
      obtain rfl : 125 = b := by simpa using hb
      rfl
  | cons x xs =>
      simp only [dumpMembers, Option.bind_eq_bind, Option.bind_eq_some_iff, Option.pure_def,
        Option.some.injEq] at h
      obtain ⟨_, -, _, -, _, -, rfl⟩ := h
      intro b hb
      obtain rfl : 44 = b := by simpa using hb
      rfl

/-- A printed number begins with a digit. -/
theorem decimal_head (n : Nat) (rest : Bytes) : ∃ b s, decimal n ++ rest = b :: s ∧
    isDigit b = true := by
  obtain ⟨b, s, hs⟩ := List.exists_cons_of_ne_nil (decimal_ne_nil n)
  refine ⟨b, s ++ rest, by rw [hs]; rfl, ?_⟩
  obtain ⟨h₁, h₂⟩ := digit_of_mem_decimal (n := n) (b := b) (by rw [hs]; simp)
  simp [isDigit, h₁, h₂]

/-- No value starts with a closing bracket. The reader tells the end of an array by this bracket, so
that this is what an array with elements needs. -/
theorem dump_head {j : Json} {t rest : Bytes} (h : dump realText j = some t) :
    (t ++ rest).head? ≠ some 93 := by
  cases j with
  | null => obtain rfl := Option.some.inj h; simp [ascii]
  | bool b => cases b <;> (obtain rfl := Option.some.inj h; simp [ascii])
  | int n =>
      cases n with
      | ofNat n =>
          obtain rfl : decimal n = t := Option.some.inj h
          obtain ⟨b, s, hs, hb⟩ := decimal_head n rest
          rw [hs, List.head?_cons, ne_eq, Option.some.injEq]
          rintro rfl
          cases hb
      | negSucc n =>
          obtain rfl : 45 :: decimal (n + 1) = t := Option.some.inj h
          simp
  | real x =>
      obtain rfl : realText x = t := Option.some.inj h
      simp [realText]
  | str s =>
      obtain rfl := dumpString_eq_some h
      simp
  | arr l =>
      cases l with
      | nil => obtain rfl := Option.some.inj h; simp [ascii]
      | cons x xs =>
          simp only [dump, Option.bind_eq_bind, Option.bind_eq_some_iff, Option.pure_def,
            Option.some.injEq] at h
          obtain ⟨_, -, _, -, rfl⟩ := h
          simp
  | obj l =>
      cases l with
      | nil => obtain rfl := Option.some.inj h; simp [ascii]
      | cons m ms =>
          simp only [dump, Option.bind_eq_bind, Option.bind_eq_some_iff, Option.pure_def,
            Option.some.injEq] at h
          obtain ⟨_, -, _, -, _, -, rfl⟩ := h
          simp

/-- A printed member is read back, where its value is. -/
theorem readMember_dump {key name value rest : Bytes} {v : Json} {fuel : Nat}
    (hname : dumpString key = some name) (hfuel : name.length + value.length < fuel)
    (hvalue : ∀ fuel, value.length < fuel → readValue fuel (value ++ rest) = some (v, rest)) :
    readMember fuel (name ++ 58 :: value ++ rest) = some ((key, v), rest) := by
  obtain ⟨fuel, rfl⟩ := Nat.exists_eq_succ_of_ne_zero (by omega : fuel ≠ 0)
  obtain rfl := dumpString_eq_some hname
  simp only [List.cons_append, List.length_cons, List.length_append, List.length_nil] at hfuel
  simp only [readMember, List.cons_append, List.append_assoc, List.nil_append, List.tail_cons]
  rw [readString_escape key (by omega)]
  simp only [Option.bind_eq_bind, Option.bind_some, List.tail_cons]
  rw [hvalue fuel (by omega)]
  rfl

mutual

/-- **The parser reads a dumped value back.** It is proved together with the same for elements and
members, by recursion on the value; the fuel is the length of the text, and what follows must not
continue a number. -/
theorem readValue_dump : ∀ (j : Json) {t rest : Bytes} {fuel : Nat},
    dump realText j = some t → t.length < fuel → Stops rest →
      readValue fuel (t ++ rest) = some (j, rest)
  | _, _, _, 0, _, h, _ => absurd h (Nat.not_lt_zero _)
  | .null, _, _, _ + 1, h, _, _ => by obtain rfl := Option.some.inj h; rfl
  | .bool true, _, _, _ + 1, h, _, _ => by obtain rfl := Option.some.inj h; rfl
  | .bool false, _, _, _ + 1, h, _, _ => by obtain rfl := Option.some.inj h; rfl
  | .int (.ofNat n), t, rest, fuel + 1, h, _, hrest => by
      obtain rfl : decimal n = t := Option.some.inj h
      have hread := readNat_decimal n hrest
      obtain ⟨b, s, hs, hb⟩ := decimal_head n rest
      rw [hs] at hread ⊢
      have hne : ∀ c : UInt8, isDigit c = false → b ≠ c := by
        rintro c hc rfl
        rw [hb] at hc
        cases hc
      simp only [readValue, hne 110 rfl, hne 116 rfl, hne 102 rfl, hne 114 rfl, hne 45 rfl,
        hne 34 rfl, hne 91 rfl, hne 123 rfl, if_false, hread]
      rfl
  | .int (.negSucc n), t, rest, fuel + 1, h, _, hrest => by
      obtain rfl : 45 :: decimal (n + 1) = t := Option.some.inj h
      have hread := readNat_decimal (n + 1) hrest
      simp only [List.cons_append, readValue, hread]
      rfl
  | .real x, t, rest, fuel + 1, h, _, hrest => by
      obtain rfl : realText x = t := Option.some.inj h
      have hread := readNat_decimal x.bits.toNat hrest
      simp only [realText, List.cons_append, readValue, hread, UInt64.ofNat_toNat]
      rfl
  | .str s, t, rest, fuel + 1, h, hfuel, _ => by
      obtain rfl := dumpString_eq_some h
      simp only [List.cons_append, List.length_cons, List.length_append, List.length_nil] at hfuel
      simp only [List.cons_append, List.append_assoc, readValue, List.nil_append]
      rw [readString_escape s (by omega)]
      rfl
  | .arr [], _, _, _ + 1, h, _, _ => by obtain rfl := Option.some.inj h; rfl
  | .arr (x :: xs), t, rest, fuel + 1, h, hfuel, _ => by
      simp only [dump, Option.bind_eq_bind, Option.bind_eq_some_iff, Option.pure_def,
        Option.some.injEq] at h
      obtain ⟨first, hfirst, more, hmore, rfl⟩ := h
      simp only [List.cons_append, List.length_cons, List.length_append] at hfuel
      have hx : readValue fuel (first ++ (more ++ rest)) = some (x, more ++ rest) :=
        readValue_dump x hfirst (by omega) (dumpElements_stops hmore)
      have hxs : readElements fuel (more ++ rest) = some (xs, rest) :=
        readElements_dump xs hmore (by omega)
      have hhead : (first ++ (more ++ rest)).head? ≠ some 93 := dump_head hfirst
      simp only [List.cons_append, List.append_assoc, readValue, ↓reduceIte, hhead, hx, hxs,
        Option.bind_eq_bind, Option.bind_some, Option.pure_def]
      rfl
  | .obj [], _, _, _ + 1, h, _, _ => by obtain rfl := Option.some.inj h; rfl
  | .obj ((k, v) :: ms), t, rest, fuel + 1, h, hfuel, _ => by
      simp only [dump, Option.bind_eq_bind, Option.bind_eq_some_iff, Option.pure_def,
        Option.some.injEq] at h
      obtain ⟨name, hname, value, hvalue, more, hmore, rfl⟩ := h
      simp only [List.cons_append, List.append_assoc, List.length_cons, List.length_append]
        at hfuel
      have hm : readMember fuel (name ++ 58 :: value ++ (more ++ rest))
          = some ((k, v), more ++ rest) :=
        readMember_dump hname (by omega)
          fun fuel' hlt => readValue_dump v hvalue hlt (dumpMembers_stops hmore)
      have hms : readMembers fuel (more ++ rest) = some (ms, rest) :=
        readMembers_dump ms hmore (by omega)
      have hhead : (name ++ 58 :: (value ++ (more ++ rest))).head? ≠ some 125 := by
        obtain rfl := dumpString_eq_some hname
        simp
      simp only [List.cons_append, List.append_assoc] at hm
      simp only [List.cons_append, List.append_assoc, readValue, ↓reduceIte, hhead, hm, hms,
        Option.bind_eq_bind, Option.bind_some, Option.pure_def]
      rfl

/-- Printed elements are read back, by induction on them together with the values. -/
theorem readElements_dump : ∀ (l : List Json) {t rest : Bytes} {fuel : Nat},
    dumpElements realText l = some t → t.length < fuel →
      readElements fuel (t ++ rest) = some (l, rest)
  | _, _, _, 0, _, h => absurd h (Nat.not_lt_zero _)
  | [], _, _, _ + 1, h, _ => by obtain rfl := Option.some.inj h; rfl
  | x :: xs, t, rest, fuel + 1, h, hfuel => by
      simp only [dumpElements, Option.bind_eq_bind, Option.bind_eq_some_iff, Option.pure_def,
        Option.some.injEq] at h
      obtain ⟨first, hfirst, more, hmore, rfl⟩ := h
      simp only [List.cons_append, List.length_cons, List.length_append] at hfuel
      have hx : readValue fuel (first ++ (more ++ rest)) = some (x, more ++ rest) :=
        readValue_dump x hfirst (by omega) (dumpElements_stops hmore)
      have hxs : readElements fuel (more ++ rest) = some (xs, rest) :=
        readElements_dump xs hmore (by omega)
      simp [readElements, List.append_assoc, hx, hxs]

/-- Printed members are read back, by the same induction. -/
theorem readMembers_dump : ∀ (l : List (Bytes × Json)) {t rest : Bytes} {fuel : Nat},
    dumpMembers realText l = some t → t.length < fuel →
      readMembers fuel (t ++ rest) = some (l, rest)
  | _, _, _, 0, _, h => absurd h (Nat.not_lt_zero _)
  | [], _, _, _ + 1, h, _ => by obtain rfl := Option.some.inj h; rfl
  | (k, v) :: ms, t, rest, fuel + 1, h, hfuel => by
      simp only [dumpMembers, Option.bind_eq_bind, Option.bind_eq_some_iff, Option.pure_def,
        Option.some.injEq] at h
      obtain ⟨name, hname, value, hvalue, more, hmore, rfl⟩ := h
      simp only [List.cons_append, List.append_assoc, List.length_cons, List.length_append]
        at hfuel
      have hm : readMember fuel (name ++ 58 :: value ++ (more ++ rest))
          = some ((k, v), more ++ rest) :=
        readMember_dump hname (by omega)
          fun fuel' hlt => readValue_dump v hvalue hlt (dumpMembers_stops hmore)
      have hms : readMembers fuel (more ++ rest) = some (ms, rest) :=
        readMembers_dump ms hmore (by omega)
      simp only [List.cons_append, List.append_assoc] at hm
      simp [readMembers, List.append_assoc, hm, hms]

end

/-- The value of a text that holds nothing else. -/
def parse (t : Bytes) : Option Json :=
  match readValue (t.length + 1) t with
  | some (j, []) => some j
  | _ => none

/-- **The parser reads back what is printed.** Every value that has a text is parsed from it. The
text with nothing behind it is one of the texts that the reader reads back, and its own length is
enough fuel. -/
theorem parse_dump {j : Json} {t : Bytes} (h : dump realText j = some t) : parse t = some j := by
  have hread : readValue (t.length + 1) (t ++ []) = some (j, []) :=
    readValue_dump j h (Nat.lt_succ_self _) (by simp [Stops])
  rw [List.append_nil] at hread
  rw [parse, hread]

/-- The library of the reference parser. -/
def library : JsonLibrary where
  realText := realText
  parse := parse
  parse_dump _ _ _ h := parse_dump h

end JsonReference
