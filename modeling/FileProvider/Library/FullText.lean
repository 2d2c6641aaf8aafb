import FileProvider.Library.Bytes
import Mathlib.Data.List.TakeWhile

/-!
# Full-text queries

The query language of an FTS5 table: the tokens of a query text, and the grammar by which tokens
are read as a query. The grammar is taken as it is documented, without precedences, so that what
holds for all of its readings holds for the one a parser chooses. `reads_conjunction` says that a
conjunction of quoted words, each the beginning of what it matches, has no other reading.

The module goes from the bytes to the meaning: `lex` is the scanner, with strings in quotes and
their doubled quotes; `Reads` is the grammar, as a relation between tokens and queries; the leaves
of a reading are compared with those of the tokens, which leaves one possibility for a conjunction.
What a phrase finds in a row is not part of the module.
-/

namespace FullText

open Bytes

/-! ## Tokens -/

inductive Token where
  | string (s : Bytes)
  | star | plus | colon | comma | minus | caret
  | lparen | rparen | lbrace | rbrace
  | and | or | not
deriving DecidableEq

/-- The characters that separate tokens. -/
def isSpace (b : UInt8) : Bool := b ∈ [32, 9, 10, 13]

/-- The characters of a string without quotes: letters, digits, the underscore, the substitute
character and everything past ASCII. -/
def isBareword (b : UInt8) : Bool :=
  128 ≤ b.toNat || (48 ≤ b.toNat && b.toNat ≤ 57) || (65 ≤ b.toNat && b.toNat ≤ 90)
    || (97 ≤ b.toNat && b.toNat ≤ 122) || b = 95 || b = 26

/-- The token of a character that is one by itself. -/
def symbol (b : UInt8) : Option Token :=
  if b = 40 then some .lparen
  else if b = 41 then some .rparen
  else if b = 123 then some .lbrace
  else if b = 125 then some .rbrace
  else if b = 58 then some .colon
  else if b = 44 then some .comma
  else if b = 43 then some .plus
  else if b = 42 then some .star
  else if b = 45 then some .minus
  else if b = 94 then some .caret
  else none

/-- A string without quotes, of which three are operators. -/
def word (s : Bytes) : Token :=
  if s = ascii "AND" then .and
  else if s = ascii "OR" then .or
  else if s = ascii "NOT" then .not
  else .string s

/-- Where the scanner stands: between tokens, in a string without quotes, in a quoted string, or
behind a quote that ends a quoted string unless another follows. -/
inductive Scan where
  | between
  | bareword (s : Bytes)
  | quoted (s : Bytes)
  | closing (s : Bytes)

/-- What a character between tokens begins. -/
def beginToken (b : UInt8) : Option (List Token × Scan) :=
  if isSpace b then some ([], .between)
  else if b = 34 then some ([], .quoted [])
  else if isBareword b then some ([], .bareword [b])
  else (symbol b).map fun t => ([t], .between)

/-- The tokens of a text. A quoted string must be closed. -/
def scan : Scan → Bytes → Option (List Token)
  | .between, [] => some []
  | .bareword s, [] => some [word s]
  | .quoted _, [] => none
  | .closing s, [] => some [.string s]
  | .between, b :: rest => do
      let (ts, st) ← beginToken b
      let more ← scan st rest
      pure (ts ++ more)
  | .bareword s, b :: rest =>
      if isBareword b then scan (.bareword (s ++ [b])) rest else do
        let (ts, st) ← beginToken b
        let more ← scan st rest
        pure (word s :: ts ++ more)
  | .quoted s, b :: rest =>
      if b = 34 then scan (.closing s) rest else scan (.quoted (s ++ [b])) rest
  | .closing s, b :: rest =>
      if b = 34 then scan (.quoted (s ++ [34])) rest else do
        let (ts, st) ← beginToken b
        let more ← scan st rest
        pure (.string s :: ts ++ more)

/-- The tokens of a query text, which ends at a NUL. -/
def lex (text : Bytes) : Option (List Token) := scan .between (text.takeWhile (· ≠ 0))

/-! ## Queries -/

/-- The strings of a phrase, each with whether it is the beginning of what it matches. -/
abbrev Phrase := List (Bytes × Bool)

inductive Query where
  | phrase (initial : Bool) (p : Phrase)
  | near (phrases : List Phrase) (distance : Option Bytes)
  | columns (exclude : Bool) (names : List Bytes) (q : Query)
  | and (p q : Query)
  | or (p q : Query)
  | not (p q : Query)

inductive ReadsPhrase : List Token → Phrase → Prop where
  | string (s : Bytes) : ReadsPhrase [.string s] [(s, false)]
  | begins (s : Bytes) : ReadsPhrase [.string s, .star] [(s, true)]
  | plus {t u : List Token} {p q : Phrase} : ReadsPhrase t p → ReadsPhrase u q →
      ReadsPhrase (t ++ .plus :: u) (p ++ q)

inductive ReadsPhrases : List Token → List Phrase → Prop where
  | one {t : List Token} {p : Phrase} : ReadsPhrase t p → ReadsPhrases t [p]
  | more {t u : List Token} {p : Phrase} {ps : List Phrase} : ReadsPhrase t p →
      ReadsPhrases u ps → ReadsPhrases (t ++ u) (p :: ps)

inductive ReadsColumns : List Token → Bool → List Bytes → Prop where
  | one (s : Bytes) : ReadsColumns [.string s] false [s]
  | list (names : List Bytes) :
      ReadsColumns (.lbrace :: names.map .string ++ [.rbrace]) false names
  | exclude {t : List Token} {names : List Bytes} : ReadsColumns t false names →
      ReadsColumns (.minus :: t) true names

/-- The readings of some tokens as a query. Queries that only stand side by side are meant
together. -/
inductive Reads : List Token → Query → Prop where
  | phrase {t : List Token} {p : Phrase} : ReadsPhrase t p → Reads t (.phrase false p)
  | initial {t : List Token} {p : Phrase} : ReadsPhrase t p → Reads (.caret :: t) (.phrase true p)
  | near {t : List Token} {ps : List Phrase} : ReadsPhrases t ps →
      Reads (.string (ascii "NEAR") :: .lparen :: t ++ [.rparen]) (.near ps none)
  | nearWithin {t : List Token} {ps : List Phrase} (n : Bytes) : ReadsPhrases t ps →
      Reads (.string (ascii "NEAR") :: .lparen :: t ++ [.comma, .string n, .rparen])
        (.near ps (some n))
  | columns {t u : List Token} {exclude : Bool} {names : List Bytes} {q : Query} :
      ReadsColumns t exclude names → Reads u q → Reads (t ++ .colon :: u) (.columns exclude names q)
  | group {t : List Token} {q : Query} : Reads t q → Reads (.lparen :: t ++ [.rparen]) q
  | and {t u : List Token} {p q : Query} : Reads t p → Reads u q → Reads (t ++ .and :: u) (.and p q)
  | or {t u : List Token} {p q : Query} : Reads t p → Reads u q → Reads (t ++ .or :: u) (.or p q)
  | not {t u : List Token} {p q : Query} : Reads t p → Reads u q → Reads (t ++ .not :: u) (.not p q)
  | juxtaposed {t u : List Token} {p q : Query} : Reads t p → Reads u q →
      Reads (t ++ u) (.and p q)

/-- The queries that a query demands together. -/
def Query.conjuncts : Query → List Query
  | .and p q => p.conjuncts ++ q.conjuncts
  | q => [q]

/-- The query for what begins with a word. -/
def begins (s : Bytes) : Query := .phrase false [(s, true)]

/-! ## Quoted words -/

/-- A quoted word: a quote in it is doubled. -/
def doubled (b : UInt8) : Bytes := if b = 34 then [34, 34] else [b]

/-- The text of a word in quotes, as the beginning of what it matches. -/
def quoted (s : Bytes) : Bytes := 34 :: s.flatMap doubled ++ [34, 42]

/-- The text of the conjunction of some words. -/
def conjunction : List Bytes → Bytes
  | [] => []
  | [w] => quoted w
  | w :: v :: ws => quoted w ++ (ascii " AND " ++ conjunction (v :: ws))

/-- The tokens of the conjunction of some words. -/
def conjunctionTokens : List Bytes → List Token
  | [] => []
  | [w] => [.string w, .star]
  | w :: v :: ws => .string w :: .star :: .and :: conjunctionTokens (v :: ws)

/-- Within quotes a text is scanned up to its quote, with doubled quotes read as one. -/
theorem scan_quoted (s acc rest : Bytes) :
    scan (.quoted acc) (s.flatMap doubled ++ 34 :: rest) = scan (.closing (acc ++ s)) rest := by
  induction s generalizing acc with
  | nil =>
      rw [List.flatMap_nil, List.nil_append, List.append_nil, scan]
      rfl
  | cons b s ih =>
      have hacc : acc ++ b :: s = acc ++ [b] ++ s := by simp
      rw [List.flatMap_cons, List.append_assoc, hacc, ← ih]
      by_cases hb : b = 34
      · subst hb
        rfl
      · rw [doubled, if_neg hb, List.singleton_append, scan, if_neg hb]

/-- A quoted word is read as its bytes, whatever they are. -/
theorem scan_word (s rest : Bytes) :
    scan .between (quoted s ++ rest) = (scan .between rest).map fun ts =>
      .string s :: .star :: ts := by
  have hopen : ∀ r : Bytes, scan .between (34 :: r) = scan (.quoted []) r := by
    intro r
    rw [scan]
    cases hr : scan (.quoted []) r with
    | none => simp [beginToken, isSpace, hr]
    | some ts => simp [beginToken, isSpace, hr]
  have hclose : scan (.closing s) (42 :: rest) = (scan .between rest).map fun ts =>
      .string s :: .star :: ts := by
    rw [scan]
    cases hr : scan .between rest with
    | none => simp [beginToken, isSpace, isBareword, symbol, hr]
    | some ts => simp [beginToken, isSpace, isBareword, symbol, hr]
  have htext : quoted s ++ rest = 34 :: (s.flatMap doubled ++ 34 :: 42 :: rest) := by simp [quoted]
  rw [htext, hopen, scan_quoted, List.nil_append, hclose]

/-- Between two strings `AND` is scanned as the operator. -/
theorem scan_and (rest : Bytes) :
    scan .between (ascii " AND " ++ rest) = (scan .between rest).map fun ts => .and :: ts := by
  have htext : ascii " AND " = [32, 65, 78, 68, 32] := by decide
  have hword : word [65, 78, 68] = .and := by decide
  rw [htext]
  cases hr : scan .between rest with
  | none => simp [scan, beginToken, isSpace, isBareword, hr]
  | some ts => simp [scan, beginToken, isSpace, isBareword, hr, hword]

/-- A conjunction is scanned as its tokens. -/
theorem scan_conjunction (ws : List Bytes) :
    scan .between (conjunction ws) = some (conjunctionTokens ws) := by
  induction ws with
  | nil => rfl
  | cons w ws ih =>
      cases ws with
      | nil =>
          have hword := scan_word w []
          rw [List.append_nil] at hword
          rw [conjunction, hword]
          rfl
      | cons v ws => rw [conjunction, scan_word, scan_and, ih]; rfl

/-- Without a zero byte in the words there is none in the conjunction. -/
theorem conjunction_nul {ws : List Bytes} (h : ∀ w ∈ ws, (0 : UInt8) ∉ w) :
    (0 : UInt8) ∉ conjunction ws := by
  have hword : ∀ w : Bytes, (0 : UInt8) ∉ w → (0 : UInt8) ∉ quoted w := by
    intro w hw hmem
    simp only [quoted, List.mem_cons, List.mem_append, List.mem_flatMap, List.cons_append,
      List.not_mem_nil, or_false] at hmem
    rcases hmem with hmem | ⟨b, hb, hmem⟩ | hmem | hmem
    · exact absurd hmem (by decide)
    · unfold doubled at hmem
      split at hmem
      · exact absurd hmem (by decide)
      · rw [List.mem_singleton.1 hmem] at hw
        exact hw hb
    · exact absurd hmem (by decide)
    · exact absurd hmem (by decide)
  induction ws with
  | nil => exact List.not_mem_nil
  | cons w ws ih =>
      have hfirst := hword w (h w List.mem_cons_self)
      cases ws with
      | nil => exact hfirst
      | cons v ws =>
          have hrest := ih fun x hx => h x (List.mem_cons_of_mem _ hx)
          rw [conjunction, List.mem_append, List.mem_append, not_or, not_or]
          exact ⟨hfirst, by decide, hrest⟩

/-- **The text of a conjunction has the tokens of the conjunction.** As no byte is zero the reader
goes to the end, and a quoted word is one token whatever bytes it has. -/
theorem lex_conjunction {ws : List Bytes} (h : ∀ w ∈ ws, (0 : UInt8) ∉ w) :
    lex (conjunction ws) = some (conjunctionTokens ws) := by
  have hall : (conjunction ws).takeWhile (· ≠ 0) = conjunction ws := by
    rw [List.takeWhile_eq_self_iff]
    intro b hb
    refine decide_eq_true fun h0 => ?_
    subst h0
    exact conjunction_nul h hb
  rw [lex, hall]
  exact scan_conjunction ws

/-! ## The readings of a conjunction -/

/-- The tokens a conjunction consists of. -/
def Token.Plain : Token → Prop
  | .string _ | .star | .and => True
  | _ => False

/-- The words of plain tokens, each with a star behind it or not. -/
def leaves : List Token → List Query
  | .string s :: .star :: ts => .phrase false [(s, true)] :: leaves ts
  | .string s :: ts => .phrase false [(s, false)] :: leaves ts
  | _ :: ts => leaves ts
  | [] => []

/-- A string that no star follows is a phrase of its own. -/
theorem leaves_string {s : Bytes} {u : List Token} (hu : u.head? ≠ some .star) :
    leaves (.string s :: u) = .phrase false [(s, false)] :: leaves u := by
  cases u with
  | nil => rfl
  | cons a u =>
      cases a with
      | star => exact absurd rfl hu
      | string _ | plus | colon | comma | minus | caret | lparen | rparen | lbrace | rbrace | and
      | or | not => rfl

/-- A star only belongs to what stands before it. -/
theorem leaves_append {t u : List Token} (hu : u.head? ≠ some .star) :
    leaves (t ++ u) = leaves t ++ leaves u := by
  induction t using leaves.induct with
  | case1 s ts ih =>
      simp only [List.cons_append, leaves, ih]
  | case2 s ts hne ih =>
      have hts : ts.head? ≠ some .star := by
        intro h
        obtain ⟨rest, rfl⟩ := List.head?_eq_some_iff.1 h
        exact hne rest rfl
      have hall : (ts ++ u).head? ≠ some .star := by
        cases ts with
        | nil => exact hu
        | cons a ts => exact hts
      rw [List.cons_append, leaves_string hall, leaves_string hts, ih, List.cons_append]
  | case3 a ts hstar hstring ih =>
      cases a with
      | string s => exact absurd rfl (hstring s)
      | star | plus | colon | comma | minus | caret | lparen | rparen | lbrace | rbrace | and | or
      | not => exact ih
  | case4 => rfl

/-- A phrase begins with a token other than a star. -/
theorem ReadsPhrase.head {t : List Token} {p : Phrase} (h : ReadsPhrase t p) :
    t ≠ [] ∧ t.head? ≠ some .star := by
  induction h with
  | string s => exact ⟨List.cons_ne_nil _ _, by simp⟩
  | begins s => exact ⟨List.cons_ne_nil _ _, by simp⟩
  | @plus t u p q _ _ ih _ =>
      cases t with
      | nil => exact absurd rfl ih.1
      | cons a t => exact ⟨List.cons_ne_nil _ _, ih.2⟩

/-- No query begins with a star. It is proved together with the fact that a query has at least one
token, by induction on how it is read. -/
theorem Reads.head {t : List Token} {q : Query} (h : Reads t q) :
    t ≠ [] ∧ t.head? ≠ some .star := by
  have happend : ∀ {t u : List Token}, t ≠ [] ∧ t.head? ≠ some .star →
      t ++ u ≠ [] ∧ (t ++ u).head? ≠ some .star := by
    intro t u h
    cases t with
    | nil => exact absurd rfl h.1
    | cons a t => exact ⟨List.cons_ne_nil _ _, h.2⟩
  induction h with
  | phrase h => exact h.head
  | initial _ => exact ⟨List.cons_ne_nil _ _, by simp⟩
  | near _ => exact ⟨List.cons_ne_nil _ _, by simp⟩
  | nearWithin _ _ => exact ⟨List.cons_ne_nil _ _, by simp⟩
  | columns h _ _ =>
      refine happend ?_
      cases h with
      | one s => exact ⟨List.cons_ne_nil _ _, by simp⟩
      | list names => exact ⟨List.cons_ne_nil _ _, by simp⟩
      | exclude _ => exact ⟨List.cons_ne_nil _ _, by simp⟩
  | group _ _ => exact ⟨List.cons_ne_nil _ _, by simp⟩
  | and _ _ ih _ => exact happend ih
  | or _ _ ih _ => exact happend ih
  | not _ _ ih _ => exact happend ih
  | juxtaposed _ _ ih _ => exact happend ih

/-- A phrase of plain tokens is one leaf. -/
theorem ReadsPhrase.leaves_eq {t : List Token} {p : Phrase} (h : ReadsPhrase t p)
    (hplain : ∀ a ∈ t, a.Plain) : leaves t = [.phrase false p] := by
  cases h with
  | string s => rfl
  | begins s => rfl
  | plus _ _ => exact (hplain .plus (by simp)).elim

/-- **Plain tokens are only read as a conjunction of their words.** The rules that are left for
plain tokens are the phrase and the two conjunctions, so that the induction never meets an operator.
-/
theorem Reads.conjuncts_eq {t : List Token} {q : Query} (h : Reads t q)
    (hplain : ∀ a ∈ t, a.Plain) : q.conjuncts = leaves t := by
  induction h with
  | phrase h => exact (h.leaves_eq hplain).symm
  | initial _ => exact (hplain .caret (by simp)).elim
  | near _ => exact (hplain .lparen (by simp)).elim
  | nearWithin _ _ => exact (hplain .lparen (by simp)).elim
  | columns _ _ _ => exact (hplain .colon (by simp)).elim
  | group _ _ => exact (hplain .lparen (by simp)).elim
  | or _ _ _ _ => exact (hplain .or (by simp)).elim
  | not _ _ _ _ => exact (hplain .not (by simp)).elim
  | @and t u p q _ _ ih ih' =>
      have hu : (Token.and :: u).head? ≠ some .star := by simp
      rw [leaves_append hu, Query.conjuncts, ih fun a ha => hplain a (by simp [ha]),
        ih' fun a ha => hplain a (by simp [ha])]
      rfl
  | @juxtaposed t u p q _ hu ih ih' =>
      rw [leaves_append hu.head.2, Query.conjuncts, ih fun a ha => hplain a (by simp [ha]),
        ih' fun a ha => hplain a (by simp [ha])]

/-- The tokens of a conjunction are plain. -/
theorem conjunctionTokens_plain (ws : List Bytes) : ∀ a ∈ conjunctionTokens ws, a.Plain := by
  induction ws with
  | nil => exact fun a ha => absurd ha List.not_mem_nil
  | cons w ws ih =>
      cases ws with
      | nil =>
          intro a ha
          simp only [conjunctionTokens, List.mem_cons, List.not_mem_nil, or_false] at ha
          rcases ha with rfl | rfl
          · trivial
          · trivial
      | cons v ws =>
          intro a ha
          simp only [conjunctionTokens, List.mem_cons] at ha ih
          rcases ha with rfl | rfl | rfl | ha
          · trivial
          · trivial
          · trivial
          · exact ih a ha

/-- The leaves of a conjunction are its words. -/
theorem leaves_conjunctionTokens (ws : List Bytes) :
    leaves (conjunctionTokens ws) = ws.map begins := by
  induction ws with
  | nil => rfl
  | cons w ws ih =>
      cases ws with
      | nil => rfl
      | cons v ws => simp only [conjunctionTokens, leaves, ih, List.map_cons, begins]

/-- The tokens of a conjunction have a reading. -/
theorem exists_reads {ws : List Bytes} (h : ws ≠ []) : ∃ q, Reads (conjunctionTokens ws) q := by
  induction ws with
  | nil => exact absurd rfl h
  | cons w ws ih =>
      have hword : Reads [.string w, .star] (begins w) := .phrase (.begins w)
      cases ws with
      | nil => exact ⟨_, hword⟩
      | cons v ws =>
          obtain ⟨_, hq⟩ := ih (List.cons_ne_nil v ws)
          exact ⟨_, .and hword hq⟩

/-- A text that asks for what begins with each of some words, and for nothing else: its tokens are
those of the conjunction, and every reading of them is that conjunction. -/
structure AsksFor (text : Bytes) (ws : List Bytes) : Prop where
  lex : FullText.lex text = some (conjunctionTokens ws)
  reads : ∀ q, Reads (conjunctionTokens ws) q → q.conjuncts = ws.map begins
  readable : ws ≠ [] → ∃ q, Reads (conjunctionTokens ws) q

/-- **The conjunction of quoted words asks for these words**, whatever bytes they hold. -/
theorem asksFor_conjunction {ws : List Bytes} (h : ∀ w ∈ ws, (0 : UInt8) ∉ w) :
    AsksFor (conjunction ws) ws where
  lex := lex_conjunction h
  reads _ hq := (hq.conjuncts_eq (conjunctionTokens_plain ws)).trans (leaves_conjunctionTokens ws)
  readable := exists_reads

end FullText
