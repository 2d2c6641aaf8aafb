import FileProvider.Library.FullText
import FileProvider.Library.Outcome
import FileProvider.Library.Runs
import FileProvider.Library.Utf8

/-!
# Search expressions

The two functions that make a full-text query of what a user types: `matchExpression` of the
catalog, which takes the words of the text, and that of the search index, which takes whatever
stands between spaces. Either way the query asks for what begins with each of the words and the
text has no say in anything else.

The categories of Unicode and the tokens of the engine are parameters. What an expression means is
the grammar of `Library.FullText`, in which it is read without the code, so that the two functions
are held against one meaning of queries.
-/

namespace FileProvider

open Bytes Fallible

/-! ## The words of the catalog -/

/-- The general categories, in the order of the Unicode library. -/
inductive GeneralCategory where
  | cn | lu | ll | lt | lm | lo | mn | mc | me | nd | nl | no | pc | pd | ps | pe | pi | pf | po
  | sm | sc | sk | so | zs | zl | zp | cc | cf | cs | co
deriving DecidableEq

namespace GeneralCategory

def code : GeneralCategory → Nat
  | .cn => 0 | .lu => 1 | .ll => 2 | .lt => 3 | .lm => 4 | .lo => 5 | .mn => 6 | .mc => 7
  | .me => 8 | .nd => 9 | .nl => 10 | .no => 11 | .pc => 12 | .pd => 13 | .ps => 14 | .pe => 15
  | .pi => 16 | .pf => 17 | .po => 18 | .sm => 19 | .sc => 20 | .sk => 21 | .so => 22 | .zs => 23
  | .zl => 24 | .zp => 25 | .cc => 26 | .cf => 27 | .cs => 28 | .co => 29

/-- The test for a part of a word. -/
def part (c : GeneralCategory) : Bool :=
  GeneralCategory.lu.code ≤ c.code && c.code ≤ GeneralCategory.no.code

def isLetter (c : GeneralCategory) : Bool := c ∈ [.lu, .ll, .lt, .lm, .lo]
def isMark (c : GeneralCategory) : Bool := c ∈ [.mn, .mc, .me]
def isNumber (c : GeneralCategory) : Bool := c ∈ [.nd, .nl, .no]

/-- The parts of words are the letters, the marks and the numbers. -/
theorem part_eq (c : GeneralCategory) : c.part = (c.isLetter || c.isMark || c.isNumber) := by
  cases c <;> rfl

end GeneralCategory

/-- The part of a Unicode library that knows the general categories. Among the ASCII characters
the letters and digits alone are letters, marks or numbers. -/
structure UnicodeCategories where
  category : Char → GeneralCategory
  category_ascii : ∀ c : Char, c.toNat < 128 → (category c).part = c.isAlphanum

namespace Catalog

variable (U : UnicodeCategories)

/-- The loop over the scalars of a text, with the word it is in and the words before. -/
def collectWords : List Char → Bytes → List Bytes → List Bytes
  | [], word, words => if word = [] then words else words ++ [word]
  | c :: rest, word, words =>
      if (U.category c).part then collectWords rest (word ++ Utf8.encode [c]) words
      else if word = [] then collectWords rest [] words
      else collectWords rest [] (words ++ [word])

/-- One more term of an expression. -/
def appendTerm (result word : Bytes) : Bytes :=
  (if result = [] then [] else result ++ ascii " AND ") ++ (34 :: word ++ [34, 42])

def matchExpression (text : Bytes) : Fallible Bytes := do
  let chars ← orFail "invalid search UTF-8" (Utf8.scalars text)
  let words := collectWords U chars [] []
  failIf (words = [] ∨ 32 < words.length) "search needs one to 32 word prefixes"
  pure (words.foldl appendTerm [])

end Catalog

/-! ## The tokens of the search index -/

namespace FileSearchIndex

/-- `std::isspace` in the C locale. -/
def isspace (b : UInt8) : Bool := b = 32 || (9 ≤ b.toNat && b.toNat ≤ 13)

/-- The loop over the bytes of a text, with the expression so far. -/
def appendTokens (input result : Bytes) : Bytes :=
  match h : input.dropWhile isspace with
  | [] => result
  | b :: rest =>
      let token := ((b :: rest).takeWhile fun c => !isspace c).flatMap fun c =>
        if c = 34 then [34, c] else [c]
      appendTokens ((b :: rest).dropWhile fun c => !isspace c) (Catalog.appendTerm result token)
termination_by input.length
decreasing_by
  have hle : (b :: rest).length ≤ input.length := h ▸ (List.dropWhile_sublist _).length_le
  have hb : isspace b = false := by
    have hhead := List.head_dropWhile_not isspace (by rw [h]; exact List.cons_ne_nil b rest)
    simpa [h] using hhead
  have hrest := (List.dropWhile_sublist (fun c => !isspace c) (l := rest)).length_le
  rw [List.dropWhile_cons, hb]
  simp only [List.length_cons, Bool.not_false, if_true] at hle ⊢
  omega

def matchExpression (input : Bytes) : Fallible Bytes := do
  failIf (4096 < input.length ∨ 0 ∈ input) "Search text exceeds its limit or contains NUL"
  pure (appendTokens input [])

end FileSearchIndex

/-! ## Expressions -/

namespace Catalog

/-- The loop over the words joins them with `AND`, once there is a first. -/
theorem foldl_appendTerm {words : List Bytes} {r : Bytes} (hr : r ≠ []) :
    (words.map fun w => w.flatMap FullText.doubled).foldl appendTerm r =
      r ++ (words.flatMap fun w => ascii " AND " ++ FullText.quoted w) := by
  induction words generalizing r with
  | nil => exact (List.append_nil r).symm
  | cons w words ih =>
      have hnext : appendTerm r (w.flatMap FullText.doubled)
          = r ++ (ascii " AND " ++ FullText.quoted w) := by
        simp [appendTerm, hr, FullText.quoted]
      have hne : r ++ (ascii " AND " ++ FullText.quoted w) ≠ [] := by simp [hr]
      rw [List.map_cons, List.foldl_cons, hnext, ih hne, List.flatMap_cons, List.append_assoc]

/-- The first word of a conjunction, and the others behind their `AND`. -/
theorem conjunction_cons (w : Bytes) (ws : List Bytes) : FullText.conjunction (w :: ws) =
    FullText.quoted w ++ (ws.flatMap fun v => ascii " AND " ++ FullText.quoted v) := by
  induction ws generalizing w with
  | nil => exact (List.append_nil _).symm
  | cons v ws ih =>
      rw [FullText.conjunction, ih, List.flatMap_cons, List.append_assoc]

/-- Terms that are appended one by one make the conjunction. -/
theorem foldl_appendTerm_nil (words : List Bytes) :
    (words.map fun w => w.flatMap FullText.doubled).foldl appendTerm []
      = FullText.conjunction words := by
  cases words with
  | nil => rfl
  | cons w words =>
      have hfirst : appendTerm [] (w.flatMap FullText.doubled) = FullText.quoted w := by
        simp [appendTerm, FullText.quoted]
      have hne : FullText.quoted w ≠ [] := List.cons_ne_nil _ _
      rw [List.map_cons, List.foldl_cons, hfirst, foldl_appendTerm hne, conjunction_cons]

/-! ### Words -/

variable {U : UnicodeCategories}

/-- The loop collects the runs of parts of words. The word in hand is carried along, so the
induction is on the scalars for every such word. -/
theorem collectWords_eq (chars word : List Char) (words : List Bytes) :
    collectWords U chars (Utf8.encode word) words = words ++
      (runsFrom (fun c => (U.category c).part) word chars).map Utf8.encode := by
  induction chars generalizing word words with
  | nil =>
      cases word with
      | nil => exact (List.append_nil words).symm
      | cons c word =>
          rw [collectWords, if_neg (mt Utf8.encode_eq_nil.1 (List.cons_ne_nil c word))]
          rfl
  | cons c rest ih =>
      rw [collectWords, runsFrom]
      split
      · rw [← Utf8.encode_append, ih]
      · cases word with
        | nil =>
            rw [if_pos (Utf8.encode_eq_nil.2 rfl)]
            exact ih [] words
        | cons d word =>
            rw [if_neg (mt Utf8.encode_eq_nil.1 (List.cons_ne_nil d word))]
            have hrest := ih [] (words ++ [Utf8.encode (d :: word)])
            rw [List.append_assoc] at hrest
            exact hrest

/-- The text of a word has no quote and no NUL in it. -/
theorem plain_of_part {word : List Char} (h : ∀ c ∈ word, (U.category c).part = true) :
    (34 : UInt8) ∉ Utf8.encode word ∧ (0 : UInt8) ∉ Utf8.encode word := by
  have hbyte : ∀ b : UInt8, b.toNat < 0x80 → (Char.ofNat b.toNat).isAlphanum = false →
      b ∉ Utf8.encode word := by
    intro b hb halpha hmem
    obtain ⟨c, hc, hbc⟩ := List.mem_flatMap.1 hmem
    have hnat := Utf8.ascii_of_mem_char hbc hb
    have hpart := U.category_ascii c (by omega)
    rw [h c hc, ← Char.ofNat_toNat c, hnat, halpha] at hpart
    cases hpart
  exact ⟨hbyte 34 (by decide) (by decide), hbyte 0 (by decide) (by decide)⟩

/-- Without a quote nothing is doubled. -/
theorem doubled_of_not_mem {s : Bytes} (h : (34 : UInt8) ∉ s) :
    s.flatMap FullText.doubled = s := by
  induction s with
  | nil => rfl
  | cons b s ih =>
      rw [List.mem_cons, not_or] at h
      rw [List.flatMap_cons, ih h.2, FullText.doubled, if_neg (Ne.symm h.1)]
      rfl

end Catalog

/-! ### Tokens -/

namespace FileSearchIndex

/-- Without a further word the loop ends. -/
theorem appendTokens_nil {input result : Bytes} (h : input.dropWhile isspace = []) :
    appendTokens input result = result := by
  rw [appendTokens]
  split
  · rfl
  · next b rest heq =>
      rw [h] at heq
      cases heq

/-- A further word is quoted and appended, and the loop goes on behind it. -/
theorem appendTokens_cons {input result rest : Bytes} {b : UInt8}
    (h : input.dropWhile isspace = b :: rest) :
    appendTokens input result = appendTokens ((b :: rest).dropWhile fun c => !isspace c)
      (Catalog.appendTerm result (((b :: rest).takeWhile fun c => !isspace c).flatMap
        FullText.doubled)) := by
  rw [appendTokens]
  split
  · next heq =>
      rw [h] at heq
      cases heq
  · next b' rest' heq =>
      rw [h] at heq
      obtain ⟨rfl, rfl⟩ := List.cons.inj heq
      have hquote : (fun c : UInt8 => if c = 34 then [34, c] else [c]) = FullText.doubled := by
        funext c
        unfold FullText.doubled
        split
        · next hc => rw [hc]
        · rfl
      rw [hquote]

/-- The loop appends the stretches between spaces. -/
theorem appendTokens_eq {input : Bytes} {tokens : List Bytes}
    (h : Runs (fun b => !isspace b) input tokens) (result : Bytes) :
    appendTokens input result =
      (tokens.map fun w => w.flatMap FullText.doubled).foldl Catalog.appendTerm result := by
  induction h generalizing result with
  | gap hg =>
      refine appendTokens_nil ?_
      rw [List.dropWhile_eq_nil_iff]
      intro b hb
      simpa using hg b hb
  | @run g w rest ws hg hne hw hend _ ih =>
      have hgap : (g ++ (w ++ rest)).dropWhile isspace = w ++ rest := by
        rw [List.dropWhile_append_of_pos fun b hb => by simpa using hg b hb]
        cases w with
        | nil => exact absurd rfl hne
        | cons b w =>
            have hb : isspace b = false := by simpa using hw b List.mem_cons_self
            rw [List.cons_append, List.dropWhile_cons, hb]
            rfl
      have htake : (w ++ rest).takeWhile (fun c => !isspace c) = w := by
        rw [List.takeWhile_append_of_pos hw]
        cases rest with
        | nil => rw [List.takeWhile_nil, List.append_nil]
        | cons b rest =>
            have hb := hend b rfl
            rw [List.takeWhile_cons, hb]
            exact List.append_nil w
      have hdrop : (w ++ rest).dropWhile (fun c => !isspace c) = rest := by
        rw [List.dropWhile_append_of_pos hw]
        cases rest with
        | nil => rfl
        | cons b rest =>
            have hb := hend b rfl
            rw [List.dropWhile_cons, hb]
            rfl
      cases w with
      | nil => exact absurd rfl hne
      | cons b w =>
          rw [appendTokens_cons (show _ = b :: (w ++ rest) from hgap), ← List.cons_append,
            htake, hdrop, ih]
          rfl

end FileSearchIndex

/-! ## What a search asks for -/

/-- **A search text asks for its words and nothing else.** The expression of the catalog asks for
the maximal runs of letters, marks and numbers of the text, one to 32 of them, and that of the
search index for the stretches of the text between spaces: its tokens are those of a conjunction
of strings that are beginnings, and there is no other reading of them. -/
theorem searches_inert (U : UnicodeCategories) :
    (∀ text e, Catalog.matchExpression U text = .ok e → ∃ chars words,
      text = Utf8.encode chars ∧ Runs (fun c => (U.category c).part) chars words ∧
      words ≠ [] ∧ words.length ≤ 32 ∧
      (∀ w ∈ words, ∀ c ∈ w, (U.category c).isLetter = true ∨ (U.category c).isMark = true ∨
        (U.category c).isNumber = true) ∧
      FullText.AsksFor e (words.map Utf8.encode)) ∧
    (∀ input e, FileSearchIndex.matchExpression input = .ok e → ∃ tokens,
      Runs (fun b => !FileSearchIndex.isspace b) input tokens ∧ FullText.AsksFor e tokens) := by
  refine ⟨fun text e h => ?_, fun input e h => ?_⟩
  · simp only [Catalog.matchExpression, bind_ok, orFail_ok, failIf_ok, pure_ok, not_or,
      not_lt] at h
    obtain ⟨chars, hchars, -, ⟨hne, hcount⟩, rfl⟩ := h
    have hruns := Runs.exists_runs (fun c => (U.category c).part) chars
    have hwords := Catalog.collectWords_eq (U := U) chars [] []
    rw [show Utf8.encode [] = [] from rfl, List.nil_append] at hwords
    generalize runsFrom (fun c => (U.category c).part) [] chars = words at hruns hwords
    rw [hwords] at hne hcount ⊢
    have hpart : ∀ w ∈ words, ∀ c ∈ w, (U.category c).part = true :=
      fun w hw c hc => (hruns.mem hw hc).1
    have hdouble : (words.map Utf8.encode).map (fun w => w.flatMap FullText.doubled)
        = words.map Utf8.encode := by
      rw [List.map_map]
      refine List.map_congr_left fun w hw => ?_
      exact Catalog.doubled_of_not_mem (Catalog.plain_of_part (hpart w hw)).1
    refine ⟨chars, words, (Utf8.encode_scalars hchars).symm, hruns, fun hnil => ?_, ?_,
      fun w hw c hc => ?_, ?_⟩
    · rw [hnil] at hne
      exact hne rfl
    · rwa [List.length_map] at hcount
    · have hcategory := hpart w hw c hc
      rw [GeneralCategory.part_eq, Bool.or_eq_true, Bool.or_eq_true, or_assoc] at hcategory
      exact hcategory
    · have hexpression := Catalog.foldl_appendTerm_nil (words.map Utf8.encode)
      rw [hdouble] at hexpression
      rw [hexpression]
      refine FullText.asksFor_conjunction fun s hs => ?_
      obtain ⟨w, hw, rfl⟩ := List.mem_map.1 hs
      exact (Catalog.plain_of_part (hpart w hw)).2
  · simp only [FileSearchIndex.matchExpression, bind_ok, failIf_ok, pure_ok, not_or] at h
    obtain ⟨-, ⟨-, hnul⟩, rfl⟩ := h
    have hruns := Runs.exists_runs (fun b => !FileSearchIndex.isspace b) input
    refine ⟨_, hruns, ?_⟩
    rw [FileSearchIndex.appendTokens_eq hruns, Catalog.foldl_appendTerm_nil]
    exact FullText.asksFor_conjunction fun w hw hmem => hnul (hruns.mem hw hmem).2

/-- The categories of the ASCII letters and digits. -/
def UnicodeCategories.reference : UnicodeCategories where
  category c := if c.isAlpha then .lu else if c.isDigit then .nd else .zs
  category_ascii c _ := by
    show GeneralCategory.part (if c.isAlpha then .lu else if c.isDigit then .nd else .zs)
      = (c.isAlpha || c.isDigit)
    cases c.isAlpha <;> cases c.isDigit <;> rfl

/-- A text with a quote, a star and an operator asks for its words, to which the quote and the star
belong in the search index only. -/
theorem searches_inert_sample : ∃ e e',
    Catalog.matchExpression .reference (ascii "sea\" OR 1*") = .ok e ∧
    FullText.AsksFor e [ascii "sea", ascii "OR", ascii "1"] ∧
    FileSearchIndex.matchExpression (ascii "sea\" OR 1*") = .ok e' ∧
    FullText.AsksFor e' [ascii "sea\"", ascii "OR", ascii "1*"] := by
  obtain ⟨hcatalog, hindex⟩ := searches_inert .reference
  have hok : (Catalog.matchExpression .reference (ascii "sea\" OR 1*")).isOk = true := by
    decide +kernel
  have hok' : (FileSearchIndex.matchExpression (ascii "sea\" OR 1*")).isOk = true := by
    decide +kernel
  obtain ⟨e, he⟩ := exists_of_isOk hok
  obtain ⟨e', he'⟩ := exists_of_isOk hok'
  obtain ⟨chars, words, htext, hwords, -, -, -, hasks⟩ := hcatalog _ e he
  obtain ⟨tokens, htokens, hasks'⟩ := hindex _ e' he'
  have hchars : some chars = some "sea\" OR 1*".toList := by
    rw [← Utf8.scalars_encode, ← htext]
    decide +kernel
  obtain rfl := Option.some.inj hchars
  have hfound : words.map Utf8.encode = [ascii "sea", ascii "OR", ascii "1"] := by
    rw [← hwords.runsFrom_eq]
    decide +kernel
  have hfound' : tokens = [ascii "sea\"", ascii "OR", ascii "1*"] := by
    rw [← htokens.runsFrom_eq]
    decide +kernel
  rw [hfound] at hasks
  rw [hfound'] at hasks'
  exact ⟨e, e', he, hasks, he', hasks'⟩

end FileProvider
