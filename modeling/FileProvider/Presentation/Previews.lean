import FileProvider.Library.Outcome
import FileProvider.Presentation.Cards
import Mathlib.Data.List.Infix

/-!
# Accepted previews

`validatePreview` accepts PNG images of their own size, and of a portable document also the cards of
the provider: `scanTags` runs over the tags of such a card, and refuses every element that is not
the provider's and every tag that could load or run something.

The checks stand in the order of the source. `scanTags` goes from one opening bracket to the next,
with the bytes that are left as its measure.
-/

namespace FileProvider

open Bytes Fallible

namespace Presentation

/-! ## Lower case -/

def lowerByte (c : UInt8) : UInt8 := if 65 ≤ c.toNat ∧ c.toNat ≤ 90 then c + 32 else c

/-- ASCII letters in lower case. -/
def lower (s : Bytes) : Bytes := s.map lowerByte

/-- Texts are lowered byte by byte. -/
theorem lower_append (s t : Bytes) : lower (s ++ t) = lower s ++ lower t := List.map_append

/-! ## Tags -/

/-- A byte behind the name of a tag. -/
def endsName (c : UInt8) : Bool := c ∈ ascii " \t\r\n"

def tagName (tag : Bytes) : Bytes := tag.takeWhile (fun c => !endsName c)

def elements : List Bytes := ["svg", "/svg", "rect", "text", "/text"].map ascii

/-- What a tag must not contain. -/
def activeTokens : List Bytes :=
  [" on", "\ton", "\non", "\ron", "href", "url(", "style", "<!", "<?"].map ascii

def Quiet (tag : Bytes) : Prop :=
  tagName tag ∈ elements ∧ ∀ token ∈ activeTokens, ¬ token <:+: tag

instance (tag : Bytes) : Decidable (Quiet tag) :=
  inferInstanceAs (Decidable (tagName tag ∈ elements ∧ ∀ token ∈ activeTokens, ¬ token <:+: tag))

/-- The checks of a tag. -/
def checkTag (tag : Bytes) : Fallible Unit := do
  failIf (tagName tag ∉ elements) "Unsupported SVG element"
  failIf (∃ token ∈ activeTokens, token <:+: tag) "Active or externally referenced preview content"

/-- The loop over the tags from a place on. -/
def scanTags (s : Bytes) : Fallible Unit :=
  match h : s.dropWhile (· ≠ 60) with
  | [] => pure ()
  | _ :: rest =>
      let tag := rest.takeWhile (· ≠ 62)
      if tag.length = rest.length then .error "Invalid SVG tag"
      else do
        checkTag (lower tag)
        scanTags (rest.drop (tag.length + 1))
termination_by s.length
decreasing_by
  have hle := (List.dropWhile_suffix (l := s) (· ≠ 60)).length_le
  rw [h, List.length_cons] at hle
  rw [List.length_drop]
  omega

/-! ## Previews -/

/-- `Presentation::maximumDocumentBytes`. -/
def maximumDocumentBytes : Nat := 2 * 1024 * 1024

def pngSignature : Bytes := [0x89, 80, 78, 71, 13, 10, 26, 10]

/-- The unsigned number of four bytes, the highest first. -/
def be (s : Bytes) (p : Nat) : UInt32 :=
  (s.getD p 0).toUInt32 <<< 24 ||| (s.getD (p + 1) 0).toUInt32 <<< 16 |||
    (s.getD (p + 2) 0).toUInt32 <<< 8 ||| (s.getD (p + 3) 0).toUInt32

/-- The checks of a PNG image. -/
def checkPng (p : FilePreview) : Fallible Unit := do
  failIf (p.bytes.length < 24 ∨ p.bytes.take 8 ≠ pngSignature ∨
    (p.bytes.drop 12).take 4 ≠ ascii "IHDR") "Invalid PNG preview"
  failIf (be p.bytes 16 ≠ p.width ∨ be p.bytes 20 ≠ p.height)
    "Preview dimensions do not match its payload"

/-- The checks of a card. -/
def checkCard (p : FilePreview) : Fallible Unit := do
  failIf (¬ svgStart <+: p.bytes ∨ ¬ ascii "</svg>" <:+ p.bytes) "Invalid provider SVG card"
  scanTags p.bytes

def kinds : List Bytes := ["image", "text", "audio", "information"].map ascii

def validatePreview (p : FilePreview) (supplied : Bool) : Fallible Unit := do
  failIf (p.width = 0 ∨ p.height = 0 ∨ 512 < p.width ∨ 512 < p.height ∨ p.bytes = [] ∨
    maximumDocumentBytes / 2 < p.bytes.length) "Preview exceeds the supported bounds"
  if p.mimeType = ascii "image/png" then checkPng p
  else if p.mimeType = ascii "image/svg+xml" ∧ supplied = false then checkCard p
  else .error "Only bounded PNGs may be supplied by a document encoder"
  failIf (p.kind ∉ kinds) "Unknown preview kind"

/-! ## Scans -/

section

variable {s t tag rest : Bytes}

/-- Without a further tag the scan ends. -/
theorem scanTags_nil (h : s.dropWhile (· ≠ 60) = []) : scanTags s = pure () := by
  rw [scanTags]
  split
  · rfl
  · next c rest h' => rw [h] at h'; cases h'

/-- A further tag must be closed and is checked, and the scan goes on behind it. -/
theorem scanTags_cons {c : UInt8} (h : s.dropWhile (· ≠ 60) = c :: rest) : scanTags s =
    if (rest.takeWhile (· ≠ 62)).length = rest.length then .error "Invalid SVG tag"
    else checkTag (lower (rest.takeWhile (· ≠ 62))) >>= fun _ =>
      scanTags (rest.drop ((rest.takeWhile (· ≠ 62)).length + 1)) := by
  conv_lhs => rw [scanTags]
  split
  · next h' => rw [h] at h'; cases h'
  · next c' rest' h' =>
      rw [h] at h'
      cases h'
      rfl

/-- A text without the sign is passed over. -/
theorem dropWhile_of_not_mem {c : UInt8} (h : c ∉ t) :
    (t ++ s).dropWhile (· ≠ c) = s.dropWhile (· ≠ c) := by
  rw [List.dropWhile_append_of_pos]
  intro b hb
  refine decide_eq_true ?_
  rintro rfl
  exact h hb

/-- A scan runs over a text without a tag. -/
theorem scanTags_text (h : 60 ∉ t) : scanTags (t ++ s) = scanTags s := by
  have hdrop := dropWhile_of_not_mem (s := s) h
  cases hs : s.dropWhile (· ≠ 60) with
  | nil => rw [scanTags_nil hs, scanTags_nil (hdrop.trans hs)]
  | cons c rest => rw [scanTags_cons hs, scanTags_cons (hdrop.trans hs)]

/-- A quiet tag passes the check. -/
theorem checkTag_ok (h : Quiet tag) : checkTag tag = .ok () := by
  unfold checkTag failIf
  rw [if_neg (not_not.2 h.1), if_neg]
  · rfl
  · rintro ⟨token, htoken, hinfix⟩
    exact h.2 token htoken hinfix

/-- A scan runs over a tag that can do nothing. -/
theorem scanTags_tag (hclose : 62 ∉ tag) (hquiet : Quiet (lower tag)) :
    scanTags (60 :: (tag ++ 62 :: rest)) = scanTags rest := by
  have hdrop : (60 :: (tag ++ 62 :: rest)).dropWhile (· ≠ 60) = 60 :: (tag ++ 62 :: rest) :=
    List.dropWhile_cons_of_neg (by simp)
  have htake : (tag ++ 62 :: rest).takeWhile (· ≠ 62) = tag := by
    rw [List.takeWhile_append_of_pos, List.takeWhile_cons_of_neg (by simp), List.append_nil]
    intro b hb
    refine decide_eq_true ?_
    rintro rfl
    exact hclose hb
  rw [scanTags_cons hdrop, htake, if_neg, checkTag_ok hquiet]
  · show scanTags ((tag ++ 62 :: rest).drop (tag.length + 1)) = scanTags rest
    rw [List.drop_length_add_append, List.drop_succ_cons, List.drop_zero]
  · rw [List.length_append, List.length_cons]
    omega

end

end Presentation

end FileProvider
