import FileProvider.Catalog.Model
import FileProvider.Object.Codec

/-!
# Classifications and companions

The normal form of a classification, its JSON document, and the companion a file travels with.
Texts are brought into the composed form of Unicode; `Unicode` is the library that does it.

The parts of a classification are brought into their normal forms one after the other, as the source
does, and the first that has none decides the exception. Documents are JSON values, whose texts are
those of the library.
-/

namespace FileProvider

open Bytes Fallible

/-- The part of a Unicode library that is not written out: the composed form of a text, with its
case folded or not. A text that is not UTF-8 has none. A composed text is its own composed form,
no NUL comes in, and ASCII is composed already. -/
structure Unicode where
  map : Bool → Bytes → Option Bytes
  map_idem : ∀ s t, map false s = some t → map false t = some t
  map_nul : ∀ s t, map false s = some t → 0 ∉ s → 0 ∉ t
  map_ascii : ∀ s : Bytes, (∀ b ∈ s, b < 128) → map false s = some s

/-- The libraries a catalog is built with. -/
structure CatalogLibraries where
  unicode : Unicode
  json : JsonLibrary

/-- The document beside a file, once it is parsed and checked. -/
structure Companion where
  fileKey : Bytes
  revision : Nat
  metadata : FileMetadata
  collections : List FileCollection
deriving DecidableEq

namespace Catalog

/-- `FileCatalog::maximumMetadataBytes`. -/
def maximumMetadataBytes : Nat := 256 * 1024

variable (E : CatalogLibraries)

/-! ## Texts -/

/-- The normal form of a text, within a limit before and after. -/
def normalized (text : Bytes) (maximum : Nat) (fold required : Bool) : Fallible Bytes := do
  failIf (maximum < text.length ∨ 0 ∈ text ∨ (required = true ∧ text = []))
    "invalid metadata string"
  let result ← orFail "invalid UTF-8 metadata" (E.unicode.map fold text)
  failIf (maximum < result.length) "invalid UTF-8 metadata"
  failIf (required = true ∧ result.all (fun c => c ∈ [32, 9, 13, 10]) = true)
    "empty metadata name"
  pure result

/-- The loop of `terms`: of terms that fold to one text the first is kept. -/
def termsFrom (folded : Bool) : List Bytes → List Bytes → Fallible (List Bytes)
  | [], _ => pure []
  | value :: rest, seen => do
      let display ← normalized E value 512 false true
      let term ← normalized E display 512 true false
      if term ∈ seen then termsFrom folded rest seen else do
        let more ← termsFrom folded rest (term :: seen)
        pure ((if folded then term else display) :: more)

def terms (input : List Bytes) (folded : Bool) : Fallible (List Bytes) := do
  failIf (128 < input.length) "too many metadata terms"
  termsFrom E folded input []

/-! ## Classifications -/

/-- The names of the colour labels, in the order of their numbers. -/
def colorNames : List Bytes :=
  [ascii "none", ascii "red", ascii "orange", ascii "yellow", ascii "green", ascii "blue",
    ascii "purple", ascii "gray"]

def metadataJson (m : FileMetadata) : Json :=
  .object
    [(ascii "title", .str m.title), (ascii "description", .str m.description),
      (ascii "keywords", .arr (m.keywords.map .str)), (ascii "rating", .int m.rating),
      (ascii "color", .str (colorNames.getD m.color.code [])), (ascii "fields", m.fields.json),
      (ascii "collections", .arr (m.collections.map .str))]

/-- One field of a classification put into its normal form. -/
def normalizeField (fields : StringMap) (e : Bytes × Bytes) : Fallible StringMap := do
  let key ← normalized E e.1 256 false true
  let value ← normalized E e.2 (64 * 1024) false false
  failIf (key ∈ fields.entries.map (·.1)) "duplicate normalized field"
  pure (fields.insert key value)

/-- The elements of a `std::set` of strings. -/
def sortedSet (l : List Bytes) : List Bytes := Keyset.orderBy order l.dedup

def normalizeMetadata (m : FileMetadata) : Fallible FileMetadata := do
  failIf (5 < m.rating) "rating must be between zero and five"
  let title ← normalized E m.title 4096 false false
  let description ← normalized E m.description (64 * 1024) false false
  let keywords ← terms E m.keywords false
  failIf (64 < m.fields.entries.length ∨ 128 < m.collections.length)
    "too many classification fields"
  let fields ← m.fields.entries.foldlM (normalizeField E) .empty
  let memberships ← m.collections.mapM fun key => normalized E key 128 false true
  let result : FileMetadata :=
    { m with title, description, keywords, fields, collections := sortedSet memberships }
  let dumped ← E.json.dump (metadataJson result)
  failIf (maximumMetadataBytes < dumped.length) "file classification exceeds byte limit"
  pure result

/-- `json::value` with a default for a member that is missing. -/
def valueOr {α : Type} (j : Json) (key : Bytes) (get : Json → Fallible α) (default : α) :
    Fallible α :=
  match j.member? key with
  | none => pure default
  | some v => get v

def jsonInteger (maximum : Nat) (j : Json) : Fallible Nat := do
  let n ← orFail "metadata number must be a nonnegative integer" (MetadataCodec.unsigned? j)
  failIf (maximum < n) "metadata number exceeds limit"
  pure n

/-- The members a classification can have. -/
def metadataKeys : List Bytes :=
  [ascii "title", ascii "description", ascii "keywords", ascii "rating", ascii "color",
    ascii "fields", ascii "collections"]

def parseMetadata (j : Json) : Fallible FileMetadata := do
  failIf (j.isObject = false) "classification must be an object"
  let members ← j.getMembers
  failIf (members.any (fun m => m.1 ∉ metadataKeys) = true) "unknown classification field"
  let title ← valueOr j (ascii "title") Json.getStr []
  let description ← valueOr j (ascii "description") Json.getStr []
  let keywords ← valueOr j (ascii "keywords") MetadataCodec.getStrings []
  let rating ← valueOr j (ascii "rating") (jsonInteger 5) 0
  let color ← valueOr j (ascii "color") Json.getStr (ascii "none")
  failIf (color ∉ colorNames) "unknown companion color"
  let fields ← valueOr j (ascii "fields") MetadataCodec.getStringMap .empty
  let collections ← valueOr j (ascii "collections") MetadataCodec.getStrings []
  normalizeMetadata E
    ⟨title, description, keywords, rating, .ofCode (colorNames.idxOf color), fields, collections⟩

/-! ## Companions -/

/-- The format of a companion. -/
def companionFormat : Bytes := ascii "iiFileProvider.Metadata"

/-- The keys `newKey` makes for files. -/
def fileKeyValid (key : Bytes) : Bool :=
  key.length = 37 && (ascii "file-").isPrefixOf key
    && (key.drop 5).all (fun c => c ∈ ascii "0123456789abcdef")

/-- One collection of a companion, with its texts in normal form. -/
def companionCollection (j : Json) : Fallible FileCollection := do
  let key ← (← j.member (ascii "key")).getStr
  let key ← normalized E key 128 false true
  let name ← (← j.member (ascii "name")).getStr
  let name ← normalized E name 512 false true
  pure ⟨key, name⟩

/-- The check of a document beside a file. What the source reads again from the document later it
has read here. -/
def companionOf (j : Json) : Fallible Companion := do
  failIf (j.isObject = false) "unknown metadata companion format"
  let format ← valueOr j (ascii "format") Json.getStr []
  failIf (format ≠ companionFormat) "unknown metadata companion format"
  let schema ← valueOr j (ascii "schema") Json.getInt32 0
  failIf (schema ≠ 1) "unknown metadata companion format"
  let fileKey ← (← j.member (ascii "fileKey")).getStr
  failIf (fileKeyValid fileKey = false) "invalid persistent file key"
  let revision ← jsonInteger (2 ^ 63 - 1) (← j.member (ascii "revision"))
  failIf (revision = 0) "invalid companion revision"
  let metadata ← parseMetadata E (← j.member (ascii "metadata"))
  let listed ← orFail "invalid companion collections"
    (match ← j.member (ascii "collections") with
      | .arr elements => some elements
      | _ => none)
  failIf (listed.length ≠ metadata.collections.length) "invalid companion collections"
  let collections ← listed.mapM (companionCollection E)
  failIf (¬ (collections.map (·.key)).Nodup ∨ collections.any (·.key ∉ metadata.collections) = true)
    "inconsistent companion membership"
  pure ⟨fileKey, revision, metadata, collections⟩

end Catalog

end FileProvider
