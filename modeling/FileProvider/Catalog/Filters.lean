import FileProvider.Catalog.Impl
import FileProvider.Library.Utf8

/-!
# Filters

What a search asks for: the normal form of a filter, its JSON document, which is also what a cursor
names it by, the filter read back from a saved one, and the expression its words are looked up by.

The definitions follow the source: a filter is normalised part by part, written with the members
that have a value, and read back through the same checks. `storeFilter` and `dropFilter` are the
transactions on saved filters; what holds of them is proved in `SavedFilters`.
-/

namespace FileProvider

open Bytes Fallible

/-- What a search asks for. -/
structure FileFilter where
  text : Bytes
  pathPrefix : Bytes
  allKeywords : List Bytes
  anyKeywords : List Bytes
  colors : List ColorLabel
  collections : List Bytes
  minimumRating : Option Nat
  maximumRating : Option Nat
  minimumSize : Option Nat
  maximumSize : Option Nat
  fields : StringMap
deriving DecidableEq

/-- A filter that is saved under a name. -/
structure SavedFileFilter where
  key : Bytes
  name : Bytes
  filter : FileFilter
deriving DecidableEq

namespace Catalog

variable (E : CatalogLibraries)

/-! ## Documents -/

/-- A member that is written where there is a value. -/
def optionalMember (key : Bytes) (value : Option Nat) : List (Bytes × Json) :=
  value.toList.map fun n => (key, .int n)

def filterJson (f : FileFilter) : Json :=
  .object
    ([(ascii "text", .str f.text), (ascii "pathPrefix", .str f.pathPrefix),
      (ascii "allKeywords", .arr (f.allKeywords.map .str)),
      (ascii "anyKeywords", .arr (f.anyKeywords.map .str)),
      (ascii "colors", .arr (f.colors.map fun c => .int c.code)),
      (ascii "collections", .arr (f.collections.map .str)), (ascii "fields", f.fields.json)]
    ++ optionalMember (ascii "minimumRating") f.minimumRating
    ++ optionalMember (ascii "maximumRating") f.maximumRating
    ++ optionalMember (ascii "minimumSize") f.minimumSize
    ++ optionalMember (ascii "maximumSize") f.maximumSize)

/-! ## The normal form -/

/-- One field of a filter put into its normal form. -/
def normalizeFilterField (fields : StringMap) (e : Bytes × Bytes) : Fallible StringMap := do
  let key ← normalized E e.1 256 false true
  let value ← normalized E e.2 (64 * 1024) false false
  failIf (key ∈ fields.entries.map (·.1)) "duplicate normalized filter field"
  pure (fields.insert key value)

/-- The checks of the ranges of a filter. -/
def rangesValid (f : FileFilter) : Fallible Unit :=
  failIf ((∃ n ∈ f.minimumRating, 5 < n) ∨ (∃ n ∈ f.maximumRating, 5 < n)
      ∨ (∃ n ∈ f.minimumRating, ∃ m ∈ f.maximumRating, m < n)
      ∨ ∃ n ∈ f.minimumSize, ∃ m ∈ f.maximumSize, m < n) "invalid filter range"

def normalizeFilter (f : FileFilter) : Fallible FileFilter := do
  let text ← normalized E f.text 4096 false false
  let pathPrefix ← relativePath E f.pathPrefix true
  let allKeywords ← terms E f.allKeywords true
  let anyKeywords ← terms E f.anyKeywords true
  failIf (8 < f.colors.length ∨ 128 < f.collections.length ∨ 64 < f.fields.entries.length)
    "filter exceeds field limits"
  let collections ← f.collections.mapM fun c => normalized E c 128 false true
  let fields ← f.fields.entries.foldlM (normalizeFilterField E) .empty
  rangesValid f
  f.minimumSize.toList.forM integer
  f.maximumSize.toList.forM integer
  let result : FileFilter :=
    { f with text, pathPrefix, allKeywords, anyKeywords, collections, fields }
  let dumped ← E.json.dump (filterJson result)
  failIf (maximumMetadataBytes < dumped.length) "filter exceeds byte limit"
  pure result

/-! ## Saved filters -/

/-- The number of a colour of a saved filter. -/
def savedColor (j : Json) : Fallible ColorLabel := do
  let value ← j.getUnsigned 32
  failIf (colorNames.length ≤ value) "invalid saved color"
  pure (.ofCode value)

/-- A member that may be missing. -/
def optionalOf (j : Json) (key : Bytes) (bits : Nat) : Fallible (Option Nat) :=
  match j.member? key with
  | none => pure none
  | some v => some <$> v.getUnsigned bits

def parseFilter (text : Bytes) : Fallible FileFilter := do
  let j ← E.json.parseText text
  failIf (j.isObject = false) "json.exception.type_error.306"
  let text ← valueOr j (ascii "text") Json.getStr []
  let pathPrefix ← valueOr j (ascii "pathPrefix") Json.getStr []
  let allKeywords ← valueOr j (ascii "allKeywords") MetadataCodec.getStrings []
  let anyKeywords ← valueOr j (ascii "anyKeywords") MetadataCodec.getStrings []
  let colors ← (← j.member (ascii "colors")).items.mapM savedColor
  let collections ← valueOr j (ascii "collections") MetadataCodec.getStrings []
  let fields ← valueOr j (ascii "fields") MetadataCodec.getStringMap .empty
  let minimumRating ← optionalOf j (ascii "minimumRating") 32
  let maximumRating ← optionalOf j (ascii "maximumRating") 32
  let minimumSize ← optionalOf j (ascii "minimumSize") 64
  let maximumSize ← optionalOf j (ascii "maximumSize") 64
  normalizeFilter E
    ⟨text, pathPrefix, allKeywords, anyKeywords, colors, collections, minimumRating, maximumRating,
      minimumSize, maximumSize, fields⟩

/-- The key a filter is saved under: that of the filter of the same name, or a new one. -/
def filterKey (db : CatalogTables) (folded : Bytes) (random : Fin 16 → UInt8) : Fallible Bytes :=
  match db.savedFilters.findBy SavedFilterRow.folded folded with
  | some row => pure row.key
  | none => do
      failIf (4096 ≤ db.savedFilters.rows.length) "saved filter count exceeds limit"
      pure (newKey random "filter-")

/-- The transaction of `saveFilter`. -/
def storeFilter (db : CatalogTables) (name : Bytes) (filter : FileFilter)
    (random : Fin 16 → UInt8) : Fallible (SavedFileFilter × CatalogTables) := do
  let folded ← normalized E name 512 true false
  let key ← filterKey db folded random
  let text ← E.json.dump (filterJson filter)
  let db ← db.upsertFilter ⟨key, name, folded, text⟩
  pure (⟨key, name, filter⟩, ← db.bump)

/-- The transaction of `removeFilter`. -/
def dropFilter (db : CatalogTables) (key : Bytes) : Fallible CatalogTables := do
  let db ← db.eraseFilter (← normalized E key 128 false true)
  db.bump

def savedFilter (db : CatalogTables) (key : Bytes) : Fallible (Option SavedFileFilter) := do
  match db.savedFilters.find (← normalized E key 128 false true) with
  | none => pure none
  | some row => do pure (some ⟨key, row.name, ← parseFilter E row.filter⟩)

end Catalog

end FileProvider
