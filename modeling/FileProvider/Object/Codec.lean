import FileProvider.Object.Model

/-!
# The metadata codec

The canonical JSON documents of RAW envelopes and of work sessions. An encoder checks the
texts, counts and byte limits of its value; a decoder accepts exactly what the encoder writes.

A decoder encodes again what it has read and compares the texts, so its checks are those of the
encoder. The round trips are proved in `Object.Documents`.
-/

namespace FileProvider

open Bytes Fallible

/-! ## Maps -/

namespace StringMap

/-- The map with an entry put in. -/
def insert (m : StringMap) (key value : Bytes) : StringMap where
  entries := Keyset.orderBy (fun e => order e.1) ((key, value) :: m.entries.filter (·.1 ≠ key))
  ascending := Keyset.ascending_orderBy <| by
    rw [List.map_cons, List.nodup_cons]
    have hrest := Keyset.Ascending.nodup_keys
      (m.ascending.sublist (List.filter_sublist (p := fun e => decide (e.1 ≠ key))))
    refine ⟨fun hmem => ?_, hrest⟩
    obtain ⟨e, he, hkey⟩ := List.mem_map.1 hmem
    have hne : e.1 ≠ key := by simpa using (List.mem_filter.1 he).2
    exact hne (order_injective hkey)

/-- The map of a list of entries, each put in over the ones before. -/
def ofList (entries : List (Bytes × Bytes)) : StringMap :=
  entries.foldl (fun m e => m.insert e.1 e.2) .empty

/-- The JSON object of a map. -/
def json (m : StringMap) : Json := .obj (m.entries.map fun e => (e.1, .str e.2))

end StringMap

namespace MetadataCodec

variable (L : JsonLibrary)

/-- `FileCatalog::maximumMetadataBytes`. -/
def maximumMetadataBytes : Nat := 256 * 1024

/-! ## Checks -/

/-- Texts hold no NUL, are valid UTF-8 and fit their limit. -/
def text (s : Bytes) (limit : Nat) (required : Bool) : Fallible Unit := do
  failIf ((required ∧ s = []) ∨ limit < s.length ∨ 0 ∈ s)
    "invalid envelope/session text or byte limit"
  let _ ← L.dump (.str s)
  pure ()

def strings (v : List Bytes) (count bytes : Nat) : Fallible Unit := do
  failIf (count < v.length) "too many envelope metadata values"
  v.forM fun s => text L s bytes true

/-- The names under which a credential could be kept. -/
def credential (key : Bytes) : Bool :=
  let name := (key.filter fun c => c ≠ 95 ∧ c ≠ 45).map
    fun c => if 65 ≤ c.toNat ∧ c.toNat ≤ 90 then c + 32 else c
  [ascii "token", ascii "secret", ascii "password", ascii "authorization",
    ascii "accesstoken", ascii "refreshtoken", ascii "authenticationtoken"].contains name

/-! ## Classifications -/

def metadataJson (m : FileMetadata) : Fallible Json := do
  text L m.title 4096 false
  text L m.description (64 * 1024) false
  strings L m.keywords 256 256
  strings L m.collections 128 128
  failIf (5 < m.rating ∨ ColorLabel.gray.code < m.color.code ∨ 64 < m.fields.entries.length)
    "invalid envelope classification"
  m.fields.entries.forM fun e => do
    text L e.1 256 true
    text L e.2 (64 * 1024) false
  let result := Json.object
    [(ascii "title", .str m.title), (ascii "description", .str m.description),
      (ascii "keywords", .arr (m.keywords.map .str)), (ascii "rating", .int m.rating),
      (ascii "color", .int m.color.code), (ascii "collections", .arr (m.collections.map .str)),
      (ascii "fields", m.fields.json)]
  let dumped ← L.dump result
  failIf (maximumMetadataBytes < dumped.length) "envelope metadata exceeds 256 KiB"
  pure result

/-- `get<std::vector<std::string>>`. -/
def getStrings (j : Json) : Fallible (List Bytes) := do
  (← j.getElements).mapM Json.getStr

/-- `get<std::map<std::string, std::string>>`. -/
def getStringMap (j : Json) : Fallible StringMap := do
  let entries ← (← j.getMembers).mapM fun m => do pure (m.1, ← m.2.getStr)
  pure (StringMap.ofList entries)

/-- An integer that is not negative, which the parser keeps unsigned. -/
def unsigned? : Json → Option Nat
  | .int (.ofNat n) => some n
  | _ => none

def parseMetadata (j : Json) : Fallible FileMetadata := do
  failIf (j.isObject = false ∨ j.size ≠ 7) "invalid envelope classification schema"
  let title ← (← j.member (ascii "title")).getStr
  let description ← (← j.member (ascii "description")).getStr
  let keywords ← getStrings (← j.member (ascii "keywords"))
  let rating ← orFail "invalid envelope classification values"
    (unsigned? (← j.member (ascii "rating")))
  let color ← orFail "invalid envelope classification values"
    (unsigned? (← j.member (ascii "color")))
  failIf (5 < rating ∨ 7 < color) "invalid envelope classification values"
  let fields ← getStringMap (← j.member (ascii "fields"))
  let collections ← getStrings (← j.member (ascii "collections"))
  let m : FileMetadata :=
    ⟨title, description, keywords, rating, .ofCode color, fields, collections⟩
  let _ ← metadataJson L m
  pure m

/-- The parser of stored documents. -/
def parse (s : Bytes) : Fallible Json := do
  failIf (maximumMetadataBytes + 65536 < s.length) "envelope/session document exceeds limit"
  L.parseText s

/-- Equality of a JSON number with one, which compares across the number types. -/
def isOne : Json → Bool
  | .int n => n = 1
  | .real x => x.bits = 0x3FF0000000000000
  | _ => false

/-! ## RAW documents -/

def encodeRawMetadata (raw : RawMetadata) : Fallible Bytes := do
  text L raw.originalName 4096 true
  text L raw.mediaType 256 true
  failIf (raw.originalName = ascii "." ∨ raw.originalName = ascii ".." ∨ 47 ∈ raw.originalName
    ∨ 92 ∈ raw.originalName) "RAW original name must be a basename"
  let metadata ← metadataJson L raw.annotations
  L.dump (.object
    [(ascii "schemaVersion", .int 1), (ascii "originalName", .str raw.originalName),
      (ascii "mediaType", .str raw.mediaType), (ascii "metadata", metadata)])

def decodeRawMetadata (s : Bytes) : Fallible RawMetadata := do
  let j ← parse L s
  failIf (j.isObject = false ∨ j.size ≠ 4) "unknown RAW envelope schema"
  failIf (isOne (← j.member (ascii "schemaVersion")) = false) "unknown RAW envelope schema"
  let originalName ← (← j.member (ascii "originalName")).getStr
  let mediaType ← (← j.member (ascii "mediaType")).getStr
  let annotations ← parseMetadata L (← j.member (ascii "metadata"))
  let raw : RawMetadata := ⟨originalName, mediaType, annotations⟩
  let encoded ← encodeRawMetadata L raw
  failIf (encoded ≠ s) "noncanonical RAW metadata"
  pure raw

/-! ## Session contexts -/

def encodeSessionContext (s : ObjectSessionContext) : Fallible Bytes := do
  text L s.application 4096 false
  text L s.applicationVersion 256 false
  text L s.project 4096 false
  text L s.document 4096 false
  failIf (64 < s.attributes.entries.length) "too many work-session attributes"
  s.attributes.entries.forM fun e => do
    text L e.1 256 true
    text L e.2 16384 false
    failIf (credential e.1) "runtime credentials are forbidden in work sessions"
  if s = .empty then pure [] else
    let result ← L.dump (.object
      [(ascii "schemaVersion", .int 1), (ascii "application", .str s.application),
        (ascii "applicationVersion", .str s.applicationVersion),
        (ascii "project", .str s.project), (ascii "document", .str s.document),
        (ascii "attributes", s.attributes.json)])
    failIf (maximumMetadataBytes < result.length) "work-session context exceeds 256 KiB"
    pure result

def decodeSessionContext (s : Bytes) : Fallible ObjectSessionContext := do
  if s = [] then pure .empty else
    let j ← parse L s
    failIf (j.isObject = false ∨ j.size ≠ 6) "unknown work-session context schema"
    failIf (isOne (← j.member (ascii "schemaVersion")) = false)
      "unknown work-session context schema"
    let application ← (← j.member (ascii "application")).getStr
    let applicationVersion ← (← j.member (ascii "applicationVersion")).getStr
    let project ← (← j.member (ascii "project")).getStr
    let document ← (← j.member (ascii "document")).getStr
    let attributes ← getStringMap (← j.member (ascii "attributes"))
    let result : ObjectSessionContext :=
      ⟨application, applicationVersion, project, document, attributes⟩
    let encoded ← encodeSessionContext L result
    failIf (encoded ≠ s) "noncanonical work-session context"
    pure result

end MetadataCodec

end FileProvider
