import FileProvider.Object.Codec

/-!
# Argument checks

The checks a call makes on its arguments before it writes: field lengths, author and
authorship documents, logical paths. A document is read with SQLite's JSON functions, which
see repeated members; `validateDocument` follows a roster into the profiles of its authors.

A check throws with the text of the source, or passes. Documents are values of JSON in which a
member can be repeated, as SQLite reads them, so `anyKey` and `repeatsKey` ask about members at any
depth.
-/

namespace FileProvider

open Bytes Fallible

/-- A key of 128 random bits. -/
def uniqueKey (random : Fin 16 → UInt8) (kind : Bytes) : Bytes :=
  kind ++ hex (List.ofFn random)

def field (s : Bytes) (max : Nat) (required : Bool) : Fallible Unit :=
  failIf ((required ∧ s = []) ∨ max < s.length ∨ 0 ∈ s) "invalid object metadata"

/-- The format of an author's profile. -/
def fileAuthorFormat : Bytes := ascii "iiFileProvider.FileAuthor/1"

/-- The format of a roster of authors. -/
def authorshipFormat : Bytes := ascii "iiFileProvider.Authorship/3"

def metadataValid (document : ObjectMetadata) : Fallible Unit := do
  field document.format 128 false
  field document.payload (2 * 1024 * 1024) false
  failIf ((document.format = []) ≠ (document.payload = []))
    "incomplete object metadata document"
  failIf (document.format ≠ [] ∧ document.format ≠ fileAuthorFormat
    ∧ document.format ≠ authorshipFormat) "unsupported object metadata document format"

def authorValid (author : ObjectAuthor) : Fallible Unit := do
  field author.origin 2048 true
  field author.subject 1024 true
  field author.displayName 4096 false
  metadataValid author.profile
  failIf (author.profile.format ≠ [] ∧ author.profile.format ≠ fileAuthorFormat)
    "actor profile requires FileAuthor metadata"

def authorshipValid (document : ObjectMetadata) : Fallible Unit := do
  metadataValid document
  failIf (document.format ≠ [] ∧ document.format ≠ authorshipFormat)
    "original authorship requires an Authorship roster"

/-! ## Author documents -/

namespace AuthorDocument

/-- ASCII lower case, as SQLite's `lower` maps it. -/
def lower (s : Bytes) : Bytes :=
  s.map fun c => if 65 ≤ c.toNat ∧ c.toNat ≤ 90 then c + 32 else c

/-- The member names of a roster. -/
def authorshipFields : List Bytes :=
  [ascii "schemaVersion", ascii "revision", ascii "modifiedAt", ascii "authors",
    ascii "lastAuthor", ascii "firstEditor", ascii "participants", ascii "links"]

/-- The member names of a profile. -/
def profileFields : List Bytes :=
  [ascii "schemaVersion", ascii "account", ascii "details", ascii "attribution",
    ascii "serviceOrigin", ascii "capturedAt", ascii "device"]

/-- The names of runtime credentials. -/
def credentials : List Bytes :=
  [ascii "token", ascii "secret", ascii "authenticationtoken", ascii "accesstoken",
    ascii "refreshtoken", ascii "access_token", ascii "refresh_token", ascii "password",
    ascii "authorization"]

mutual

/-- Some key anywhere in the document satisfies `p`. -/
def anyKey (p : Bytes → Bool) : Json → Bool
  | .arr elements => anyKeyElements p elements
  | .obj members => anyKeyMembers p members
  | _ => false

def anyKeyElements (p : Bytes → Bool) : List Json → Bool
  | [] => false
  | x :: xs => anyKey p x || anyKeyElements p xs

def anyKeyMembers (p : Bytes → Bool) : List (Bytes × Json) → Bool
  | [] => false
  | (k, v) :: ms => p k || anyKey p v || anyKeyMembers p ms

end

mutual

/-- Some object anywhere in the document repeats a key. -/
def repeatsKey : Json → Bool
  | .arr elements => repeatsKeyElements elements
  | .obj members => decide (¬ (members.map (·.1)).Nodup) || repeatsKeyMembers members
  | _ => false

def repeatsKeyElements : List Json → Bool
  | [] => false
  | x :: xs => repeatsKey x || repeatsKeyElements xs

def repeatsKeyMembers : List (Bytes × Json) → Bool
  | [] => false
  | (_, v) :: ms => repeatsKey v || repeatsKeyMembers ms

end

def isArray : Option Json → Bool
  | some (.arr _) => true
  | _ => false

def isObject : Option Json → Bool
  | some (.obj _) => true
  | _ => false

variable (P : Platform)

/-- A text column read from `json_extract`: strings as they are, arrays and objects as JSON. -/
def textOf : Option Json → Fallible Bytes
  | some (.str s) => .ok s
  | some (.arr l) => .ok (P.sqliteText (.arr l))
  | some (.obj l) => .ok (P.sqliteText (.obj l))
  | _ => .error "invalid object text field"

/-- `json_extract(value, '$.author')` for an element of a roster. A string element is read as
the JSON text it holds. -/
def authorOf : Json → Fallible (Option Json)
  | .str s => do
      let inner ← orFail "malformed JSON" (P.sqliteArgument s)
      pure (inner.member? (ascii "author"))
  | j => .ok (j.member? (ascii "author"))

/-- The checks on one document, which do not look into its roster. -/
def check (document : ObjectMetadata) : Fallible (Option Json) := do
  metadataValid document
  if document.payload = [] then pure none else
    let j ← orFail "invalid object metadata JSON" (P.sqliteJson document.payload)
    let authorship : Bool := document.format = authorshipFormat
    failIf (j.isObject = false ∨ j.member? (ascii "schemaVersion")
      ≠ some (.int (if authorship then 3 else 1))) "invalid object metadata schema"
    let members ← j.getMembers
    let allowed := if authorship then authorshipFields else profileFields
    failIf (∃ m ∈ members, m.1 ∉ allowed) "unknown object metadata field"
    failIf (anyKey (fun k => credentials.contains (lower k)) j)
      "runtime credentials are forbidden in object metadata"
    failIf (repeatsKey j) "duplicate object metadata key"
    let shape : Bool :=
      if authorship then isArray (j.member? (ascii "authors"))
        && isArray (j.member? (ascii "participants")) && isArray (j.member? (ascii "links"))
      else isObject (j.member? (ascii "account")) && isObject (j.member? (ascii "details"))
        && isObject (j.member? (ascii "attribution"))
    failIf (shape = false) "incomplete object metadata document"
    pure (some j)

end AuthorDocument

open AuthorDocument in
def validateDocument (P : Platform) (document : ObjectMetadata) : Fallible Unit := do
  let checked ← check P document
  match checked with
  | some j =>
      if document.format = authorshipFormat then
        match j.member? (ascii "authors") with
        | some (.arr authors) =>
            authors.zipIdx.forM fun (author, count) => do
              failIf (256 ≤ count) "too many object authors"
              let payload ← textOf P (← authorOf P author)
              -- A profile has no roster of its own, so the recursion of the source ends here.
              let _ ← check P ⟨fileAuthorFormat, payload⟩
              pure ()
        | _ => pure ()
      else pure ()
  | none => pure ()

open AuthorDocument in
def validateActor (P : Platform) (author : ObjectAuthor) : Fallible Unit := do
  validateDocument P author.profile
  if author.profile.payload = [] then pure () else
    let j ← orFail "malformed JSON" (P.sqliteArgument author.profile.payload)
    let subject ← textOf P ((j.member? (ascii "account")).bind (·.member? (ascii "sub")))
    failIf (subject ≠ author.subject) "object actor profile identity mismatch"
    let origin ← textOf P (j.member? (ascii "serviceOrigin"))
    failIf (origin ≠ author.origin) "object actor profile identity mismatch"

/-! ## Logical paths -/

/-- The components of a path. -/
def components (path : Bytes) : List Bytes := path.splitOn 47

def pathValid (path : Bytes) : Fallible Unit := do
  field path 32768 true
  failIf (path.head? = some 47 ∨ path.getLast? = some 47 ∨ 92 ∈ path ∨ 58 ∈ path)
    "logical object path must be relative"
  failIf (∃ part ∈ components path, part = [] ∨ part = ascii "." ∨ part = ascii "..")
    "logical object path contains traversal"

end FileProvider
