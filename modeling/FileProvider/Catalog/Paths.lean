import FileProvider.Library.Bytes
import FileProvider.Library.Outcome

/-!
# Managed paths

`relativePath`: the spellings under which a file can be managed. A path is relative and in its
normal form, none of its parts is a name the provider or a native system keeps for itself, and it
is not the name of a companion or a preview.

The checks are made on the bytes of a path, part by part, and the texts of the exceptions are those
of the source. What the checks mean is proved in `Confinement`.
-/

namespace FileProvider

open Bytes Fallible

namespace Catalog

/-- The name of the directory of the catalog. -/
def privateDirectory : Bytes := ascii ".iisacc-file-provider"

/-- What the name of a companion ends in. -/
def companionSuffix : Bytes := ascii ".iisacc.json"

/-- What the name of a preview ends in. -/
def previewSuffix : Bytes := ascii ".iisacc-preview"

/-- A byte with upper-case ASCII letters in lower case. -/
def lower (b : UInt8) : UInt8 := if 65 ≤ b.toNat ∧ b.toNat ≤ 90 then b + 32 else b

/-- The parts of a path between its separators. -/
def parts (path : Bytes) : List Bytes := path.splitOn 47

/-- The paths of the directories a path leads through. -/
def ancestors (path : Bytes) : List Bytes :=
  (List.range path.length).filterMap fun i =>
    if path[i]? = some 47 then some (path.take i) else none

/-- One part of a path in `lexically_normal`: the parts before it, the last one first, and
whether the path so far ends in a separator. -/
def normalStep (acc : List Bytes × Bool) (part : Bytes) : List Bytes × Bool :=
  if part = [] ∨ part = ascii "." then (acc.1, true)
  else if part = ascii ".." then
    match acc.1 with
    | [] => ([part], false)
    | top :: rest => if top = ascii ".." then (part :: acc.1, false) else (rest, true)
  else (part :: acc.1, false)

/-- `lexically_normal` of a relative path. -/
def lexicallyNormal (path : Bytes) : Bytes :=
  let normal := (parts path).foldl normalStep ([], false)
  match normal.1 with
  | [] => ascii "."
  | last :: _ =>
      List.intercalate [47] normal.1.reverse
        ++ (if normal.2 = true ∧ last ≠ ascii ".." then [47] else [])

/-- The name up to its first dot, without spaces at its end, in lower case. -/
def deviceBase (name : Bytes) : Bytes :=
  (((name.takeWhile (· ≠ 46)).reverse.dropWhile (· = 32)).reverse).map lower

/-- The names that stand for a native device. -/
def reservedDevice (name : Bytes) : Bool :=
  let base := deviceBase name
  let suffix := base.drop 3
  [ascii "con", ascii "prn", ascii "aux", ascii "nul", ascii "conin$",
    ascii "conout$"].contains base
    || ((ascii "com").isPrefixOf base || (ascii "lpt").isPrefixOf base)
      && ((List.range 9).any (fun n => suffix = [(49 + n).toUInt8])
        || [[0xC2, 0xB9], [0xC2, 0xB2], [0xC2, 0xB3]].contains suffix)

/-- The names the provider keeps for itself. -/
def providerControl (name : Bytes) : Bool :=
  let control := name.map lower
  control = privateDirectory || control = ascii ".iisacc-temporary.lock"
    || (ascii ".iifile-stage-").isPrefixOf control || (ascii ".society-extract-").isPrefixOf control

def partValid (name : Bytes) : Fallible Unit := do
  failIf (name = [] ∨ providerControl name = true ∨ 220 < name.length
      ∨ name.getLast? = some 32 ∨ name.getLast? = some 46
      ∨ name.any (fun c => c ∈ ascii "<>\"|?*") = true ∨ name.any (fun c => c < 32) = true)
    "private or nonportable managed path"
  failIf (reservedDevice name = true) "reserved native device name"

/-- The checks of `relativePath` on a path that is not empty. -/
def pathValid (text : Bytes) : Fallible Unit := do
  let folded := text.map lower
  failIf (text = [] ∨ text.head? = some 47 ∨ 92 ∈ text ∨ 58 ∈ text ∨ 0 ∈ text
      ∨ companionSuffix <:+ folded ∨ previewSuffix <:+ folded) "invalid managed file path"
  failIf (lexicallyNormal text ≠ text) "noncanonical managed path"
  (parts text).forM partValid

end Catalog

end FileProvider
