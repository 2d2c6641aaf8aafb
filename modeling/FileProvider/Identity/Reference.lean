import FileProvider.Identity.Contract

/-!
# A Qt library to compute with

Addresses without a port, as their texts, times in UTC, as theirs, and the length of a compact
document whose texts need no escapes.

The samples about credentials and ledgers compute with it. Its addresses and times are compared as
texts, so their equality is the equivalence that is asked of a library.
-/

namespace FileProvider

open Bytes

mutual

/-- The length of the compact text of a value whose texts are plain and whose numbers have one
digit. -/
def QJsonValue.plainSize : QJsonValue → Nat
  | .null => 4
  | .bool true => 4
  | .bool false => 5
  | .double _ => 1
  | .string s => s.length + 2
  | .array elements => 2 + QJsonValue.elementsSize elements
  | .object members => 2 + QJsonValue.membersSize members

def QJsonValue.elementsSize : List QJsonValue → Nat
  | [] => 0
  | [x] => x.plainSize
  | x :: y :: l => x.plainSize + 1 + QJsonValue.elementsSize (y :: l)

def QJsonValue.membersSize : List (QString × QJsonValue) → Nat
  | [] => 0
  | [(key, x)] => key.length + 3 + x.plainSize
  | (key, x) :: m :: l => key.length + 3 + x.plainSize + 1 + QJsonValue.membersSize (m :: l)

end

open Identity in
/-- Addresses without a port, as their texts, and times in UTC, as theirs. -/
def QtLibraries.plain : QtLibraries where
  Url := QString
  strict := id
  isValid url := (units "https://").isPrefixOf url || url.head? = some 47
  isEmpty url := url.isEmpty
  fullyEncoded := id
  toEncoded url := url.map fun u => u.toNat.toUInt8
  noUrl := []
  equal u v := u = v
  scheme url := url.takeWhile (· ≠ 58)
  host url := (url.drop 8).takeWhile (· ≠ 47)
  userInfo _ := []
  path url := (url.drop 8).dropWhile (· ≠ 47)
  encodedPath url := (url.drop 8).dropWhile (· ≠ 47)
  hasQuery url := url.contains 63
  hasFragment url := url.contains 35
  isRelative url := url.head? = some 47
  withoutPath url := url.take 8 ++ (url.drop 8).takeWhile (· ≠ 47)
  resolved origin url := origin ++ url
  setPath url path := url.take 8 ++ (url.drop 8).takeWhile (· ≠ 47) ++ path
  port _ := -1
  setPort url _ := url
  DateTime := QString
  noDate := []
  dateValid date := !date.isEmpty
  toUTC := id
  fromIso := id
  toIso := id
  before a b := a.map UInt16.toNat < b.map UInt16.toNat
  zoneValid zone := zone = units "UTC"
  compactSize json := 2 + QJsonValue.membersSize json
  equal_refl _ := decide_eq_true rfl
  equal_symm h := decide_eq_true (of_decide_eq_true h).symm
  equal_trans h h' := decide_eq_true ((of_decide_eq_true h).trans (of_decide_eq_true h'))

end FileProvider
