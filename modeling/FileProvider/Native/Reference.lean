import FileProvider.Library.JsonReference
import FileProvider.Native.Profiles

/-!
# A native library to compute with

Texts that are composed already, and the digest of a text that is a line end.

Samples compute with it, as it needs no table of Unicode. The texts of the samples are ASCII, on
which every library agrees with this one.
-/

namespace FileProvider

open Bytes

/-- Texts that are composed already. -/
def Utf8proc.reference : Utf8proc where
  compose := id
  compatible := id
  lower c := if 65 ≤ c.toNat ∧ c.toNat ≤ 90 then Char.ofNat (c.toNat + 32) else c
  compose_idem _ := rfl
  compose_part _ _ _ _ := rfl
  compose_ascii _ _ := rfl

/-- The libraries to compute with. -/
def NativeLibraries.reference : NativeLibraries where
  unicode := .reference
  json := JsonReference.library
  zone _ := false
  sha256 _ := ascii "01ba4719c80b6fe911b091a7c05124b64eeece964e09c058ef8f9805daca546b"
  sha256_digits _ := by decide +kernel

end FileProvider
