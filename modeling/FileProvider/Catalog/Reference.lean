import FileProvider.Catalog.Calls
import FileProvider.Library.JsonReference

/-!
# A catalog to compute with

The libraries of a catalog whose texts are ASCII, and a catalog without files. A text that is not
ASCII has no normal form here.

What is proved of catalogs is proved for all libraries; these are for samples, which compute with
them. They satisfy the laws that a `Unicode` has to have: composing again changes nothing, no NUL
comes in, and ASCII is composed.
-/

namespace FileProvider

open Bytes

namespace Unicode

/-- The normal form of ASCII texts. -/
def reference : Unicode where
  map fold s := if s.all (· < 128) then some (if fold then s.map Catalog.lower else s) else none
  map_idem s t h := by
    split at h
    · next hs =>
        obtain rfl : s = t := Option.some.inj h
        exact if_pos hs
    · cases h
  map_nul s t h := by
    split at h
    · obtain rfl : s = t := Option.some.inj h
      exact id
    · cases h
  map_ascii s h := if_pos (List.all_eq_true.2 fun b hb => decide_eq_true (h b hb))

end Unicode

/-- The libraries to compute with. -/
def CatalogLibraries.reference : CatalogLibraries := ⟨.reference, JsonReference.library⟩

namespace Catalog

/-- A catalog without files, in a root where nothing stands. -/
def sample : Catalog := ⟨⟨true, fun _ => none⟩, .empty (ascii "c")⟩

/-- The random bytes of the keys of a sample. -/
def sampleDraws (n : UInt8) : KeyDraws := ⟨fun _ => n, fun _ => n + 1⟩

/-- The native state of a file of a sample. -/
def samplePhysical (identity version : String) (size : Nat) : Physical :=
  ⟨ascii identity, ascii version, size, 0⟩

end Catalog

end FileProvider
