import FileProvider.Native.Accounts

/-!
# The values of profiles

What a profile is read into is a canonical value of JSON. So its text is read back as this value,
and two authors with one text are one author.

A canonical value is one that the parser can build: the keys of an object ascend, and numbers are
within their bounds. Each part of a profile is shown to be so from what its reader accepted, and the
whole follows part by part.
-/

namespace FileProvider

open Bytes Fallible

namespace Native

variable {E : NativeLibraries} {value data : Json}

/-! ## Parts -/

/-- Texts that are read by their limits stand under the keys of the limits. -/
theorem keys_of_texts {limits : List (Bytes × Nat)} {read : Bytes × Nat → Fallible Bytes}
    {texts : List (Bytes × Bytes)}
    (h : (limits.mapM fun limit => do
      let value ← read limit
      pure (limit.1, value)) = .ok texts) : texts.map (·.1) = limits.map (·.1) := by
  induction limits generalizing texts with
  | nil =>
      obtain rfl := pure_ok.1 h
      rfl
  | cons limit limits ih =>
      simp only [List.mapM_cons, bind_ok, pure_ok] at h
      obtain ⟨_, ⟨text, -, rfl⟩, rest, hrest, rfl⟩ := h
      rw [List.map_cons, List.map_cons, ih hrest]

/-- The document of an avatar is canonical. -/
theorem canonical_avatar {service : Bytes} {account : Json}
    (h : avatarOf service account = .ok data) : data.Canonical := by
  unfold avatarOf at h
  split at h
  · obtain rfl := pure_ok.1 h
    trivial
  · simp only [bind_ok, pure_ok] at h
    obtain ⟨_, -, rfl⟩ := h
    trivial
  · cases h

/-- The document of an account is canonical. -/
theorem canonical_account {service : Bytes} (h : accountOf E service value = .ok data) :
    data.Canonical := by
  obtain ⟨a, ha, rfl⟩ := accountOf_ok.1 h
  refine Json.canonical_object ?_ ?_
  · show accountKeys.Nodup
    decide
  · simp only [List.forall_mem_cons]
    exact ⟨trivial, trivial, trivial, trivial, trivial, canonical_avatar ha.avatar,
      List.forall_mem_nil _⟩

/-- The document of a profile's link is canonical. -/
theorem canonical_link (h : linkOf E value = .ok data) : data.Canonical := by
  simp only [linkOf, bind_ok, pure_ok] at h
  obtain ⟨_, -, relation, -, label, -, url, -, _, -, rfl⟩ := h
  refine Json.canonical_object ?_ ?_
  · show [ascii "relation", ascii "label", ascii "url"].Nodup
    decide
  · simp only [List.forall_mem_cons]
    exact ⟨trivial, trivial, trivial, List.forall_mem_nil _⟩

/-- The document of an identifier is canonical. -/
theorem canonical_identifier (h : identifierOf E value = .ok data) : data.Canonical := by
  simp only [identifierOf, bind_ok, pure_ok] at h
  obtain ⟨_, -, scheme, -, text, -, rfl⟩ := h
  refine Json.canonical_object ?_ ?_
  · show [ascii "scheme", ascii "value"].Nodup
    decide
  · simp only [List.forall_mem_cons]
    exact ⟨trivial, trivial, List.forall_mem_nil _⟩

/-- The elements that are read of a list are canonical when each is. -/
theorem canonical_mapM {read : Json → Fallible Json} {l elements : List Json}
    (hread : ∀ j k, read j = .ok k → k.Canonical) (h : l.mapM read = .ok elements) :
    (Json.arr elements).Canonical := by
  refine Json.canonicalElements_iff.2 fun k hk => ?_
  have hmem : (Except.ok k : Fallible Json) ∈ l.map read := by
    rw [mapM_ok.1 h]
    exact List.mem_map_of_mem hk
  obtain ⟨j, -, hj⟩ := List.mem_map.1 hmem
  exact hread j k hj

/-- The details that are read, with whatever address. -/
theorem canonical_detailsObject {details : Json} {texts : List (Bytes × Bytes)} {email : Bytes}
    {entries entries' links identifiers : List Json}
    (htexts : texts.map (·.1) = detailLimits.map (·.1))
    (hlinks : entries.mapM (linkOf E) = .ok links)
    (hidentifiers : entries'.mapM (identifierOf E) = .ok identifiers)
    (hdetails : .object (texts.map (fun t => (t.1, .str (if t.1 = ascii "contactEmail" then email
        else t.2))) ++ [(ascii "links", .arr links), (ascii "identifiers", .arr identifiers)])
      = details) : details.Canonical := by
  subst hdetails
  refine Json.canonical_object ?_ fun m hm => ?_
  · rw [List.map_append, List.map_map]
    show (texts.map (·.1) ++ [ascii "links", ascii "identifiers"]).Nodup
    rw [htexts]
    decide
  · rcases List.mem_append.1 hm with hm | hm
    · obtain ⟨t, -, rfl⟩ := List.mem_map.1 hm
      trivial
    · simp only [List.mem_cons, List.not_mem_nil, or_false] at hm
      rcases hm with rfl | rfl
      · exact canonical_mapM (fun _ _ => canonical_link) hlinks
      · exact canonical_mapM (fun _ _ => canonical_identifier) hidentifiers

/-- The document of details is canonical. -/
theorem canonical_details (h : detailsOf E value = .ok data) : data.Canonical := by
  simp only [detailsOf, bind_ok] at h
  obtain ⟨_, -, _, -, _, -, _, -, texts, htexts, _, -, _, -, _, -, h⟩ := h
  -- the address of the details may be missing
  split at h
  · simp only [bind_ok, pure_ok] at h
    obtain ⟨_, -, _, -, links, hlinks, _, -, identifiers, hidentifiers, hdata⟩ := h
    exact canonical_detailsObject (keys_of_texts htexts) hlinks hidentifiers hdata
  · simp only [bind_ok, pure_ok] at h
    obtain ⟨_, -, _, -, _, -, _, -, links, hlinks, _, -, identifiers, hidentifiers, hdata⟩ := h
    exact canonical_detailsObject (keys_of_texts htexts) hlinks hidentifiers hdata

/-- The document of a date is canonical. -/
theorem canonical_date (time : Bytes) : (dateValue time).Canonical := by
  unfold dateValue
  split <;> trivial

/-- The document of an attribution is canonical. -/
theorem canonical_attribution (h : attributionOf E value = .ok data) : data.Canonical := by
  simp only [attributionOf, bind_ok, pure_ok] at h
  obtain ⟨_, -, _, -, roles, -, _, -, texts, htexts, _, -, created, -, modified, -, _, -, rfl⟩ := h
  refine Json.canonical_object ?_ fun m hm => ?_
  · rw [List.map_append, List.map_map]
    show (texts.map (·.1) ++ [ascii "roles", ascii "createdAt", ascii "modifiedAt"]).Nodup
    rw [keys_of_texts htexts]
    decide
  · rcases List.mem_append.1 hm with hm | hm
    · obtain ⟨t, -, rfl⟩ := List.mem_map.1 hm
      trivial
    · simp only [List.mem_cons, List.not_mem_nil, or_false] at hm
      rcases hm with rfl | rfl | rfl
      · refine Json.canonicalElements_iff.2 fun k hk => ?_
        obtain ⟨role, -, rfl⟩ := List.mem_map.1 hk
        trivial
      · exact canonical_date created
      · exact canonical_date modified

/-- The document of a device is canonical. -/
theorem canonical_device (h : deviceOf E value = .ok data) : data.Canonical := by
  unfold deviceOf at h
  split at h
  · obtain rfl := pure_ok.1 h
    trivial
  · simp only [bind_ok, pure_ok] at h
    obtain ⟨_, -, texts, htexts, _, -, rfl⟩ := h
    refine Json.canonical_object ?_ fun m hm => ?_
    · rw [List.map_map]
      show (texts.map (·.1)).Nodup
      rw [keys_of_texts htexts]
      decide
    · obtain ⟨t, -, rfl⟩ := List.mem_map.1 hm
      trivial

/-! ## Profiles -/

/-- A value that equals an integer is one, or a finite number. -/
theorem canonical_of_equal {n : Int} (hn : -(2 ^ 63) ≤ n ∧ n < 2 ^ 64)
    (h : value.equal (.int n) = true) : value.Canonical := by
  cases value with
  | int m =>
      obtain rfl : m = n := by simpa [Json.equal, Json.beq] using h
      exact hn
  | real x =>
      have hinteger : x.isInteger n = true := h
      simp only [Double.isInteger, Bool.and_eq_true] at hinteger
      exact hinteger.1.1
  | _ => simp [Json.equal, Json.beq] at h

/-- The document of a profile is canonical, so it is printed and read back. -/
theorem canonical_profile (h : profile E value = .ok data) : data.Canonical := by
  simp only [profile, bind_ok, pure_ok, require_ok] at h
  obtain ⟨_, -, _, -, _, -, version, -, _, hversion, _, -, service, -, capturedAt, -, _, -, account,
    haccount, details, hdetails, attribution, hattribution, device, hdevice, _, -, _, -, rfl⟩ := h
  refine Json.canonical_object ?_ ?_
  · show [ascii "schemaVersion", ascii "serviceOrigin", ascii "capturedAt", ascii "account",
      ascii "details", ascii "attribution", ascii "device"].Nodup
    decide
  · simp only [List.forall_mem_cons]
    exact ⟨canonical_of_equal (by decide) hversion, trivial, trivial, canonical_account haccount,
      canonical_details hdetails, canonical_attribution hattribution, canonical_device hdevice,
      List.forall_mem_nil _⟩

end Native

/-! ## Authors -/

namespace FileAuthor

variable {E : NativeLibraries} {a b : FileAuthor} {snapshot : Bytes}

/-- An author that is read from some text. -/
def Made (E : NativeLibraries) (a : FileAuthor) : Prop :=
  ∃ snapshot, fromJsonText E snapshot = some a

/-- An author is a canonical value: its text, and what is read of it. -/
theorem Made.value (h : a.Made E) : ∃ data, data.Canonical ∧ E.json.dump data = .ok a.profile ∧
    Native.metadataOf data = .ok a.metadata := by
  obtain ⟨snapshot, h⟩ := h
  have hread := toOption_eq_some.1 h
  simp only [ofJsonText, bind_ok, pure_ok] at hread
  obtain ⟨_, -, value, -, data, hdata, text, htext, metadata, hmetadata, rfl⟩ := hread
  exact ⟨data, Native.canonical_profile hdata, htext, hmetadata⟩

/-- Authors with one text are one author. -/
theorem Made.eq_of_profile (h : a.Made E) (h' : b.Made E) (hprofile : a.profile = b.profile) :
    a = b := by
  obtain ⟨data, hdata, hdump, hmetadata⟩ := h.value
  obtain ⟨data', hdata', hdump', hmetadata'⟩ := h'.value
  rw [← hprofile] at hdump'
  obtain rfl := JsonLibrary.dump_injective hdata hdata' hdump hdump'
  obtain ⟨metadata, profile⟩ := a
  obtain ⟨metadata', profile'⟩ := b
  obtain rfl : profile = profile' := hprofile
  obtain rfl : metadata = metadata' := Except.ok.inj (hmetadata.symm.trans hmetadata')
  rfl

end FileAuthor

end FileProvider
