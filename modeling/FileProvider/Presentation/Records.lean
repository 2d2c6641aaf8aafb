import FileProvider.Crypto.Hashers
import FileProvider.Library.JsonReference
import FileProvider.Presentation.Base64

/-!
# Presentation documents

`serialize` writes the version of a file, its details and its preview as a JSON document, with the
SHA-256 of the preview's bytes; `parse` reads such a document back, whoever wrote it, and accepts it
only with a valid preview of that SHA-256.

A document is read field by field, and the lemmas about reading are stated for any JSON library
whose parser reads back what it wrote. The text of the preview is that of `Presentation.Base64`, and
its checksum that of `Crypto.Hashers`.
-/

namespace FileProvider

open Bytes Fallible

namespace Presentation

/-! ## Documents -/

/-- `PresentationRecord`. -/
structure PresentationRecord where
  details : FileDetails
  preview : FilePreview
  sourceVersion : Bytes
  document : Bytes
  embedded : Bool
  cacheHit : Bool

/-- Properties as a JSON value. -/
def Properties.toJson (p : Properties) : Json :=
  Json.object (p.entries.map fun e => (e.1, .str e.2))

def FileDetails.fields (d : FileDetails) : List (Bytes × Json) :=
  [(ascii "name", .str d.name), (ascii "extension", .str d.extension),
    (ascii "mimeType", .str d.mimeType), (ascii "size", .int d.size.toNat),
    (ascii "modifiedAtNs", .int d.modifiedAtNs.toInt), (ascii "properties", d.properties.toJson)]

/-- The members for a preview, given its data and its checksum. -/
def FilePreview.fields (p : FilePreview) (data checksum : Json) : List (Bytes × Json) :=
  [(ascii "mimeType", .str p.mimeType), (ascii "kind", .str p.kind),
    (ascii "width", .int p.width.toNat), (ascii "height", .int p.height.toNat),
    (ascii "encoding", .str (ascii "base64")), (ascii "data", data), (ascii "sha256", checksum)]

/-- The members for a record, given the data of its preview and their checksum. -/
def PresentationRecord.fields (r : PresentationRecord) (data checksum : Json) :
    List (Bytes × Json) :=
  [(ascii "format", .str (ascii "iiFileProvider.Presentation")), (ascii "schema", .int 1),
    (ascii "generator", .str (ascii "iiFileProvider.Native/0.7")),
    (ascii "sourceVersion", .str r.sourceVersion), (ascii "details", .object r.details.fields),
    (ascii "preview", .object (r.preview.fields data checksum))]

/-- A record as a JSON value, given the data of its preview and their checksum. -/
def PresentationRecord.toJson (r : PresentationRecord) (data checksum : Json) : Json :=
  .object (r.fields data checksum)

def serialize (L : JsonLibrary) (r : PresentationRecord) : Fallible Bytes := do
  let checksum ← Crypto.sha256Text r.preview.bytes
  L.dump (r.toJson (.str (base64 r.preview.bytes)) (.str checksum))

/-! ## Reading -/

/-- A map of texts. -/
def getProperties (j : Json) : Fallible Properties := do
  let members ← j.getMembers
  members.foldlM (fun p m => p.put m.1 <$> m.2.getStr) ⟨[], Properties.ascending_nil⟩

def readDetails (d : Json) : Fallible FileDetails := do
  let name ← d.member (ascii "name") >>= Json.getStr
  let extension ← d.member (ascii "extension") >>= Json.getStr
  let mimeType ← d.member (ascii "mimeType") >>= Json.getStr
  let size ← d.member (ascii "size") >>= Json.getNumber
  let modifiedAtNs ← d.member (ascii "modifiedAtNs") >>= Json.getNumber
  let properties ← d.member (ascii "properties") >>= getProperties
  pure ⟨name, extension, mimeType, UInt64.ofInt size, Int64.ofInt modifiedAtNs, properties⟩

def readPreview (p : Json) : Fallible FilePreview := do
  let encoding ← p.member (ascii "encoding")
  failIf (encoding.equal (.str (ascii "base64")) = false) "Unknown preview encoding"
  let mimeType ← p.member (ascii "mimeType") >>= Json.getStr
  let kind ← p.member (ascii "kind") >>= Json.getStr
  let bytes ← p.member (ascii "data") >>= Json.getStr >>= unbase64
  let width ← p.member (ascii "width") >>= Json.getUnsigned 32
  let height ← p.member (ascii "height") >>= Json.getUnsigned 32
  pure ⟨mimeType, kind, bytes, width.toUInt32, height.toUInt32⟩

def parse (L : JsonLibrary) (input : Bytes) : Fallible PresentationRecord := do
  failIf (maximumDocumentBytes < input.length) "Presentation document exceeds limit"
  let j ← L.parseText input
  let format ← j.member (ascii "format")
  failIf (format.equal (.str (ascii "iiFileProvider.Presentation")) = false)
    "Unknown presentation document"
  let schema ← j.member (ascii "schema")
  failIf (schema.equal (.int 1) = false) "Unknown presentation document"
  let sourceVersion ← j.member (ascii "sourceVersion") >>= Json.getStr
  let d ← j.member (ascii "details")
  let p ← j.member (ascii "preview")
  let details ← readDetails d
  let preview ← readPreview p
  validatePreview preview false
  let checksum ← Crypto.sha256Text preview.bytes
  let expected ← p.member (ascii "sha256") >>= Json.getStr
  failIf (checksum ≠ expected) "Preview checksum mismatch"
  pure ⟨details, preview, sourceVersion, input, false, false⟩

/-! ## Properties -/

/-- A property behind all others is put behind them. -/
theorem put_last {p : Properties} {name value : Bytes}
    (h : Keyset.Ascending (fun e => order e.1) (p.entries ++ [(name, value)])) :
    p.put name value = ⟨p.entries ++ [(name, value)], h⟩ := by
  have hnodup := h.nodup_keys
  have hothers : p.entries.filter (fun e => e.1 ≠ name) = p.entries := by
    refine List.filter_eq_self.2 fun e he => decide_eq_true fun heq => ?_
    rw [List.map_append, List.nodup_append] at hnodup
    exact hnodup.2.2 _ (List.mem_map_of_mem he) _ List.mem_cons_self (by rw [heq])
  have hentries : (p.put name value).entries = p.entries ++ [(name, value)] := by
    refine (p.put name value).ascending.eq_of_perm h ?_
    show (Keyset.orderBy _ _).Perm _
    rw [hothers]
    exact (Keyset.orderBy_perm _).trans (List.perm_append_singleton _ _).symm
  cases hp : p.put name value with
  | mk entries ascending =>
      rw [hp] at hentries
      subst hentries
      rfl

/-- Members in ascending order are put one behind the other, by induction on the list. -/
theorem foldlM_put : ∀ (l : List (Bytes × Bytes)) (p : Properties)
    (h : Keyset.Ascending (fun e => order e.1) (p.entries ++ l)),
    (l.map fun e => (e.1, Json.str e.2)).foldlM
      (fun (p : Properties) m => p.put m.1 <$> m.2.getStr) p = .ok ⟨p.entries ++ l, h⟩
  | [], p, h => by
      simp only [List.map_nil, List.foldlM_nil, List.append_nil]
      rfl
  | e :: l, p, h => by
      have hsplit : p.entries ++ e :: l = (p.entries ++ [e]) ++ l := by
        rw [List.append_assoc, List.singleton_append]
      have hfirst : Keyset.Ascending (fun e : Bytes × Bytes => order e.1) (p.entries ++ [e]) := by
        rw [hsplit] at h
        exact (List.pairwise_append.1 h).1
      rw [List.map_cons, List.foldlM_cons]
      show (pure (p.put e.1 e.2) >>= _) = _
      rw [pure_bind, put_last hfirst, foldlM_put l ⟨p.entries ++ [e], hfirst⟩ (hsplit ▸ h)]
      simp only [List.append_assoc, List.singleton_append]

/-- The properties of a document come in ascending order. -/
theorem properties_ascending (p : Properties) :
    Keyset.Ascending (fun m => order m.1) (p.entries.map fun e => (e.1, Json.str e.2)) :=
  List.pairwise_map.2 p.ascending

/-- Properties are read back from their document. -/
theorem getProperties_toJson (p : Properties) : getProperties p.toJson = .ok p := by
  unfold Properties.toJson Json.object
  rw [Keyset.orderBy_eq_self (properties_ascending p)]
  exact foldlM_put p.entries ⟨[], .nil⟩ p.ascending

/-! ## Texts -/

/-- Details whose texts are UTF-8. -/
structure FileDetails.Utf8 (d : FileDetails) : Prop where
  name : Json.validUtf8 d.name = true
  extension : Json.validUtf8 d.extension = true
  mimeType : Json.validUtf8 d.mimeType = true
  properties : ∀ e ∈ d.properties.entries, Json.validUtf8 e.1 = true ∧ Json.validUtf8 e.2 = true

/-! ## Fields -/

section

variable {d : FileDetails} {p q : FilePreview} {r r' : PresentationRecord} {data checksum : Json}

/-- The members of details are distinct. -/
theorem details_nodup (d : FileDetails) : (d.fields.map (·.1)).Nodup := by
  show [ascii "name", ascii "extension", ascii "mimeType", ascii "size", ascii "modifiedAtNs",
    ascii "properties"].Nodup
  decide

/-- The members of a preview are distinct. -/
theorem preview_nodup (p : FilePreview) (data checksum : Json) :
    ((p.fields data checksum).map (·.1)).Nodup := by
  show [ascii "mimeType", ascii "kind", ascii "width", ascii "height", ascii "encoding",
    ascii "data", ascii "sha256"].Nodup
  decide

/-- The members of a record are distinct. -/
theorem record_nodup (r : PresentationRecord) (data checksum : Json) :
    ((r.fields data checksum).map (·.1)).Nodup := by
  show [ascii "format", ascii "schema", ascii "generator", ascii "sourceVersion", ascii "details",
    ascii "preview"].Nodup
  decide

/-- Details are read back from their members. -/
theorem readDetails_fields (d : FileDetails) : readDetails (.object d.fields) = .ok d := by
  have hmember : ∀ f ∈ d.fields, (Json.object d.fields).member f.1 = .ok f.2 :=
    fun f hf => Json.member_object (details_nodup d) hf
  simp only [FileDetails.fields, List.forall_mem_cons, List.not_mem_nil, false_implies,
    implies_true, and_true] at hmember
  obtain ⟨hname, hextension, hmimeType, hsize, hmodified, hproperties⟩ := hmember
  have hlt := d.size.toNat_lt
  have hunsigned : UInt64.ofInt (d.size.toNat : Int) = d.size := by
    rw [UInt64.ofInt, Int.emod_eq_of_lt (by omega) (by omega), Int.toNat_natCast,
      UInt64.ofNat_toNat]
  unfold readDetails
  simp only [bind_ok, pure_ok]
  refine ⟨_, ⟨_, hname, rfl⟩, _, ⟨_, hextension, rfl⟩, _, ⟨_, hmimeType, rfl⟩, _, ⟨_, hsize, rfl⟩,
    _, ⟨_, hmodified, rfl⟩, _, ⟨_, hproperties, getProperties_toJson d.properties⟩, ?_⟩
  rw [Int64.ofInt_toInt, hunsigned]

/-- A 32-bit number is read back. -/
theorem getUnsigned_toNat (w : UInt32) :
    Json.getUnsigned 32 (.int w.toNat) = .ok w.toNat := by
  have hw := w.toNat_lt
  rw [Json.getUnsigned, Int.emod_eq_of_lt (by omega) (by omega), Int.toNat_natCast]

/-- The preview of a document, whatever stands as its data. -/
theorem readPreview_fields : readPreview (.object (p.fields data checksum)) =
    data.getStr >>= unbase64 >>= fun bytes => pure { p with bytes := bytes } := by
  have hmember : ∀ f ∈ p.fields data checksum,
      (Json.object (p.fields data checksum)).member f.1 = .ok f.2 :=
    fun f hf => Json.member_object (preview_nodup p data checksum) hf
  simp only [FilePreview.fields, List.forall_mem_cons, List.not_mem_nil, false_implies,
    implies_true, and_true] at hmember
  obtain ⟨hmimeType, hkind, hwidth, hheight, hencoding, hdata, -⟩ := hmember
  have hequal : Json.equal (.str (ascii "base64")) (.str (ascii "base64")) = true :=
    Json.equal_refl _
  unfold readPreview FilePreview.fields
  rw [hmimeType, hkind, hwidth, hheight, hencoding, hdata]
  have hword : ∀ w : UInt32, w.toNat.toUInt32 = w := fun w => UInt32.ofNat_toNat
  simp only [ok_bind, Json.getStr, hequal, getUnsigned_toNat, failIf, Bool.true_eq_false, if_false,
    hword]

/-- A preview that is accepted has a text within the limit. -/
theorem length_accepted {supplied : Bool} (h : validatePreview p supplied = .ok ()) :
    p.bytes.length ≤ maximumDocumentBytes / 2 := by
  simp only [validatePreview, bind_ok, failIf_ok] at h
  obtain ⟨-, hbounds, -⟩ := h
  exact not_lt.1 fun hlong => hbounds (.inr (.inr (.inr (.inr (.inr hlong)))))

/-- The encoded bytes of an accepted preview fit a document. -/
theorem length_base64_accepted {supplied : Bool} (h : validatePreview p supplied = .ok ()) :
    (base64 p.bytes).length ≤ maximumDocumentBytes := by
  have hlength := length_accepted h
  rw [length_base64]
  unfold maximumDocumentBytes at hlength ⊢
  omega

/-- The checksum of an accepted preview is the standard's. -/
theorem checksum_accepted {supplied : Bool} (h : validatePreview p supplied = .ok ()) :
    Crypto.sha256Text p.bytes = .ok (hex (Fips180.sha256 p.bytes)) := by
  have hlength := length_accepted h
  refine Crypto.sha256Text_eq ?_
  unfold maximumDocumentBytes at hlength
  omega

/-- What is accepted from an encoder is accepted from a document. -/
theorem validatePreview_document {supplied : Bool} (h : validatePreview p supplied = .ok ()) :
    validatePreview p false = .ok () := by
  cases supplied with
  | false => exact h
  | true =>
      unfold validatePreview at h ⊢
      by_cases hpng : p.mimeType = ascii "image/png"
      · rw [if_pos hpng] at h ⊢
        exact h
      · rw [if_neg hpng, if_neg (fun hcard => Bool.noConfusion hcard.2)] at h
        simp only [bind_ok] at h
        obtain ⟨_, _, _, herror, _⟩ := h
        cases herror

/-- A text is got from a string and from nothing else. -/
theorem getStr_ok {j : Json} {s : Bytes} : j.getStr = .ok s ↔ j = .str s := by
  cases j with
  | str t => exact ⟨fun h => congrArg Json.str (Except.ok.inj h), fun h => by cases h; rfl⟩
  | _ => exact ⟨nofun, nofun⟩

/-- **What a document is read as.** Whatever its data and its checksum are, they must be the text of
an accepted preview and the SHA-256 of its bytes. -/
theorem parse_ok {L : JsonLibrary} {input : Bytes}
    (h : L.parse input = some (r.toJson data checksum)) :
    parse L input = .ok r' ↔ input.length ≤ maximumDocumentBytes ∧ ∃ bytes,
      data = .str (base64 bytes) ∧ checksum = .str (hex (Fips180.sha256 bytes)) ∧
        validatePreview { r.preview with bytes := bytes } false = .ok () ∧
        r' = ⟨r.details, { r.preview with bytes := bytes }, r.sourceVersion, input, false,
          false⟩ := by
  have hparse : L.parseText input = .ok (r.toJson data checksum) := orFail_ok.2 h
  have hmember : ∀ f ∈ r.fields data checksum, (r.toJson data checksum).member f.1 = .ok f.2 :=
    fun f hf => Json.member_object (record_nodup r data checksum) hf
  simp only [PresentationRecord.fields, List.forall_mem_cons, List.not_mem_nil, false_implies,
    implies_true, and_true] at hmember
  obtain ⟨hformat, hschema, -, hversion, hdetails, hpreview⟩ := hmember
  have hchecksum : (Json.object (r.preview.fields data checksum)).member (ascii "sha256")
      = .ok checksum := Json.member_object (preview_nodup r.preview data checksum) (by
    simp [FilePreview.fields])
  unfold parse
  rw [hparse]
  simp only [ok_bind, hformat, hschema, hversion, hdetails, hpreview, hchecksum, Json.equal_refl,
    readDetails_fields, readPreview_fields, bind_ok, failIf_ok, pure_ok, not_lt, getStr_ok]
  constructor
  · rintro ⟨-, hlimit, _, -, _, -, version, hversion, _, ⟨bytes, ⟨text, hdata, htext⟩, rfl⟩, _,
      hvalid, _, hsum, _, hexpected, _, hsame, rfl⟩
    cases hversion
    rw [checksum_accepted hvalid] at hsum
    refine ⟨hlimit, bytes, ?_, ?_, hvalid, rfl⟩
    · rw [hdata, (unbase64_ok.1 htext).1]
    · rw [hexpected, ← not_not.1 hsame, ← Except.ok.inj hsum]
  · rintro ⟨hlimit, bytes, rfl, rfl, hvalid, rfl⟩
    exact ⟨(), hlimit, (), Bool.false_ne_true.symm, (), Bool.false_ne_true.symm, _, rfl, _,
      ⟨bytes, ⟨_, rfl, unbase64_ok.2 ⟨rfl, length_base64_accepted hvalid⟩⟩, rfl⟩, (), hvalid, _,
      checksum_accepted hvalid, _, rfl, (), not_not.2 rfl, rfl⟩

/-! ## What is written -/

/-- ASCII is valid UTF-8. -/
theorem validUtf8_all {s : Bytes} (h : s.all (fun b => b.toNat < 0x80) = true) :
    Json.validUtf8 s = true := by
  have hempty := Json.validUtf8_append (s := []) h
  rw [List.append_nil] at hempty
  rw [hempty]
  rfl

/-- The same, stated byte by byte. -/
theorem validUtf8_plain {s : Bytes} (h : ∀ b ∈ s, b.toNat < 0x80) : Json.validUtf8 s = true :=
  validUtf8_all (List.all_eq_true.2 fun b hb => decide_eq_true (h b hb))

/-- The signs of base64 are ASCII. -/
theorem sign_lt (n : Nat) : (sign n).toNat < 0x80 := by
  have hall : ∀ i : Fin 64, (alphabet.getD i.val 0).toNat < 0x80 := by decide +kernel
  exact hall ⟨n % 64, Nat.mod_lt n (by decide)⟩

/-- Encoded bytes are ASCII. -/
theorem base64_lt (s : Bytes) : ∀ b ∈ base64 s, b.toNat < 0x80 := by
  have hpadding : (61 : UInt8).toNat < 0x80 := by decide
  have hsigns : ∀ a b c, ∀ d ∈ signs a b c, d.toNat < 0x80 := by
    intro a b c d hd
    simp only [signs, List.mem_cons, List.not_mem_nil, or_false] at hd
    rcases hd with rfl | rfl | rfl | rfl
    · exact sign_lt _
    · exact sign_lt _
    · split
      · exact sign_lt _
      · exact hpadding
    · split
      · exact sign_lt _
      · exact hpadding
  fun_induction base64 s with
  | case1 => exact fun b hb => absurd hb List.not_mem_nil
  | case2 a => exact hsigns _ _ _
  | case3 a b => exact hsigns _ _ _
  | case4 a b c s ih =>
      intro d hd
      rcases List.mem_append.1 hd with hd | hd
      · exact hsigns _ _ _ d hd
      · exact ih d hd

/-- Hexadecimal texts are ASCII. -/
theorem hex_lt (s : Bytes) : ∀ b ∈ hex s, b.toNat < 0x80 := by
  have hdigit : ∀ n, n < 16 →
      (if n < 10 then (48 + n).toUInt8 else (87 + n).toUInt8).toNat < 0x80 := by decide
  intro b hb
  obtain ⟨a, -, ha⟩ := List.mem_flatMap.1 hb
  have hlt := a.toNat_lt
  rcases List.mem_pair.1 ha with rfl | rfl
  · exact hdigit _ (by omega)
  · exact hdigit _ (by omega)

/-- The document of properties is canonical. -/
theorem canonical_properties (p : Properties) : p.toJson.Canonical := by
  have hascending := properties_ascending p
  unfold Properties.toJson Json.object
  rw [Keyset.orderBy_eq_self hascending]
  refine ⟨hascending, Json.canonicalMembers_iff.2 fun m hm => ?_⟩
  obtain ⟨e, -, rfl⟩ := List.mem_map.1 hm
  trivial

/-- The document of a record is canonical. -/
theorem canonical_record (r : PresentationRecord) (s t : Bytes) :
    (r.toJson (.str s) (.str t)).Canonical := by
  have hdetails : (Json.object r.details.fields).Canonical := by
    refine Json.canonical_object (details_nodup r.details) fun m hm => ?_
    have hsize := r.details.size.toNat_lt
    have hleast := r.details.modifiedAtNs.le_toInt
    have hmost := r.details.modifiedAtNs.toInt_lt
    simp only [FileDetails.fields, List.mem_cons, List.not_mem_nil, or_false] at hm
    rcases hm with rfl | rfl | rfl | rfl | rfl | rfl
    · trivial
    · trivial
    · trivial
    · exact ⟨by omega, by omega⟩
    · exact ⟨by omega, by omega⟩
    · exact canonical_properties r.details.properties
  have hpreview : (Json.object (r.preview.fields (.str s) (.str t))).Canonical := by
    refine Json.canonical_object (preview_nodup r.preview _ _) fun m hm => ?_
    have hwidth := r.preview.width.toNat_lt
    have hheight := r.preview.height.toNat_lt
    simp only [FilePreview.fields, List.mem_cons, List.not_mem_nil, or_false] at hm
    rcases hm with rfl | rfl | rfl | rfl | rfl | rfl | rfl
    · trivial
    · trivial
    · exact ⟨by omega, by omega⟩
    · exact ⟨by omega, by omega⟩
    · trivial
    · trivial
    · trivial
  refine Json.canonical_object (record_nodup r _ _) fun m hm => ?_
  simp only [PresentationRecord.fields, List.mem_cons, List.not_mem_nil, or_false] at hm
  rcases hm with rfl | rfl | rfl | rfl | rfl | rfl
  · trivial
  · exact ⟨by decide, by decide⟩
  · trivial
  · trivial
  · exact hdetails
  · exact hpreview

/-- The kinds and types of accepted previews are plain texts. -/
theorem plain_accepted {supplied : Bool} (h : validatePreview p supplied = .ok ()) :
    Json.validUtf8 p.mimeType = true ∧ Json.validUtf8 p.kind = true := by
  have hkinds : kinds.all (fun kind => kind.all fun b => b.toNat < 0x80) = true := by decide
  have hkind : ∀ kind ∈ kinds, Json.validUtf8 kind = true := fun kind hmem =>
    validUtf8_all (List.all_eq_true.1 hkinds kind hmem)
  have hdocument := validatePreview_document h
  unfold validatePreview at hdocument
  by_cases hpng : p.mimeType = ascii "image/png"
  · rw [if_pos hpng] at hdocument
    simp only [bind_ok, failIf_ok, not_not] at hdocument
    obtain ⟨_, _, _, _, hmem⟩ := hdocument
    rw [hpng]
    exact ⟨validUtf8_all (by decide), hkind _ hmem⟩
  · rw [if_neg hpng] at hdocument
    by_cases hsvg : p.mimeType = ascii "image/svg+xml" ∧ false = false
    · rw [if_pos hsvg] at hdocument
      simp only [bind_ok, failIf_ok, not_not] at hdocument
      obtain ⟨_, _, _, _, hmem⟩ := hdocument
      rw [hsvg.1]
      exact ⟨validUtf8_all (by decide), hkind _ hmem⟩
    · rw [if_neg hsvg] at hdocument
      simp only [bind_ok] at hdocument
      obtain ⟨_, _, _, herror, _⟩ := hdocument
      cases herror

/-- An object has a text when its keys are plain and its values have texts. -/
theorem exists_dump_fields {L : JsonLibrary} {fields : List (Bytes × Json)}
    (hkeys : (fields.map (·.1)).all (fun k => k.all fun b => b.toNat < 0x80) = true)
    (h : ∀ m ∈ fields, ∃ t, Json.dump L.realText m.2 = some t) :
    ∃ t, Json.dump L.realText (.object fields) = some t :=
  Json.exists_dump_object fun m hm =>
    ⟨validUtf8_all (List.all_eq_true.1 hkeys _ (List.mem_map_of_mem hm)), h m hm⟩

/-- A record whose texts are UTF-8 has a document. -/
theorem exists_document {L : JsonLibrary} {supplied : Bool} {s u : Bytes}
    (hpreview : validatePreview r.preview supplied = .ok ())
    (hversion : Json.validUtf8 r.sourceVersion = true) (hdetails : r.details.Utf8)
    (hs : Json.validUtf8 s = true) (hu : Json.validUtf8 u = true) :
    ∃ t, L.dump (r.toJson (.str s) (.str u)) = .ok t := by
  have hplain := plain_accepted hpreview
  have htext : ∀ {s : Bytes}, Json.validUtf8 s = true →
      ∃ t, Json.dump L.realText (.str s) = some t := Json.exists_dump_str
  have hconstant : ∀ {s : Bytes}, s.all (fun b => b.toNat < 0x80) = true →
      ∃ t, Json.dump L.realText (.str s) = some t := fun h => htext (validUtf8_all h)
  have hnumber : ∀ n : Int, ∃ t, Json.dump L.realText (.int n) = some t := fun n => ⟨_, rfl⟩
  have hproperties : ∃ t, Json.dump L.realText r.details.properties.toJson = some t := by
    refine Json.exists_dump_object fun m hm => ?_
    obtain ⟨e, he, rfl⟩ := List.mem_map.1 hm
    exact ⟨(hdetails.properties e he).1, htext (hdetails.properties e he).2⟩
  have hdetailsText : ∃ t, Json.dump L.realText (.object r.details.fields) = some t := by
    refine exists_dump_fields rfl fun m hm => ?_
    simp only [FileDetails.fields, List.mem_cons, List.not_mem_nil, or_false] at hm
    rcases hm with rfl | rfl | rfl | rfl | rfl | rfl
    · exact htext hdetails.name
    · exact htext hdetails.extension
    · exact htext hdetails.mimeType
    · exact hnumber _
    · exact hnumber _
    · exact hproperties
  have hpreviewText : ∃ t,
      Json.dump L.realText (.object (r.preview.fields (.str s) (.str u))) = some t := by
    refine exists_dump_fields rfl fun m hm => ?_
    simp only [FilePreview.fields, List.mem_cons, List.not_mem_nil, or_false] at hm
    rcases hm with rfl | rfl | rfl | rfl | rfl | rfl | rfl
    · exact htext hplain.1
    · exact htext hplain.2
    · exact hnumber _
    · exact hnumber _
    · exact hconstant (by decide)
    · exact htext hs
    · exact htext hu
  have hrecord : ∃ t, Json.dump L.realText (r.toJson (.str s) (.str u)) = some t := by
    refine exists_dump_fields rfl fun m hm => ?_
    simp only [PresentationRecord.fields, List.mem_cons, List.not_mem_nil, or_false] at hm
    rcases hm with rfl | rfl | rfl | rfl | rfl | rfl
    · exact hconstant (by decide)
    · exact hnumber _
    · exact hconstant (by decide)
    · exact htext hversion
    · exact hdetailsText
    · exact hpreviewText
  obtain ⟨t, ht⟩ := hrecord
  exact ⟨t, orFail_ok.2 ht⟩

/-- A record with an accepted preview and texts of valid UTF-8 is serialised, and the library parses
its text as the document. -/
theorem serialize_ok {L : JsonLibrary} {supplied : Bool}
    (hpreview : validatePreview r.preview supplied = .ok ())
    (hversion : Json.validUtf8 r.sourceVersion = true) (hdetails : r.details.Utf8) :
    ∃ t, serialize L r = .ok t ∧ L.parse t = some (r.toJson (.str (base64 r.preview.bytes))
      (.str (hex (Fips180.sha256 r.preview.bytes)))) := by
  have hsum := checksum_accepted hpreview
  have hplain := validUtf8_plain (hex_lt (Fips180.sha256 r.preview.bytes))
  unfold serialize
  generalize hex (Fips180.sha256 r.preview.bytes) = checksum at hsum hplain ⊢
  obtain ⟨t, ht⟩ := exists_document (L := L) hpreview hversion hdetails
    (validUtf8_plain (base64_lt r.preview.bytes)) hplain
  have hcanonical := canonical_record r (base64 r.preview.bytes) checksum
  have hparse : L.parseText t = .ok (r.toJson (.str (base64 r.preview.bytes)) (.str checksum)) :=
    JsonLibrary.parseText_of_dump hcanonical ht
  rw [hsum, ok_bind]
  exact ⟨t, ht, orFail_ok.1 hparse⟩

end

/-! ## Round trips -/

/-- A document that is refused. -/
def Refused (L : JsonLibrary) (input : Bytes) : Prop := ∀ r, parse L input ≠ .ok r

/-- A document beyond the limit is refused before it is parsed. -/
theorem parse_long {L : JsonLibrary} {input : Bytes} (h : maximumDocumentBytes < input.length) :
    parse L input = .error "Presentation document exceeds limit" := by
  unfold parse failIf
  rw [if_pos h]
  rfl

/-- **Presentation documents round-trip.** A record whose preview is accepted has a document, which
is read back unless it is too long. A document of other data or another checksum is read only as the
bytes whose checksum it has. -/
theorem presentations_roundTrip (L : JsonLibrary) (r : PresentationRecord) (supplied : Bool)
    (hpreview : validatePreview r.preview supplied = .ok ())
    (hversion : Json.validUtf8 r.sourceVersion = true) (hdetails : r.details.Utf8) :
    (∀ s, (base64 s).length ≤ maximumDocumentBytes → unbase64 (base64 s) = .ok s) ∧
    (∀ input s, unbase64 input = .ok s → input = base64 s) ∧
    (∃ input, serialize L r = .ok input ∧
      (input.length ≤ maximumDocumentBytes → parse L input =
        .ok ⟨r.details, r.preview, r.sourceVersion, input, false, false⟩) ∧
      (maximumDocumentBytes < input.length →
        parse L input = .error "Presentation document exceeds limit")) ∧
    (∀ input text bytes, L.parse input = some (r.toJson (.str text)
        (.str (hex (Fips180.sha256 r.preview.bytes)))) → unbase64 text = .ok bytes →
      hex (Fips180.sha256 bytes) ≠ hex (Fips180.sha256 r.preview.bytes) → Refused L input) ∧
    (∀ input checksum, L.parse input = some (r.toJson (.str (base64 r.preview.bytes)) checksum) →
      checksum ≠ .str (hex (Fips180.sha256 r.preview.bytes)) → Refused L input) ∧
    ∀ input data checksum r', L.parse input = some (r.toJson data checksum) →
      parse L input = .ok r' →
      (∃ text, data = .str text ∧ unbase64 text = .ok r'.preview.bytes) ∧
        checksum = .str (hex (Fips180.sha256 r'.preview.bytes)) := by
  have hbase64 := fun s => unbase64_base64 (s := s)
  refine ⟨fun s => hbase64 s, fun input s h => (unbase64_ok.1 h).1, ?_, ?_, ?_, ?_⟩
  · obtain ⟨input, hinput, hparse⟩ := serialize_ok (L := L) hpreview hversion hdetails
    refine ⟨input, hinput, fun hlimit => ?_, parse_long⟩
    exact (parse_ok hparse).2 ⟨hlimit, r.preview.bytes, rfl, rfl,
      validatePreview_document hpreview, rfl⟩
  · intro input text bytes hinput htext hdiffers r' hr'
    obtain ⟨-, bytes', hdata, hsum, hvalid, -⟩ := (parse_ok hinput).1 hr'
    rw [Json.str.inj hdata, hbase64 bytes' (length_base64_accepted hvalid)] at htext
    rw [Except.ok.inj htext] at hsum
    exact hdiffers (Json.str.inj hsum).symm
  · intro input checksum hinput hdiffers r' hr'
    obtain ⟨-, bytes', hdata, hsum, hvalid, -⟩ := (parse_ok hinput).1 hr'
    have hread := hbase64 bytes' (length_base64_accepted hvalid)
    rw [← Json.str.inj hdata, hbase64 _ (length_base64_accepted hpreview)] at hread
    rw [← Except.ok.inj hread] at hsum
    exact hdiffers hsum
  · intro input data checksum r' hinput hr'
    obtain ⟨-, bytes', rfl, rfl, hvalid, rfl⟩ := (parse_ok hinput).1 hr'
    exact ⟨⟨_, rfl, hbase64 bytes' (length_base64_accepted hvalid)⟩, rfl⟩

/-- A PNG image of one pixel, as far as it is looked at. -/
def pixel : FilePreview :=
  ⟨ascii "image/png", ascii "image", pngSignature ++ [0, 0, 0, 13] ++ ascii "IHDR" ++
    [0, 0, 0, 1, 0, 0, 0, 1], 1, 1⟩

def pixelDetails : FileDetails :=
  ⟨ascii "a.png", ascii ".png", ascii "image/png", 24, 0,
    ⟨[(ascii "b", ascii "c")], List.pairwise_singleton _ _⟩⟩

/-- The preview of one pixel is accepted. -/
theorem pixel_accepted : validatePreview pixel true = .ok () :=
  toOption_eq_some.1 (by decide +kernel)

/-- The texts of the sample are valid UTF-8. -/
theorem pixelDetails_utf8 : pixelDetails.Utf8 := by
  refine ⟨validUtf8_all (by decide), validUtf8_all (by decide), validUtf8_all (by decide), ?_⟩
  intro e he
  obtain rfl := List.mem_singleton.1 he
  exact ⟨validUtf8_all (by decide), validUtf8_all (by decide)⟩

/-- The record of the image has a document within the limit, which is read back. -/
theorem presentations_roundTrip_pixel : ∃ input,
    serialize JsonReference.library ⟨pixelDetails, pixel, ascii "1", [], false, false⟩ = .ok input ∧
    input.length ≤ maximumDocumentBytes ∧ parse JsonReference.library input =
      .ok ⟨pixelDetails, pixel, ascii "1", input, false, false⟩ := by
  obtain ⟨-, -, ⟨input, hinput, hparse, -⟩, -⟩ := presentations_roundTrip JsonReference.library
    ⟨pixelDetails, pixel, ascii "1", [], false, false⟩ true pixel_accepted
    (validUtf8_all (by decide)) pixelDetails_utf8
  have hshort : (serialize JsonReference.library
      ⟨pixelDetails, pixel, ascii "1", [], false, false⟩).toOption.all
        (fun input => input.length ≤ maximumDocumentBytes) = true := by decide +kernel
  have hlimit : input.length ≤ maximumDocumentBytes := by
    rw [hinput] at hshort
    exact of_decide_eq_true hshort
  exact ⟨input, hinput, hlimit, hparse hlimit⟩

/-- A text takes at least its own bytes in a document. -/
theorem length_le_dump {f : Double → Bytes} {s t : Bytes} (h : Json.dump f (.str s) = some t) :
    s.length ≤ t.length := by
  have hescaped : ∀ s : Bytes, s.length ≤ (s.flatMap Json.escapeByte).length := by
    intro s
    induction s with
    | nil => exact le_rfl
    | cons b s ih =>
        have hb := JsonReference.length_escapeByte_pos b
        rw [List.flatMap_cons, List.length_append, List.length_cons]
        omega
  have hs := hescaped s
  rw [Json.dump, Json.dumpString] at h
  split at h
  · obtain rfl := Option.some.inj h
    rw [List.cons_append, List.length_cons, List.length_append]
    omega
  · cases h

/-- A document is longer than the name in it. -/
theorem length_name_le {L : JsonLibrary} {r : PresentationRecord} {input : Bytes}
    (h : serialize L r = .ok input) : r.details.name.length ≤ input.length := by
  simp only [serialize, bind_ok] at h
  obtain ⟨checksum, -, hdump⟩ := h
  have hrecord : Json.dump L.realText (r.toJson _ _) = some input := orFail_ok.1 hdump
  obtain ⟨d, hd, hdle⟩ := Json.dump_member hrecord
    (m := (ascii "details", .object r.details.fields))
    (Keyset.mem_orderBy.2 (by simp [PresentationRecord.fields]))
  obtain ⟨n, hn, hnle⟩ := Json.dump_member hd (m := (ascii "name", .str r.details.name))
    (Keyset.mem_orderBy.2 List.mem_cons_self)
  exact (length_le_dump hn).trans (hnle.trans hdle)

/-- Details of a name of two megabytes. -/
def longDetails : FileDetails :=
  { pixelDetails with name := List.replicate (maximumDocumentBytes + 1) 97 }

/-- So are those of the record that is too long. -/
theorem longDetails_utf8 : longDetails.Utf8 := by
  refine ⟨validUtf8_plain fun b hb => ?_, pixelDetails_utf8.extension, pixelDetails_utf8.mimeType,
    pixelDetails_utf8.properties⟩
  rw [(List.mem_replicate.1 hb).2]
  decide

/-- A record whose document is read as the same version, details and preview. -/
def Returns (L : JsonLibrary) (r : PresentationRecord) : Prop :=
  ∃ input r', serialize L r = .ok input ∧ parse L input = .ok r' ∧
    r'.sourceVersion = r.sourceVersion ∧ r'.details = r.details ∧ r'.preview = r.preview

/-- A name of two megabytes makes a document that is too long to be read, and a version that is not
UTF-8 makes none. -/
theorem records_not_returned :
    (¬ ∀ (L : JsonLibrary) (r : PresentationRecord) (supplied : Bool),
      validatePreview r.preview supplied = .ok () → Json.validUtf8 r.sourceVersion = true →
      r.details.Utf8 → Returns L r) ∧
    ¬ ∀ (L : JsonLibrary) (r : PresentationRecord) (supplied : Bool),
      validatePreview r.preview supplied = .ok () → r.details.Utf8 → Returns L r := by
  have hlong : ¬ Returns JsonReference.library
      ⟨longDetails, pixel, ascii "1", [], false, false⟩ := by
    rintro ⟨input, r', hinput, hparse, -⟩
    have hlength : longDetails.name.length ≤ input.length := length_name_le hinput
    have hname : longDetails.name.length = maximumDocumentBytes + 1 := List.length_replicate
    rw [parse_long (by omega)] at hparse
    cases hparse
  have hversion :
      ¬ Returns JsonReference.library ⟨pixelDetails, pixel, [0xFF], [], false, false⟩ := by
    rintro ⟨input, r', hinput, -⟩
    simp only [serialize, bind_ok] at hinput
    obtain ⟨checksum, -, hdump⟩ := hinput
    obtain ⟨t, ht, -⟩ := Json.dump_member (orFail_ok.1 hdump)
      (m := (ascii "sourceVersion", .str [0xFF]))
      (Keyset.mem_orderBy.2 (by simp [PresentationRecord.fields]))
    rw [Json.dump, Json.dumpString, if_neg (by simp [Json.validUtf8])] at ht
    cases ht
  exact ⟨fun hall => hlong (hall _ _ true pixel_accepted (validUtf8_all (by decide))
    longDetails_utf8),
    fun hall => hversion (hall _ _ true pixel_accepted pixelDetails_utf8)⟩

end Presentation

end FileProvider
