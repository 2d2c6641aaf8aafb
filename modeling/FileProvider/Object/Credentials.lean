import FileProvider.Object.Reachable

/-!
# Names of credentials

Two checks keep credentials out of a package: that of a session context, which drops the
separators of a name before it compares it, and that of an author document, which compares the
names of all members with a list of spellings. The list leaves spellings out; what it leaves out is
all that an accepted document can still hold.

Both checks are stated over all keys of a document, at any depth, and of the documents within it. A
profile is shown that holds a key the list leaves out, and is accepted.
-/

namespace FileProvider

open Bytes Fallible AuthorDocument

/-- A key of an object somewhere in a value. -/
inductive HasKey (k : Bytes) : Json → Prop where
  | here {members : List (Bytes × Json)} {v : Json} : (k, v) ∈ members → HasKey k (.obj members)
  | member {members : List (Bytes × Json)} {k' : Bytes} {v : Json} : (k', v) ∈ members →
      HasKey k v → HasKey k (.obj members)
  | element {elements : List Json} {x : Json} : x ∈ elements → HasKey k x →
      HasKey k (.arr elements)

mutual

/-- A key that is found somewhere in a value is one of the value. -/
theorem hasKey_of_anyKey {p : Bytes → Bool} : ∀ {j : Json}, anyKey p j = true →
    ∃ k, HasKey k j ∧ p k = true
  | .arr elements, h => by
      obtain ⟨x, hx, k, hk, hp⟩ := hasKey_of_elements (by rw [anyKey] at h; exact h)
      exact ⟨k, .element hx hk, hp⟩
  | .obj members, h => by
      rw [anyKey] at h
      exact hasKey_of_members h
  | .null, h | .bool _, h | .int _, h | .real _, h | .str _, h => by cases h

/-- A key that is found in the elements is one of an element. -/
theorem hasKey_of_elements {p : Bytes → Bool} : ∀ {l : List Json}, anyKeyElements p l = true →
    ∃ x ∈ l, ∃ k, HasKey k x ∧ p k = true
  | [], h => by cases h
  | x :: l, h => by
      rw [anyKeyElements, Bool.or_eq_true] at h
      rcases h with h | h
      · obtain ⟨k, hk, hp⟩ := hasKey_of_anyKey h
        exact ⟨x, List.mem_cons_self, k, hk, hp⟩
      · obtain ⟨y, hy, k, hk, hp⟩ := hasKey_of_elements h
        exact ⟨y, List.mem_cons_of_mem _ hy, k, hk, hp⟩

/-- A key that is found in the members is one of the object. -/
theorem hasKey_of_members {p : Bytes → Bool} : ∀ {l : List (Bytes × Json)},
    anyKeyMembers p l = true → ∃ k, HasKey k (.obj l) ∧ p k = true
  | [], h => by cases h
  | (k, v) :: l, h => by
      rw [anyKeyMembers, Bool.or_eq_true, Bool.or_eq_true] at h
      rcases h with (h | h) | h
      · exact ⟨k, .here List.mem_cons_self, h⟩
      · obtain ⟨k', hk', hp⟩ := hasKey_of_anyKey h
        exact ⟨k', .member List.mem_cons_self hk', hp⟩
      · obtain ⟨k', hk', hp⟩ := hasKey_of_members h
        refine ⟨k', ?_, hp⟩
        cases hk' with
        | here hmem => exact .here (List.mem_cons_of_mem _ hmem)
        | member hmem hv => exact .member (List.mem_cons_of_mem _ hmem) hv

end

/-- A key of an element is found. -/
theorem anyKeyElements_of_mem {p : Bytes → Bool} {l : List Json} {x : Json} (hx : x ∈ l)
    (h : anyKey p x = true) : anyKeyElements p l = true := by
  induction l with
  | nil => cases hx
  | cons y l ih =>
      rw [anyKeyElements, Bool.or_eq_true]
      rcases List.mem_cons.1 hx with rfl | hx
      · exact .inl h
      · exact .inr (ih hx)

/-- A member's name and the keys of its value are found. -/
theorem anyKeyMembers_of_mem {p : Bytes → Bool} {l : List (Bytes × Json)} {k : Bytes} {v : Json}
    (hm : (k, v) ∈ l) (h : p k = true ∨ anyKey p v = true) : anyKeyMembers p l = true := by
  induction l with
  | nil => cases hm
  | cons m l ih =>
      obtain ⟨k', v'⟩ := m
      rw [anyKeyMembers, Bool.or_eq_true, Bool.or_eq_true]
      rcases List.mem_cons.1 hm with heq | hm
      · obtain ⟨rfl, rfl⟩ := Prod.mk.inj heq
        exact .inl h
      · exact .inr (ih hm)

/-- The search of a document finds its keys at every depth. -/
theorem anyKey_iff {p : Bytes → Bool} {j : Json} :
    anyKey p j = true ↔ ∃ k, HasKey k j ∧ p k = true := by
  refine ⟨hasKey_of_anyKey, ?_⟩
  rintro ⟨k, hk, hp⟩
  induction hk with
  | here hm =>
      rw [anyKey]
      exact anyKeyMembers_of_mem hm (.inl hp)
  | member hm _ ih =>
      rw [anyKey]
      exact anyKeyMembers_of_mem hm (.inr ih)
  | element hx _ ih =>
      rw [anyKey]
      exact anyKeyElements_of_mem hx ih

/-! ## The two checks -/

/-- A name of a credential in a spelling that the check of documents does not list. -/
def unlistedCredential (k : Bytes) : Bool :=
  MetadataCodec.credential k && !credentials.contains (lower k)

/-- A spelling that is not listed has a separator in it. Without one it would be its own normal
form, and that form is on the list. -/
theorem separator_of_unlisted {k : Bytes} (h : unlistedCredential k = true) : 95 ∈ k ∨ 45 ∈ k := by
  simp only [unlistedCredential, Bool.and_eq_true, Bool.not_eq_true'] at h
  obtain ⟨hcredential, hlisted⟩ := h
  by_contra hnone
  rw [not_or] at hnone
  have hfilter : k.filter (fun c => c ≠ 95 ∧ c ≠ 45) = k := by
    rw [List.filter_eq_self]
    intro c hc
    refine decide_eq_true ⟨?_, ?_⟩
    · rintro rfl
      exact hnone.1 hc
    · rintro rfl
      exact hnone.2 hc
  -- Without separators both checks compare the same name, and the list has all seven names.
  simp only [MetadataCodec.credential, hfilter] at hcredential
  have hname : lower k ∈ [ascii "token", ascii "secret", ascii "password", ascii "authorization",
      ascii "accesstoken", ascii "refreshtoken", ascii "authenticationtoken"] :=
    List.contains_iff_mem.1 hcredential
  have hsub : ∀ name ∈ [ascii "token", ascii "secret", ascii "password", ascii "authorization",
      ascii "accesstoken", ascii "refreshtoken", ascii "authenticationtoken"],
      credentials.contains name = true := by decide
  rw [hsub _ hname] at hlisted
  cases hlisted

variable {P : Platform} {document : ObjectMetadata}

/-- The JSON documents in an author document: its own, and those of the profiles in a roster. -/
inductive Examined (P : Platform) (document : ObjectMetadata) : Json → Prop where
  | self {j : Json} : document.payload ≠ [] → P.sqliteJson document.payload = some j →
      Examined P document j
  | author {roster j author : Json} {authors : List Json} {value : Option Json} {payload : Bytes} :
      document.payload ≠ [] → P.sqliteJson document.payload = some roster →
      document.format = authorshipFormat → roster.member? (ascii "authors") = some (.arr authors) →
      author ∈ authors → authorOf P author = .ok value → textOf P value = .ok payload →
      P.sqliteJson payload = some j → Examined P document j

/-- No key of a checked document is listed. -/
theorem check_ok {j : Json} {checked : Option Json} (h : check P document = .ok checked)
    (hpayload : document.payload ≠ []) (hj : P.sqliteJson document.payload = some j) :
    checked = some j ∧ ∀ k, HasKey k j → credentials.contains (lower k) = false := by
  simp only [check, bind_ok] at h
  obtain ⟨-, -, h⟩ := h
  rw [if_neg hpayload] at h
  simp only [bind_ok, orFail_ok, failIf_ok, pure_ok, Bool.not_eq_true] at h
  obtain ⟨j', hj', -, -, -, -, -, -, -, hkeys, -, -, -, -, rfl⟩ := h
  obtain rfl := Option.some.inj (hj.symm.trans hj')
  refine ⟨rfl, fun k hk => ?_⟩
  cases hlisted : credentials.contains (lower k) with
  | false => rfl
  | true =>
      rw [anyKey_iff.2 ⟨k, hk, hlisted⟩] at hkeys
      cases hkeys

/-- A checked payload is not empty. -/
theorem payload_ne_nil {payload : Bytes} {checked : Option Json}
    (h : check P ⟨fileAuthorFormat, payload⟩ = .ok checked) : payload ≠ [] := by
  rintro rfl
  simp only [check, metadataValid, bind_ok, failIf_ok] at h
  obtain ⟨-, ⟨-, -, -, -, -, hcomplete, -⟩, -⟩ := h
  exact hcomplete (by decide)

/-- No key of what was examined of an accepted document is listed. -/
theorem unlisted_of_validateDocument (h : validateDocument P document = .ok ()) {j : Json}
    (hj : Examined P document j) {k : Bytes} (hk : HasKey k j) :
    credentials.contains (lower k) = false := by
  simp only [validateDocument, bind_ok] at h
  obtain ⟨checked, hchecked, h⟩ := h
  cases hj with
  | self hpayload hj => exact (check_ok hchecked hpayload hj).2 k hk
  | author hpayload hroster hformat hauthors hmem hvalue htext hj =>
      obtain ⟨rfl, -⟩ := check_ok hchecked hpayload hroster
      dsimp only at h
      rw [if_pos hformat, hauthors] at h
      dsimp only at h
      rw [forM_ok] at h
      obtain ⟨i, hi, hget⟩ := List.mem_iff_getElem.1 hmem
      have hauthor := h (_, i) (List.mk_mem_zipIdx_iff_getElem?.2
        (List.getElem?_eq_some_iff.2 ⟨hi, hget⟩))
      simp only [bind_ok] at hauthor
      obtain ⟨-, -, value, hvalue', payload, htext', nested, hnested, -⟩ := hauthor
      obtain rfl := Except.ok.inj (hvalue.symm.trans hvalue')
      obtain rfl := Except.ok.inj (htext.symm.trans htext')
      exact (check_ok hnested (payload_ne_nil hnested) hj).2 k hk

/-- **Accepted documents keep the policy of session contexts exactly when no key is spelled in a way
the list leaves out.** The keys are those of every part of the document that is examined, on either
side of the equivalence; a session context refuses them by their folded names, and the list of the
documents has some spellings of each. -/
theorem policy_kept_iff (P : Platform) (document : ObjectMetadata)
    (h : validateDocument P document = .ok ()) :
    (∀ j, Examined P document j → ∀ k, HasKey k j → MetadataCodec.credential k = false) ↔
      ∀ j, Examined P document j → ∀ k, HasKey k j → unlistedCredential k = false := by
  constructor
  · intro hkept j hj k hk
    rw [unlistedCredential, hkept j hj k hk, Bool.false_and]
  · intro hunlisted j hj k hk
    have hthis := hunlisted j hj k hk
    rw [unlistedCredential, unlisted_of_validateDocument h hj hk, Bool.not_false, Bool.and_true]
      at hthis
    exact hthis

/-- A profile whose details hold the given key, with all that a session needs of its author. -/
def profileWith (key : String) : ObjectMetadata where
  format := fileAuthorFormat
  payload := ascii "\x7b\"account\":\x7b\"sub\":\"u\"\x7d,\"attribution\":\x7b\x7d,\"details\":\x7b\""
    ++ ascii key ++ ascii "\":\"x\"\x7d,\"schemaVersion\":1,\"serviceOrigin\":\"https://s\"\x7d"

/-- A document with a display name is accepted. -/
theorem accepts_displayName :
    validateDocument .reference (profileWith "displayName") = .ok () := by
  have hok : (validateDocument .reference (profileWith "displayName")).isOk = true := by
    decide +kernel
  obtain ⟨_, h⟩ := exists_of_isOk hok
  exact h

/-- No key of the accepted profile is one that a session context refuses: all of them are spelled as
the list has them, or name no credential. -/
theorem policy_kept_sample :
    validateDocument .reference (profileWith "displayName") = .ok () ∧
    ∀ j, Examined .reference (profileWith "displayName") j → ∀ k, HasKey k j →
      MetadataCodec.credential k = false := by
  refine ⟨accepts_displayName, (policy_kept_iff .reference _ accepts_displayName).2 ?_⟩
  have hnone : (Platform.reference.sqliteJson (profileWith "displayName").payload).any
      (anyKey unlistedCredential) = false := by decide +kernel
  intro j hj k hk
  cases hj with
  | self hpayload hj =>
      rw [hj, Option.any_some] at hnone
      cases hunlisted : unlistedCredential k with
      | false => rfl
      | true =>
          rw [anyKey_iff.2 ⟨k, hk, hunlisted⟩] at hnone
          cases hnone
  | author hpayload hroster hformat => exact absurd hformat (by decide +kernel)

/-- A profile with a key that a session context refuses is accepted as a document. The key is
written with a separator, which only the context of a session takes out before it compares. -/
theorem policy_not_kept : ¬ ∀ (P : Platform) (document : ObjectMetadata),
    validateDocument P document = .ok () →
    ∀ j, Examined P document j → ∀ k, HasKey k j → MetadataCodec.credential k = false := by
  intro hkept
  have hok : (validateDocument .reference (profileWith "access-token")).isOk = true := by
    decide +kernel
  obtain ⟨_, haccepted⟩ := exists_of_isOk hok
  have hparsed : (Platform.reference.sqliteJson (profileWith "access-token").payload).any
      (anyKey MetadataCodec.credential) = true := by decide +kernel
  cases hj : Platform.reference.sqliteJson (profileWith "access-token").payload with
  | none =>
      rw [hj] at hparsed
      cases hparsed
  | some j =>
      rw [hj] at hparsed
      obtain ⟨k, hk, hcredential⟩ := hasKey_of_anyKey (j := j) hparsed
      have hclean := hkept .reference (profileWith "access-token") haccepted j
        (.self (by decide +kernel) hj) k hk
      rw [hcredential] at hclean
      cases hclean

/-- The profile is accepted as that of the author of a session, too. -/
example : (validateActor .reference
    ⟨ascii "https://s", ascii "u", [], profileWith "access-token"⟩).isOk = true := by
  decide +kernel

end FileProvider
