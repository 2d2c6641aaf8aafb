import FileProvider.Native.Reference

/-!
# Accounts of profiles

What `accountOf` reads of an account, member by member, and what becomes of an account whose
address is exchanged.

`AccountRead` lists the members with what was accepted of each, so that a proof about an account
need not run the reader again. `Readdressed` is an account in which the address alone is another;
what both libraries do with it is compared elsewhere.
-/

namespace FileProvider

open Bytes Fallible

namespace Native

variable (E : NativeLibraries)

/-! ## Members -/

/-- The address of an account, as `accountOf` reads it. -/
def mailOf (account : Json) : Fallible Bytes := do
  let mail ← normalize E.unicode (← text E.unicode account (ascii "email") 254 true false) true true
  require (emailPattern mail = true ∧ (mail.takeWhile (· ≠ 64)).length ≤ 64)
  pure mail

/-- The address of an avatar, which may be relative to the service. -/
def avatarOf (service : Bytes) (account : Json) : Fallible Json :=
  match valueOr account (ascii "avatarUrl") .null with
  | .null => pure .null
  | .str url => do
      let url := if url.head? = some 47 then service ++ url else url
      require ((service ++ ascii "/media/avatars/").isPrefixOf url = true
        ∧ avatarPattern (url.drop service.length) = true)
      pure (.str url)
  | _ => .error "Invalid persisted author metadata"

/-- The members of an account, once they are read. -/
structure AccountParts where
  sub : Bytes
  mail : Bytes
  user : Bytes
  membership : Bytes
  avatar : Json
  name : Bytes

/-- The canonical account. -/
def AccountParts.json (a : AccountParts) : Json :=
  .object
    [(ascii "sub", .str a.sub), (ascii "email", .str a.mail), (ascii "displayName", .str a.name),
      (ascii "userId", .str a.user), (ascii "societyCloudMembership", .str a.membership),
      (ascii "avatarUrl", a.avatar)]

/-- The keys of an account. -/
def accountKeys : List Bytes :=
  [ascii "sub", ascii "email", ascii "displayName", ascii "userId",
    ascii "societyCloudMembership", ascii "avatarUrl"]

/-- What `accountOf` finds in an account that it takes. -/
structure AccountRead (service : Bytes) (account : Json) (a : AccountParts) : Prop where
  keys : keys account accountKeys = .ok ()
  sub : text E.unicode account (ascii "sub") 128 true false = .ok a.sub
  subject : subjectPattern a.sub = true
  mail : mailOf E account = .ok a.mail
  user : text E.unicode account (ascii "userId") 31 false false = .ok a.user
  userShape : a.user = [] ∨ userPattern a.user = true
  membership : (valueOr account (ascii "societyCloudMembership") (.str (ascii "Free"))).getStr
    = .ok a.membership
  member : a.membership ∈ [ascii "Free", ascii "Plus", ascii "Pro", ascii "Enterprise"]
  avatar : avatarOf service account = .ok a.avatar
  name : text E.unicode account (ascii "displayName") 80 false false = .ok a.name

variable {E} {service : Bytes} {account j : Json}

/-- The reading of an account, as one sequence of checks. -/
theorem accountOf_eq : accountOf E service account = (do
    keys account accountKeys
    let sub ← text E.unicode account (ascii "sub") 128 true false
    require (subjectPattern sub = true)
    let mail ← mailOf E account
    let user ← text E.unicode account (ascii "userId") 31 false false
    require (user = [] ∨ userPattern user = true)
    let membership ←
      (valueOr account (ascii "societyCloudMembership") (.str (ascii "Free"))).getStr
    require (membership ∈ [ascii "Free", ascii "Plus", ascii "Pro", ascii "Enterprise"])
    let avatar ← avatarOf service account
    let name ← text E.unicode account (ascii "displayName") 80 false false
    pure (AccountParts.json ⟨sub, mail, user, membership, avatar, name⟩)) := by
  unfold accountOf mailOf avatarOf
  simp only [bind_assoc, pure_bind]
  cases valueOr account (ascii "avatarUrl") .null with
  | str url => simp only [bind_assoc, pure_bind]; rfl
  | _ => rfl

/-- An account is accepted exactly when it is read member by member, and its document is that of
what was read. -/
theorem accountOf_ok : accountOf E service account = .ok j ↔
    ∃ a, AccountRead E service account a ∧ a.json = j := by
  rw [accountOf_eq]
  simp only [bind_ok, require_ok, pure_ok]
  constructor
  · rintro ⟨_, hkeys, sub, hsub, _, hsubject, mail, hmail, user, huser, _, hshape, membership,
      hmembership, _, hmember, avatar, havatar, name, hname, rfl⟩
    exact ⟨⟨sub, mail, user, membership, avatar, name⟩,
      ⟨hkeys, hsub, hsubject, hmail, huser, hshape,
      hmembership, hmember, havatar, hname⟩, rfl⟩
  · rintro ⟨a, h, rfl⟩
    exact ⟨(), h.keys, _, h.sub, (), h.subject, _, h.mail, _, h.user, (), h.userShape, _,
      h.membership, (), h.member, _, h.avatar, _, h.name, rfl⟩

/-! ## Addresses exchanged -/

/-- The check of keys passes exactly for objects with allowed keys only. -/
theorem keys_ok {value : Json} {allowed : List Bytes} :
    keys value allowed = .ok () ↔
      value.isObject = true ∧ ∀ k, value.member? k ≠ none → k ∈ allowed := by
  cases value with
  | obj members =>
      simp only [keys, bind_ok, require_ok, Json.getMembers, Except.ok.injEq, exists_eq_left',
        List.all_eq_true, decide_eq_true_eq, exists_const]
      refine and_congr_right fun _ => ⟨fun h k hk => ?_, fun h m hm => ?_⟩
      · obtain ⟨v, hv⟩ := Option.ne_none_iff_exists'.1 hk
        obtain ⟨m, hfind, -⟩ := Option.map_eq_some_iff.1 hv
        have hkey : m.1 = k := by simpa using List.find?_some hfind
        exact hkey ▸ h m (List.mem_of_find?_eq_some hfind)
      · refine h m.1 ?_
        rw [Json.member?, Ne, Option.map_eq_none_iff, List.find?_eq_none]
        exact fun hnone => hnone m hm (decide_eq_true rfl)
  | _ => simp [keys, Json.isObject]

/-- An account with another address, and otherwise the members it had. -/
structure Readdressed (account account' : Json) (address : Bytes) : Prop where
  object : account'.isObject = true
  email : account'.member? (ascii "email") = some (.str address)
  others : ∀ key, key ≠ ascii "email" → account'.member? key = account.member? key

/-- The text of a member is read of the member. -/
theorem text_congr {U : Utf8proc} {value value' : Json} {name : Bytes}
    (h : value'.member? name = value.member? name) (maximum : Nat) (required multiline : Bool) :
    text U value' name maximum required multiline
      = text U value name maximum required multiline := by
  unfold text
  rw [h]

/-- A member with its default depends on that member alone. -/
theorem valueOr_congr {value value' : Json} {name : Bytes}
    (h : value'.member? name = value.member? name) (default : Json) :
    valueOr value' name default = valueOr value name default := by
  unfold valueOr
  rw [h]

/-- An account that is taken is taken with any address that is read. -/
theorem AccountRead.readdressed {account' : Json} {a : AccountParts} {address mail : Bytes}
    (h : AccountRead E service account a) (haddress : Readdressed account account' address)
    (hmail : mailOf E account' = .ok mail) :
    AccountRead E service account' { a with mail } := by
  have hothers := haddress.others
  exact {
    keys := by
      obtain ⟨-, hkeys⟩ := keys_ok.1 h.keys
      refine keys_ok.2 ⟨haddress.object, fun k hk => ?_⟩
      by_cases hemail : k = ascii "email"
      · rw [hemail]
        decide
      · rw [hothers k hemail] at hk
        exact hkeys k hk
    sub := (text_congr (hothers _ (by decide)) _ _ _).trans h.sub
    subject := h.subject
    mail := hmail
    user := (text_congr (hothers _ (by decide)) _ _ _).trans h.user
    userShape := h.userShape
    membership := by
      rw [valueOr_congr (hothers _ (by decide))]
      exact h.membership
    member := h.member
    avatar := by
      have havatar := h.avatar
      unfold avatarOf at havatar ⊢
      rw [valueOr_congr (hothers _ (by decide))]
      exact havatar
    name := (text_congr (hothers _ (by decide)) _ _ _).trans h.name }

/-- The address of an account is a member of its document. -/
theorem AccountParts.member_email (a : AccountParts) :
    a.json.member? (ascii "email") = some (.str a.mail) := by
  refine Json.member?_object ?_ ?_
  · show [ascii "sub", ascii "email", ascii "displayName", ascii "userId",
      ascii "societyCloudMembership", ascii "avatarUrl"].Nodup
    decide
  · simp

/-- An account of a subject and an address, and nothing else. -/
def plainAccount (address : Bytes) : Json :=
  .obj [(ascii "email", .str address), (ascii "sub", .str (ascii "a"))]

/-- The account of the samples has an address and a subject and no other member. -/
theorem plainAccount_missing {address k : Bytes} (hemail : k ≠ ascii "email")
    (hsub : k ≠ ascii "sub") : (plainAccount address).member? k = none := by
  rw [plainAccount, Json.member?, Option.map_eq_none_iff, List.find?_eq_none]
  simp only [List.mem_cons, List.not_mem_nil, or_false]
  rintro m (rfl | rfl)
  · simpa using Ne.symm hemail
  · simpa using Ne.symm hsub

/-- Such an account is taken when its address is. -/
theorem plainAccount_read {address mail : Bytes}
    (hmail : mailOf E (plainAccount address) = .ok mail) (service : Bytes) :
    AccountRead E service (plainAccount address)
      ⟨ascii "a", mail, [], ascii "Free", .null, []⟩ := by
  have hmissing : ∀ name maximum, name ≠ ascii "email" → name ≠ ascii "sub" →
      text E.unicode (plainAccount address) name maximum false false = .ok [] := by
    intro name maximum hemail hsub
    unfold text
    rw [plainAccount_missing hemail hsub]
    rfl
  have hdefault : ∀ name default, name ≠ ascii "email" → name ≠ ascii "sub" →
      valueOr (plainAccount address) name default = default := by
    intro name default hemail hsub
    unfold valueOr
    rw [plainAccount_missing hemail hsub]
    rfl
  have hsub : (plainAccount address).member? (ascii "sub") = some (.str (ascii "a")) := by
    have hne : ascii "email" ≠ ascii "sub" := by decide
    rw [plainAccount, Json.member?, List.find?_cons_of_neg (by simpa using hne),
      List.find?_cons_of_pos rfl]
    rfl
  have hpoints : Utf8.scalars (ascii "a") = some ['a'] := rfl
  have hcomposed : E.unicode.compose ['a'] = ['a'] := E.unicode.compose_ascii _ fun c hc => by
    rw [List.mem_singleton.1 hc]
    decide
  exact {
    keys := by
      refine keys_ok.2 ⟨rfl, fun k hk => ?_⟩
      by_contra hnot
      refine hk (plainAccount_missing ?_ ?_)
      · rintro rfl
        exact hnot (by decide)
      · rintro rfl
        exact hnot (by decide)
    sub := by
      unfold text
      rw [hsub]
      simp only [clean, normalize, scalars, hpoints, bind_ok, orFail_ok, pure_ok, require_ok]
      exact ⟨_, ⟨_, rfl, rfl⟩, ['a'], by rw [hcomposed]; rfl, (), by decide, (), by decide, rfl⟩
    subject := show subjectPattern (ascii "a") = true by decide
    mail := hmail
    user := hmissing _ _ (by decide) (by decide)
    userShape := .inl rfl
    membership := by
      rw [hdefault _ _ (by decide) (by decide)]
      rfl
    member := List.mem_cons_self
    avatar := by
      unfold avatarOf
      rw [hdefault _ _ (by decide) (by decide)]
      rfl
    name := hmissing _ _ (by decide) (by decide) }

variable (E) in
/-- The parser takes an address: it takes an account of the address, and every account that it
takes it takes with the address too; the address becomes its canonical form. -/
structure AcceptsMail (address canonical : Bytes) : Prop where
  account : ∃ account, account.member? (ascii "email") = some (.str address) ∧
    ∀ service, (accountOf E service account).isOk = true
  exchanged : ∀ service account account' j, accountOf E service account = .ok j →
    Readdressed account account' address → ∃ j', accountOf E service account' = .ok j' ∧
      j'.member? (ascii "email") = some (.str canonical)

/-- An address is taken when it is read, of whatever account. -/
theorem acceptsMail_iff {address canonical : Bytes} {p : Prop}
    (h : ∀ account mail, account.member? (ascii "email") = some (.str address) →
      (mailOf E account = .ok mail ↔ p ∧ canonical = mail)) :
    AcceptsMail E address canonical ↔ p := by
  constructor
  · rintro ⟨⟨account, hemail, hok⟩, -⟩
    obtain ⟨j, hj⟩ := exists_of_isOk (hok [])
    obtain ⟨a, ha, -⟩ := accountOf_ok.1 hj
    exact ((h account a.mail hemail).1 ha.mail).1
  · intro hp
    refine ⟨⟨plainAccount address, rfl, fun service => ?_⟩, ?_⟩
    · have hmail := (h (plainAccount address) canonical rfl).2 ⟨hp, rfl⟩
      rw [accountOf_ok.2 ⟨_, plainAccount_read hmail service, rfl⟩]
      rfl
    · intro service account account' j hj haddress
      obtain ⟨a, ha, -⟩ := accountOf_ok.1 hj
      have hmail := (h account' canonical haddress.email).2 ⟨hp, rfl⟩
      exact ⟨_, accountOf_ok.2 ⟨_, ha.readdressed haddress hmail, rfl⟩,
        AccountParts.member_email { a with mail := canonical }⟩

end Native

end FileProvider
