import FileProvider.Object.Check
import FileProvider.Ontology.Model

/-!
# The ontology codec

The canonical JSON documents of the graph's values and definitions. An encoder checks texts,
counts and byte limits; a decoder reads a stored document back and compares it with what the
encoder makes of it. The round trips at the end say that a document that was written is read
back, a negative zero apart, which is written as zero.

Each round trip is proved with the checks that a value passed when it was encoded; the decoder makes
the same checks again, and compares the texts at the end.
-/

namespace FileProvider

open Bytes Fallible

/-- The key of a resource's node: its kind and its own key. -/
def OntologyResource.node (r : OntologyResource) : Bytes :=
  match r.kind with
  | .file => ascii "file:" ++ r.key
  | .entity => ascii "entity:" ++ r.key

namespace Ontology

variable (L : JsonLibrary)

/-! ## Values -/

/-- Texts hold no NUL, are valid UTF-8 and fit their limit. -/
def text (s : Bytes) (maximum : Nat) (required : Bool) : Fallible Unit := do
  failIf ((required ∧ s = []) ∨ maximum < s.length ∨ 0 ∈ s) "invalid ontology text or byte limit"
  let _ ← L.dump (.str s)
  pure ()

def pageLimit (limit : Nat) : Fallible Unit :=
  failIf (limit = 0 ∨ 1024 < limit) "invalid ontology page limit"

def nodeKey (resource : OntologyResource) : Fallible Bytes := do
  text L resource.key 1024 true
  pure resource.node

def resourceKey (key : Bytes) : Fallible OntologyResource :=
  if (ascii "file:").isPrefixOf key then .ok ⟨.file, key.drop 5⟩
  else if (ascii "entity:").isPrefixOf key then .ok ⟨.entity, key.drop 7⟩
  else .error "corrupt ontology resource key"

def valueJson : OntologyValue → Fallible Json
  | .resource r => do
      let key ← nodeKey L r
      pure (.str key)
  | .text s => do
      text L s 65536 false
      pure (.str s)
  | .integer n => pure (.int n.toInt)
  | .real x => do
      failIf (x.isFinite = false) "non-finite ontology real"
      pure (.real (if x.isZero then .zero else x))
  | .boolean b => pure (.bool b)

/-- A JSON number as a 64-bit integer. -/
def integer : Json → Fallible OntologyValue
  | .int n =>
      if n ≤ int64Max then .ok (.integer (Int64.ofInt n)) else .error "invalid ontology integer"
  | _ => .error "invalid ontology integer"

/-- A JSON value as a value of a kind. -/
def readValue (kind : Int) (j : Json) : Fallible OntologyValue :=
  match OntologyValueKind.ofCode? kind with
  | some .resource => do
      let key ← j.getStr
      let resource ← resourceKey key
      pure (.resource resource)
  | some .text => do
      let s ← j.getStr
      pure (.text s)
  | some .integer => integer j
  | some .real =>
      match j with
      | .real x => .ok (.real x)
      | _ => .error "invalid ontology real"
  | some .boolean => do
      let b ← j.getBool
      pure (.boolean b)
  | none => .error "invalid ontology value kind"

def decodeValue (kind : Int) (document : Bytes) : Fallible OntologyValue := do
  failIf (400000 < document.length) "oversize ontology value"
  let j ← L.parseText document
  let result ← readValue kind j
  let encoded ← valueJson L result
  let dumped ← L.dump encoded
  failIf (dumped ≠ document) "noncanonical ontology value"
  pure result

/-! ## Definitions -/

/-- The document of a class. -/
def classObject (key label description : Bytes) (parents : List Bytes) : Json :=
  .object [(ascii "key", .str key), (ascii "label", .str label),
    (ascii "description", .str description), (ascii "parents", .arr (parents.map .str))]

def classJson (c : OntologyClass) : Fallible Json := do
  text L c.key 1024 true
  text L c.label 4096 false
  text L c.description 16384 false
  failIf (32 < c.parents.length) "too many direct ontology parents"
  c.parents.forM fun p => text L p 1024 true
  let parents := Keyset.orderBy order c.parents
  failIf (¬ parents.Nodup) "duplicate ontology parent"
  pure (classObject c.key c.label c.description parents)

/-- The fields of a property's document. -/
def propertyFields (p : OntologyProperty) : List (Bytes × Json) :=
  [(ascii "key", .str p.key), (ascii "label", .str p.label), (ascii "kind", .int p.kind.code),
    (ascii "domain", .str p.domainClass), (ascii "range", .str p.rangeClass),
    (ascii "single", .bool p.singleValue), (ascii "acyclic", .bool p.acyclic)]

def propertyJson (p : OntologyProperty) : Fallible Json := do
  text L p.key 1024 true
  text L p.label 4096 false
  text L p.domainClass 1024 false
  text L p.rangeClass 1024 false
  failIf (4 < p.kind.code ∨ (p.kind ≠ .resource ∧ (p.rangeClass ≠ [] ∨ p.acyclic = true)))
    "invalid ontology property definition"
  pure (.object (propertyFields p))

def decodeProperty (document : Bytes) : Fallible OntologyProperty := do
  let j ← L.parseText document
  let key ← (← j.member (ascii "key")).getStr
  let label ← (← j.member (ascii "label")).getStr
  let kind ← (← j.member (ascii "kind")).getInt32
  let domainClass ← (← j.member (ascii "domain")).getStr
  let rangeClass ← (← j.member (ascii "range")).getStr
  let singleValue ← (← j.member (ascii "single")).getBool
  let acyclic ← (← j.member (ascii "acyclic")).getBool
  let kind ← orFail "invalid ontology property definition" (OntologyValueKind.ofCode? kind)
  let result : OntologyProperty :=
    ⟨key, label, kind, domainClass, rangeClass, singleValue, acyclic⟩
  let encoded ← propertyJson L result
  let dumped ← L.dump encoded
  failIf (dumped ≠ document) "noncanonical ontology property"
  pure result

/-- The document of an entity. -/
def entityJson (e : OntologyEntity) : Json :=
  .object [(ascii "key", .str e.key), (ascii "label", .str e.label),
    (ascii "description", .str e.description)]

/-- The document of a type assignment. -/
def typeJson (classKey : Bytes) : Json := .object [(ascii "class", .str classKey)]

/-- The document of a statement. -/
def statementJson (propertyKey : Bytes) (kind : OntologyValueKind) (value : Json) : Json :=
  .object [(ascii "property", .str propertyKey), (ascii "kind", .int kind.code),
    (ascii "value", value)]

/-! ## Queries -/

def conditionJson (c : OntologyCondition) : Fallible Json := do
  text L c.propertyKey 1024 true
  match c.equals with
  | none => pure (.object [(ascii "property", .str c.propertyKey)])
  | some v => do
      let value ← valueJson L v
      pure (statementJson c.propertyKey v.kind value)

/-- The fields of a query's document. -/
def queryFields (q : OntologyQuery) (conditions : List Json) : List (Bytes × Json) :=
  [(ascii "class", .str q.classKey), (ascii "subclasses", .bool q.includeSubclasses),
    (ascii "deleted", .bool q.includeDeleted), (ascii "conditions", .arr conditions)]

def queryJson (q : OntologyQuery) : Fallible Json := do
  text L q.classKey 1024 false
  failIf (16 < q.conditions.length) "too many ontology query conditions"
  let conditions ← q.conditions.mapM (conditionJson L)
  let result := Json.object (queryFields q conditions)
  let dumped ← L.dump result
  failIf (256 * 1024 < dumped.length) "ontology query exceeds 256 KiB"
  pure result

def decodeCondition (item : Json) : Fallible OntologyCondition := do
  let propertyKey ← (← item.member (ascii "property")).getStr
  if item.contains (ascii "value") then do
    let kind ← (← item.member (ascii "kind")).getInt32
    let dumped ← L.dump (← item.member (ascii "value"))
    let value ← decodeValue L kind dumped
    pure ⟨propertyKey, some value⟩
  else pure ⟨propertyKey, none⟩

def decodeQuery (j : Json) : Fallible OntologyQuery := do
  let classKey ← (← j.member (ascii "class")).getStr
  let includeSubclasses ← (← j.member (ascii "subclasses")).getBool
  let includeDeleted ← (← j.member (ascii "deleted")).getBool
  let conditions ← (← j.member (ascii "conditions")).items.mapM (decodeCondition L)
  let result : OntologyQuery := ⟨classKey, includeSubclasses, conditions, includeDeleted⟩
  let encoded ← queryJson L result
  failIf (encoded.equal j = false) "invalid saved ontology query"
  pure result

/-- The document of a directory. -/
def directoryJson (label : Bytes) (query : Json) : Json :=
  .object [(ascii "label", .str label), (ascii "query", query)]

/-- The query of a stored directory. -/
def directoryQuery (document : Bytes) : Fallible OntologyQuery := do
  let j ← L.parseText document
  decodeQuery L (← j.member (ascii "query"))

def directoryPath (path : Bytes) : Fallible Unit := do
  text L path 4096 true
  failIf (path.head? = some 47 ∨ path.getLast? = some 47 ∨ 92 ∈ path ∨ 58 ∈ path)
    "ontology directory path must be relative"
  failIf (∃ part ∈ components path, part = [] ∨ part = ascii "." ∨ part = ascii "..")
    "ontology directory traversal"

/-! ## Round trips -/

end Ontology

/-- A resource is read back from the key of its node. -/
theorem Ontology.resourceKey_node (r : OntologyResource) :
    Ontology.resourceKey r.node = .ok r := by
  obtain ⟨kind, key⟩ := r
  cases kind <;> rfl

/-- Two resources have two nodes. -/
theorem OntologyResource.node_injective : Function.Injective OntologyResource.node := by
  intro r s h
  have hr := Ontology.resourceKey_node r
  rw [h, Ontology.resourceKey_node] at hr
  exact (Except.ok.inj hr).symm

/-- A value as it is stored: zero has no sign. -/
def OntologyValue.normal : OntologyValue → OntologyValue
  | .real x => .real (if x.isZero then .zero else x)
  | v => v

@[simp] theorem OntologyValue.kind_normal (v : OntologyValue) : v.normal.kind = v.kind := by
  cases v <;> rfl

/-- A condition as it is stored. -/
def OntologyCondition.normal (c : OntologyCondition) : OntologyCondition :=
  { c with equals := c.equals.map (·.normal) }

/-- A query as it is stored. -/
def OntologyQuery.normal (q : OntologyQuery) : OntologyQuery :=
  { q with conditions := q.conditions.map (·.normal) }

namespace Ontology

variable {L}

/-- The document of a value is canonical. -/
theorem valueJson_canonical {v : OntologyValue} {j : Json} (h : valueJson L v = .ok j) :
    j.Canonical := by
  cases v with
  | resource r =>
      simp only [valueJson, bind_ok, pure_ok] at h
      obtain ⟨key, -, rfl⟩ := h
      trivial
  | text s =>
      simp only [valueJson, bind_ok, pure_ok] at h
      obtain ⟨-, -, rfl⟩ := h
      trivial
  | integer n =>
      simp only [valueJson, pure_ok] at h
      subst h
      have hlow := Int64.le_toInt n
      have hhigh := Int64.toInt_lt n
      exact ⟨by omega, by omega⟩
  | real x =>
      simp only [valueJson, bind_ok, failIf_ok, pure_ok, Bool.not_eq_false] at h
      obtain ⟨-, hfinite, rfl⟩ := h
      show (if x.isZero then Double.zero else x).isFinite = true
      split
      · decide
      · exact hfinite
  | boolean b =>
      simp only [valueJson, pure_ok] at h
      subst h
      trivial

/-- A stored value is written as it stands. -/
theorem valueJson_normal {v : OntologyValue} {j : Json} (h : valueJson L v = .ok j) :
    valueJson L v.normal = .ok j := by
  cases v with
  | real x =>
      simp only [valueJson, bind_ok, failIf_ok, pure_ok, Bool.not_eq_false] at h
      obtain ⟨-, hfinite, rfl⟩ := h
      simp only [OntologyValue.normal, valueJson, bind_ok, failIf_ok, pure_ok]
      refine ⟨(), ?_, ?_⟩
      · split
        · decide
        · rw [hfinite]; decide
      · split
        · rfl
        · rfl
  | resource _ | text _ | integer _ | boolean _ => exact h

/-- **A written value is read back.** -/
theorem readValue_valueJson {v : OntologyValue} {j : Json} (h : valueJson L v = .ok j) :
    readValue v.kind.code j = .ok v.normal := by
  unfold readValue
  rw [OntologyValueKind.ofCode?_code]
  cases v with
  | resource r =>
      simp only [valueJson, bind_ok, pure_ok, nodeKey] at h
      obtain ⟨key, ⟨-, -, rfl⟩, rfl⟩ := h
      show (resourceKey r.node >>= fun resource => pure (OntologyValue.resource resource)) = _
      rw [resourceKey_node]
      rfl
  | text s =>
      simp only [valueJson, bind_ok, pure_ok] at h
      obtain ⟨-, -, rfl⟩ := h
      rfl
  | integer n =>
      simp only [valueJson, pure_ok] at h
      subst h
      have hhigh := Int64.toInt_lt n
      show (if n.toInt ≤ int64Max then Except.ok _ else _) = _
      rw [if_pos (by unfold int64Max; omega), Int64.ofInt_toInt]
      rfl
  | real x =>
      simp only [valueJson, bind_ok, failIf_ok, pure_ok, Bool.not_eq_false] at h
      obtain ⟨-, -, rfl⟩ := h
      rfl
  | boolean b =>
      simp only [valueJson, pure_ok] at h
      subst h
      rfl

/-- **A stored value is decoded.** The text is parsed as the value it was printed from, and what is
read of that has the same document again. -/
theorem decodeValue_valueJson {v : OntologyValue} {j : Json} {t : Bytes}
    (h : valueJson L v = .ok j) (ht : L.dump j = .ok t) (hlen : t.length ≤ 400000) :
    decodeValue L v.kind.code t = .ok v.normal := by
  have hparse := JsonLibrary.parseText_of_dump (valueJson_canonical h) ht
  simp only [decodeValue, bind_ok, failIf_ok, pure_ok]
  exact ⟨(), by omega, j, hparse, v.normal, readValue_valueJson h, j, valueJson_normal h, t, ht,
    (), fun hne => hne rfl, rfl⟩

/-- The members of a property are distinct. -/
theorem propertyFields_nodup (p : OntologyProperty) : ((propertyFields p).map (·.1)).Nodup := by
  show [ascii "key", ascii "label", ascii "kind", ascii "domain", ascii "range", ascii "single",
    ascii "acyclic"].Nodup
  decide

/-- The document of a property has its members. -/
theorem propertyJson_ok {p : OntologyProperty} {j : Json} (h : propertyJson L p = .ok j) :
    j = .object (propertyFields p) := by
  simp only [propertyJson, bind_ok, pure_ok] at h
  obtain ⟨-, -, -, -, -, -, -, -, -, -, rfl⟩ := h
  rfl

/-- The document of a property is canonical. -/
theorem propertyJson_canonical {p : OntologyProperty} {j : Json} (h : propertyJson L p = .ok j) :
    j.Canonical := by
  rw [propertyJson_ok h]
  refine Json.canonical_object (propertyFields_nodup p) fun m hm => ?_
  have hbounds := p.kind.code_bounds
  simp only [propertyFields, List.mem_cons, List.not_mem_nil, or_false] at hm
  rcases hm with rfl | rfl | rfl | rfl | rfl | rfl | rfl
  case inr.inr.inl => exact ⟨by omega, by omega⟩
  all_goals trivial

/-- The number of a kind is read as it stands. -/
theorem getInt32_code (kind : OntologyValueKind) :
    (Json.int kind.code).getInt32 = .ok kind.code := by
  have hbounds := kind.code_bounds
  show Except.ok _ = Except.ok _
  congr 1
  omega

/-- **A stored property is decoded.** -/
theorem decodeProperty_propertyJson {p : OntologyProperty} {j : Json} {t : Bytes}
    (h : propertyJson L p = .ok j) (ht : L.dump j = .ok t) : decodeProperty L t = .ok p := by
  have hparse := JsonLibrary.parseText_of_dump (propertyJson_canonical h) ht
  have hmember : ∀ m ∈ propertyFields p, j.member m.1 = .ok m.2 := by
    intro m hm
    rw [propertyJson_ok h]
    exact Json.member_object (propertyFields_nodup p) hm
  simp only [propertyFields, List.forall_mem_cons, List.not_mem_nil, false_implies,
    implies_true, and_true] at hmember
  obtain ⟨hkey, hlabel, hkind, hdomain, hrange, hsingle, hacyclic⟩ := hmember
  simp only [decodeProperty, bind_ok, failIf_ok, orFail_ok, pure_ok]
  exact ⟨j, hparse, _, hkey, _, rfl, _, hlabel, _, rfl, _, hkind, _, getInt32_code _, _, hdomain,
    _, rfl, _, hrange, _, rfl, _, hsingle, _, rfl, _, hacyclic, _, rfl, _,
    OntologyValueKind.ofCode?_code _, _, h, _, ht, (), fun hne => hne rfl, rfl⟩

/-! ### Queries -/

/-- The document of a condition that asks for a value. -/
theorem statementJson_nodup (propertyKey : Bytes) (kind : OntologyValueKind) (value : Json) :
    ([(ascii "property", Json.str propertyKey), (ascii "kind", .int kind.code),
      (ascii "value", value)].map (·.1)).Nodup := by
  show [ascii "property", ascii "kind", ascii "value"].Nodup
  decide

/-- The document of a statement is canonical where that of its value is. -/
theorem statementJson_canonical {propertyKey : Bytes} {kind : OntologyValueKind} {value : Json}
    (h : value.Canonical) : (statementJson propertyKey kind value).Canonical := by
  refine Json.canonical_object (statementJson_nodup _ _ _) fun m hm => ?_
  have hbounds := kind.code_bounds
  simp only [List.mem_cons, List.not_mem_nil, or_false] at hm
  rcases hm with rfl | rfl | rfl
  · trivial
  · exact ⟨by omega, by omega⟩
  · exact h

/-- The members of a statement's document. -/
theorem statementJson_members (propertyKey : Bytes) (kind : OntologyValueKind) (value : Json) :
    (statementJson propertyKey kind value).member (ascii "property") = .ok (.str propertyKey) ∧
    (statementJson propertyKey kind value).member (ascii "kind") = .ok (.int kind.code) ∧
    (statementJson propertyKey kind value).member (ascii "value") = .ok value := by
  have hk := statementJson_nodup propertyKey kind value
  exact ⟨Json.member_object hk (by simp), Json.member_object hk (by simp),
    Json.member_object hk (by simp)⟩

/-- The document of a condition is canonical. -/
theorem conditionJson_canonical {c : OntologyCondition} {j : Json}
    (h : conditionJson L c = .ok j) : j.Canonical := by
  obtain ⟨propertyKey, equals⟩ := c
  cases equals with
  | none =>
      simp only [conditionJson, bind_ok, pure_ok] at h
      obtain ⟨-, -, rfl⟩ := h
      refine Json.canonical_object (List.nodup_singleton _) fun m hm => ?_
      rw [List.mem_singleton.1 hm]
      trivial
  | some v =>
      simp only [conditionJson, bind_ok, pure_ok] at h
      obtain ⟨-, -, value, hvalue, rfl⟩ := h
      exact statementJson_canonical (valueJson_canonical hvalue)

/-- A condition and its normal form have one document. -/
theorem conditionJson_normal {c : OntologyCondition} {j : Json}
    (h : conditionJson L c = .ok j) : conditionJson L c.normal = .ok j := by
  obtain ⟨propertyKey, equals⟩ := c
  cases equals with
  | none => exact h
  | some v =>
      simp only [conditionJson, OntologyCondition.normal, Option.map_some, bind_ok, pure_ok,
        OntologyValue.kind_normal] at h ⊢
      obtain ⟨u, htext, value, hvalue, rfl⟩ := h
      exact ⟨u, htext, value, valueJson_normal hvalue, rfl⟩

/-- A condition is read back in its normal form, within the limit of documents. Without a value
nothing is left to read, and with one its text is decoded under the limit of a document. -/
theorem decodeCondition_conditionJson {c : OntologyCondition} {j : Json} {t : Bytes}
    (h : conditionJson L c = .ok j) (ht : L.dump j = .ok t) (hlen : t.length ≤ 400000) :
    decodeCondition L j = .ok c.normal := by
  obtain ⟨propertyKey, equals⟩ := c
  cases equals with
  | none =>
      simp only [conditionJson, bind_ok, pure_ok] at h
      obtain ⟨-, -, rfl⟩ := h
      have hk : ([(ascii "property", Json.str propertyKey)].map (·.1)).Nodup :=
        List.nodup_singleton _
      have hmember : (Json.object [(ascii "property", .str propertyKey)]).member
          (ascii "property") = .ok (.str propertyKey) :=
        Json.member_object hk List.mem_cons_self
      have hnot : ¬ (Json.object [(ascii "property", .str propertyKey)]).contains
          (ascii "value") = true := by
        rw [Json.contains_object]
        show ascii "value" ∉ [ascii "property"]
        decide
      simp only [decodeCondition, bind_ok]
      refine ⟨_, hmember, propertyKey, rfl, ?_⟩
      rw [if_neg hnot]
      rfl
  | some v =>
      simp only [conditionJson, bind_ok, pure_ok] at h
      obtain ⟨-, -, value, hvalue, rfl⟩ := h
      obtain ⟨hproperty, hkind, hmember⟩ := statementJson_members propertyKey v.kind value
      have hcontains : (statementJson propertyKey v.kind value).contains (ascii "value") = true :=
        Json.contains_object.2 (by simp)
      -- The text of the value is part of the text of the condition.
      simp only [JsonLibrary.dump, orFail_ok] at ht
      obtain ⟨s, hs, hle⟩ := Json.dump_member ht (m := (ascii "value", value))
        (Keyset.mem_orderBy.2 (by simp))
      have hdump : L.dump value = .ok s := orFail_ok.2 hs
      simp only [decodeCondition, bind_ok]
      refine ⟨_, hproperty, propertyKey, rfl, ?_⟩
      rw [if_pos hcontains]
      simp only [bind_ok, pure_ok]
      exact ⟨_, hkind, _, getInt32_code _, _, hmember, s, hdump, v.normal,
        decodeValue_valueJson hvalue hdump (hle.trans hlen), rfl⟩

/-- The members of a query are distinct. -/
theorem queryFields_nodup (q : OntologyQuery) (conditions : List Json) :
    ((queryFields q conditions).map (·.1)).Nodup := by
  show [ascii "class", ascii "subclasses", ascii "deleted", ascii "conditions"].Nodup
  decide

/-- A query has a document exactly when its class, its conditions and their text are within the
limits. -/
theorem queryJson_ok {q : OntologyQuery} {j : Json} : queryJson L q = .ok j ↔
    text L q.classKey 1024 false = .ok () ∧ q.conditions.length ≤ 16 ∧
    ∃ conditions, q.conditions.mapM (conditionJson L) = .ok conditions ∧
      j = .object (queryFields q conditions) ∧
      ∃ t, L.dump j = .ok t ∧ t.length ≤ 256 * 1024 := by
  simp only [queryJson, bind_ok, failIf_ok, pure_ok, not_lt]
  constructor
  · rintro ⟨_, htext, -, hcount, conditions, hconditions, t, ht, -, hlen, rfl⟩
    exact ⟨htext, hcount, conditions, hconditions, rfl, t, ht, hlen⟩
  · rintro ⟨htext, hcount, conditions, hconditions, rfl, t, ht, hlen⟩
    exact ⟨(), htext, (), hcount, conditions, hconditions, t, ht, (), hlen, rfl⟩

/-- The document of a query is canonical. -/
theorem queryJson_canonical {q : OntologyQuery} {j : Json} (h : queryJson L q = .ok j) :
    j.Canonical := by
  obtain ⟨-, -, conditions, hconditions, rfl, -⟩ := queryJson_ok.1 h
  refine Json.canonical_object (queryFields_nodup q conditions) fun m hm => ?_
  simp only [queryFields, List.mem_cons, List.not_mem_nil, or_false] at hm
  rcases hm with rfl | rfl | rfl | rfl
  case inr.inr.inr =>
    refine Json.canonicalElements_iff.2 fun x hx => ?_
    rw [mapM_ok] at hconditions
    obtain ⟨c, -, hc⟩ := List.mem_map.1 (hconditions ▸ List.mem_map_of_mem hx)
    exact conditionJson_canonical hc
  all_goals trivial

/-- A stored query is written as it stands. -/
theorem queryJson_normal {q : OntologyQuery} {j : Json} (h : queryJson L q = .ok j) :
    queryJson L q.normal = .ok j := by
  obtain ⟨htext, hcount, conditions, hconditions, rfl, hdump⟩ := queryJson_ok.1 h
  refine queryJson_ok.2 ⟨htext, ?_, conditions, ?_, rfl, hdump⟩
  · rw [OntologyQuery.normal, List.length_map]
    exact hcount
  · exact mapM_replace hconditions fun _ _ => conditionJson_normal

/-- **A stored query is decoded.** The conditions are read one by one, and the query in normal form
has the same document, so that it passes the check. -/
theorem decodeQuery_queryJson {q : OntologyQuery} {j : Json} (h : queryJson L q = .ok j) :
    decodeQuery L j = .ok q.normal := by
  obtain ⟨htext, hcount, conditions, hconditions, rfl, t, ht, hlen⟩ := queryJson_ok.1 h
  have hmember : ∀ m ∈ queryFields q conditions,
      (Json.object (queryFields q conditions)).member m.1 = .ok m.2 :=
    fun m hm => Json.member_object (queryFields_nodup q conditions) hm
  simp only [queryFields, List.forall_mem_cons, List.not_mem_nil, false_implies,
    implies_true, and_true] at hmember
  obtain ⟨hclass, hsubclasses, hdeleted, hlist⟩ := hmember
  -- Every condition is decoded from a text inside the text of the query.
  have hdecode : (Json.arr conditions).items.mapM (decodeCondition L)
      = .ok (q.conditions.map (·.normal)) := by
    refine mapM_inverse hconditions fun c item hitem hc => ?_
    simp only [JsonLibrary.dump, orFail_ok] at ht
    obtain ⟨s, hs, hle⟩ := Json.dump_member ht (m := (ascii "conditions", .arr conditions))
      (Keyset.mem_orderBy.2 (by simp [queryFields]))
    obtain ⟨s', hs', hle'⟩ := Json.dump_element hs hitem
    exact decodeCondition_conditionJson hc (orFail_ok.2 hs') (by omega)
  simp only [decodeQuery, bind_ok, failIf_ok, pure_ok, Bool.not_eq_false]
  exact ⟨_, hclass, _, rfl, _, hsubclasses, _, rfl, _, hdeleted, _, rfl, _, hlist, _, hdecode, _,
    queryJson_normal h, (), Json.equal_refl _, rfl⟩

/-- The document of a stored directory gives its query back. -/
theorem directoryQuery_directoryJson {label t : Bytes} {q : OntologyQuery} {j : Json}
    (h : queryJson L q = .ok j) (ht : L.dump (directoryJson label j) = .ok t) :
    directoryQuery L t = .ok q.normal := by
  have hk : ([(ascii "label", Json.str label), (ascii "query", j)].map (·.1)).Nodup := by
    show [ascii "label", ascii "query"].Nodup
    decide
  have hcanonical : (directoryJson label j).Canonical := by
    refine Json.canonical_object hk fun m hm => ?_
    simp only [List.mem_cons, List.not_mem_nil, or_false] at hm
    rcases hm with rfl | rfl
    · trivial
    · exact queryJson_canonical h
  have hmember : (directoryJson label j).member (ascii "query") = .ok j :=
    Json.member_object hk (by simp)
  simp only [directoryQuery, bind_ok]
  exact ⟨_, JsonLibrary.parseText_of_dump hcanonical ht, j, hmember, decodeQuery_queryJson h⟩

end Ontology

end FileProvider
