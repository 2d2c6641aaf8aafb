import Mathlib.Logic.Function.Basic
import FileProvider.Library.JsonReference
import FileProvider.Ontology.Changes

/-!
# Stored values and definitions

The texts in which the graph keeps its values, queries, classes and properties. Every value has
a text within the decoder's limit, only the texts that the encoder writes are decoded, and two
values have one text exactly when they are equal; a definition that was applied is the one its
document and its rows give back.

Values are compared as the source compares them, where the two zeros are equal; that two values then
have one text is what lets statements be found by their text. The bound of the decoder is met by
summing the bounds of the parts.
-/

namespace FileProvider

open Bytes Fallible

/-! ## Values -/

/-- Equality of values, under which the zeros are equal. -/
def OntologyValue.equal : OntologyValue → OntologyValue → Bool
  | .real x, .real y => x.equal y
  | v, w => v = w

/-- Two numbers that are no NaN are equal when they are the same but for the sign of zero. -/
theorem Double.equal_iff {x y : Double} : x.equal y = true ↔
    (if x.isZero then Double.zero else x) = (if y.isZero then Double.zero else y) := by
  have hzero : Double.zero.isZero = true := by decide
  simp only [Double.equal, Bool.or_eq_true, decide_eq_true_eq, Bool.and_eq_true]
  constructor
  · rintro (rfl | ⟨hx, hy⟩)
    · rfl
    · rw [if_pos hx, if_pos hy]
  · intro h
    split at h
    · next hx =>
        split at h
        · next hy => exact .inr ⟨hx, hy⟩
        · next hy =>
            rw [← h] at hy
            exact absurd hzero hy
    · next hx =>
        split at h
        · next hy =>
            rw [h] at hx
            exact absurd hzero hx
        · exact .inl h

/-- Values are equal when they are stored as the same value. -/
theorem OntologyValue.equal_iff {v w : OntologyValue} :
    v.equal w = true ↔ v.normal = w.normal := by
  cases v with
  | real x =>
      cases w with
      | real y =>
          show x.equal y = true ↔ _
          rw [Double.equal_iff]
          exact ⟨congrArg OntologyValue.real, OntologyValue.real.inj⟩
      | resource _ | text _ | integer _ | boolean _ =>
          simp [OntologyValue.equal, OntologyValue.normal]
  | resource _ | text _ | integer _ | boolean _ =>
      cases w with
      | real y => simp [OntologyValue.equal, OntologyValue.normal]
      | resource _ | text _ | integer _ | boolean _ =>
          simp [OntologyValue.equal, OntologyValue.normal]

/-- A normal value is normal. -/
theorem OntologyValue.normal_normal (v : OntologyValue) : v.normal.normal = v.normal := by
  cases v with
  | real x =>
      have hzero : Double.zero.isZero = true := by decide
      by_cases hx : x.isZero = true
      · simp [OntologyValue.normal, hx, hzero]
      · simp [OntologyValue.normal, hx]
  | resource _ | text _ | integer _ | boolean _ => rfl

namespace Ontology

variable {L : JsonLibrary}

/-- The text of the key of a resource. -/
theorem validUtf8_node {r : OntologyResource} (h : Json.validUtf8 r.key = true) :
    Json.validUtf8 r.node = true := by
  obtain ⟨kind, key⟩ := r
  cases kind with
  | file =>
      rw [OntologyResource.node, Json.validUtf8_append (by decide)]
      exact h
  | entity =>
      rw [OntologyResource.node, Json.validUtf8_append (by decide)]
      exact h

/-- A text is printed exactly when it is valid UTF-8, as its escaped bytes between quotes. -/
theorem dump_text {s t : Bytes} : L.dump (.str s) = .ok t ↔
    Json.validUtf8 s = true ∧ t = 34 :: s.flatMap Json.escapeByte ++ [34] := by
  simp only [JsonLibrary.dump, orFail_ok, Json.dump, Json.dumpString]
  split
  · next hs => simp [hs, eq_comm]
  · next hs => simp [hs]

/-- A value that is accepted has a text. -/
theorem exists_dump_valueJson {v : OntologyValue} {j : Json} (h : valueJson L v = .ok j) :
    ∃ t, L.dump j = .ok t := by
  cases v with
  | resource r =>
      simp only [valueJson, nodeKey, text, bind_ok, pure_ok] at h
      obtain ⟨_, ⟨-, ⟨-, -, t, ht, -⟩, rfl⟩, rfl⟩ := h
      exact ⟨_, dump_text.2 ⟨validUtf8_node (dump_text.1 ht).1, rfl⟩⟩
  | text s =>
      simp only [valueJson, text, bind_ok, pure_ok] at h
      obtain ⟨-, ⟨-, -, t, ht, -⟩, rfl⟩ := h
      exact ⟨t, ht⟩
  | integer n =>
      simp only [valueJson, pure_ok] at h
      subst h
      exact ⟨_, rfl⟩
  | real x =>
      simp only [valueJson, bind_ok, pure_ok] at h
      obtain ⟨-, -, rfl⟩ := h
      exact ⟨_, rfl⟩
  | boolean b =>
      simp only [valueJson, pure_ok] at h
      subst h
      cases b with
      | false => exact ⟨_, rfl⟩
      | true => exact ⟨_, rfl⟩

/-- A text grows by at most six bytes for each of its own. -/
theorem length_dump_text {s t : Bytes} {limit : Nat} (hs : s.length ≤ limit)
    (h : L.dump (.str s) = .ok t) : t.length ≤ 6 * limit + 2 := by
  have hle := Json.length_dumpString (orFail_ok.1 h)
  omega

/-- An integer of 64 bits takes at most 21 bytes. -/
theorem length_decimalInt {n : Int} (hlow : -(2 ^ 63) ≤ n) (hhigh : n < 2 ^ 64) :
    (decimalInt n).length ≤ 21 := by
  cases n with
  | ofNat n =>
      have hbound : n < 10 ^ 20 := by
        have hn : (n : Int) < 2 ^ 64 := hhigh
        omega
      have hlen := length_decimal (k := 20) (by decide) hbound
      show (decimal n).length ≤ 21
      omega
  | negSucc n =>
      have hlen := length_decimal (n := n + 1) (k := 20) (by omega) (by omega)
      show (decimal (n + 1)).length + 1 ≤ 21
      omega

/-- **The decoder's limit admits every value that is written.** There is one case for each kind: a
text is bounded by its own check, and a number by its digits or by the hypothesis on printed
numbers. -/
theorem length_valueJson (hreal : ∀ x : Double, x.isFinite = true → (L.realText x).length ≤ 64)
    {v : OntologyValue} {j : Json} {t : Bytes} (h : valueJson L v = .ok j)
    (ht : L.dump j = .ok t) : t.length ≤ 400000 := by
  have hcanonical := valueJson_canonical h
  cases v with
  | resource r =>
      simp only [valueJson, nodeKey, bind_ok, pure_ok] at h
      obtain ⟨_, ⟨u, hkey, rfl⟩, rfl⟩ := h
      have hnode : r.node.length ≤ 1031 := by
        obtain ⟨-, hlen, -⟩ := text_ok hkey
        obtain ⟨kind, key⟩ := r
        cases kind with
        | file =>
            show key.length + 5 ≤ 1031
            have hlen' : key.length ≤ 1024 := hlen
            omega
        | entity =>
            show key.length + 7 ≤ 1031
            have hlen' : key.length ≤ 1024 := hlen
            omega
      have hle := length_dump_text hnode ht
      omega
  | text s =>
      simp only [valueJson, bind_ok, pure_ok] at h
      obtain ⟨u, htext, rfl⟩ := h
      have hle := length_dump_text (text_ok htext).2.1 ht
      omega
  | integer n =>
      simp only [valueJson, pure_ok] at h
      subst h
      obtain rfl := Except.ok.inj ht
      obtain ⟨hlow, hhigh⟩ := hcanonical
      have hle := length_decimalInt hlow hhigh
      omega
  | real x =>
      simp only [valueJson, bind_ok, pure_ok] at h
      obtain ⟨-, -, rfl⟩ := h
      obtain rfl := Except.ok.inj ht
      have hle := hreal _ hcanonical
      omega
  | boolean b =>
      simp only [valueJson, pure_ok] at h
      subst h
      cases b with
      | false =>
          obtain rfl := Except.ok.inj ht
          decide
      | true =>
          obtain rfl := Except.ok.inj ht
          decide

/-- A value that is read has the kind that was asked for. -/
theorem readValue_kind {kind : Int} {j : Json} {v : OntologyValue}
    (h : readValue kind j = .ok v) : OntologyValueKind.ofCode? kind = some v.kind := by
  unfold readValue at h
  generalize OntologyValueKind.ofCode? kind = k at h
  cases k with
  | none => cases h
  | some k =>
      cases k with
      | resource =>
          simp only [bind_ok, pure_ok] at h
          obtain ⟨-, -, -, -, rfl⟩ := h
          rfl
      | text =>
          simp only [bind_ok, pure_ok] at h
          obtain ⟨-, -, rfl⟩ := h
          rfl
      | integer =>
          cases j with
          | int n =>
              simp only [integer] at h
              split at h
              · obtain rfl := Except.ok.inj h
                rfl
              · cases h
          | null | bool _ | real _ | str _ | arr _ | obj _ => cases h
      | real =>
          cases j with
          | real x =>
              obtain rfl := Except.ok.inj h
              rfl
          | null | bool _ | int _ | str _ | arr _ | obj _ => cases h
      | boolean =>
          simp only [bind_ok, pure_ok] at h
          obtain ⟨-, -, rfl⟩ := h
          rfl

/-- **Only canonical texts are decoded.** The text is the encoding of the value it gives, whose
zero has no sign. -/
theorem decodeValue_ok {kind : Int} {t : Bytes} {v : OntologyValue}
    (h : decodeValue L kind t = .ok v) : OntologyValueKind.ofCode? kind = some v.kind ∧
      v.normal = v ∧ ∃ j, valueJson L v = .ok j ∧ L.dump j = .ok t := by
  simp only [decodeValue, bind_ok, failIf_ok, pure_ok, not_not] at h
  obtain ⟨-, -, parsed, hparsed, w, hread, j, hj, dumped, hdumped, -, rfl, rfl⟩ := h
  refine ⟨readValue_kind hread, ?_, j, hj, hdumped⟩
  -- What was parsed is the document of the value, so reading it again gives the stored value.
  have hsame : parsed = j := by
    have hagain := JsonLibrary.parseText_of_dump (valueJson_canonical hj) hdumped
    exact Except.ok.inj (hparsed.symm.trans hagain)
  have hkind := readValue_kind hread
  have hnormal := readValue_valueJson hj
  rw [hsame] at hread
  unfold readValue at hread hnormal
  rw [OntologyValueKind.ofCode?_code] at hnormal
  rw [hkind] at hread
  exact Except.ok.inj (hnormal.symm.trans hread)

/-- **Values of one kind have one text exactly when they are equal.** Equal values have one normal
form and so one document, and a document is decoded to the normal form. -/
theorem equal_iff_text {v w : OntologyValue} {j k : Json} {t u : Bytes} (hkind : v.kind = w.kind)
    (hv : valueJson L v = .ok j) (hw : valueJson L w = .ok k) (ht : L.dump j = .ok t)
    (hu : L.dump k = .ok u) : v.equal w = true ↔ t = u := by
  rw [OntologyValue.equal_iff]
  constructor
  · intro heq
    have hj := valueJson_normal hv
    rw [heq] at hj
    obtain rfl : k = j := Except.ok.inj ((valueJson_normal hw).symm.trans hj)
    exact Except.ok.inj (ht.symm.trans hu)
  · rintro rfl
    obtain rfl := JsonLibrary.dump_injective (valueJson_canonical hv) (valueJson_canonical hw) ht hu
    have hread := readValue_valueJson hv
    rw [hkind] at hread
    exact Except.ok.inj (hread.symm.trans (readValue_valueJson hw))

/-! ## Classes -/

end Ontology

/-- A class with its parents in order. -/
def OntologyClass.sorted (c : OntologyClass) : OntologyClass :=
  { c with parents := Keyset.orderBy order c.parents }

namespace Ontology

/-- The class that a class document describes. The program only writes these documents: the
journal keeps them, and a class is read back from its rows. -/
def readClass (L : JsonLibrary) (document : Bytes) : Fallible OntologyClass := do
  let j ← L.parseText document
  let key ← (← j.member (ascii "key")).getStr
  let label ← (← j.member (ascii "label")).getStr
  let description ← (← j.member (ascii "description")).getStr
  let parents ← (← (← j.member (ascii "parents")).getElements).mapM Json.getStr
  pure ⟨key, label, description, parents⟩

/-- The members of a class document. -/
def classFields (c : OntologyClass) : List (Bytes × Json) :=
  [(ascii "key", .str c.key), (ascii "label", .str c.label),
    (ascii "description", .str c.description), (ascii "parents", .arr (c.parents.map .str))]

/-- The members of a class are distinct. -/
theorem classFields_nodup (c : OntologyClass) : ((classFields c).map (·.1)).Nodup := by
  show [ascii "key", ascii "label", ascii "description", ascii "parents"].Nodup
  decide

/-- The document of a class has its members with the parents in order, and none of them twice. -/
theorem classJson_ok {c : OntologyClass} {j : Json} (h : classJson L c = .ok j) :
    j = .object (classFields c.sorted) ∧ c.parents.Nodup := by
  simp only [classJson, bind_ok, failIf_ok, pure_ok, not_not] at h
  obtain ⟨-, -, -, -, -, -, -, -, -, -, -, hnodup, rfl⟩ := h
  exact ⟨rfl, (Keyset.orderBy_perm c.parents).nodup_iff.1 hnodup⟩

/-- The parents in order are in ascending order. -/
theorem sorted_ascending {c : OntologyClass} (h : c.parents.Nodup) :
    Keyset.Ascending order c.sorted.parents :=
  Keyset.ascending_orderBy (h.map order_injective)

/-- The document of a class is canonical. -/
theorem classFields_canonical (c : OntologyClass) : (Json.object (classFields c)).Canonical := by
  refine Json.canonical_object (classFields_nodup c) fun m hm => ?_
  simp only [classFields, List.mem_cons, List.not_mem_nil, or_false] at hm
  rcases hm with rfl | rfl | rfl | rfl
  · trivial
  · trivial
  · trivial
  · refine Json.canonicalElements_iff.2 fun x hx => ?_
    obtain ⟨s, -, rfl⟩ := List.mem_map.1 hx
    trivial

/-- **A class document describes the class, its parents as a sorted set.** The parents are printed
in order, and a list in order without repetitions is its own sorted form. -/
theorem readClass_classJson {c : OntologyClass} {j : Json} {t : Bytes}
    (h : classJson L c = .ok j) (ht : L.dump j = .ok t) : readClass L t = .ok c.sorted := by
  obtain ⟨rfl, -⟩ := classJson_ok h
  have hparse := JsonLibrary.parseText_of_dump (classFields_canonical c.sorted) ht
  have hmember : ∀ m ∈ classFields c.sorted,
      (Json.object (classFields c.sorted)).member m.1 = .ok m.2 :=
    fun m hm => Json.member_object (classFields_nodup c.sorted) hm
  simp only [classFields, List.forall_mem_cons, List.not_mem_nil, false_implies, implies_true,
    and_true] at hmember
  obtain ⟨hkey, hlabel, hdescription, hparents⟩ := hmember
  have hlist : (c.sorted.parents.map Json.str).mapM Json.getStr = .ok c.sorted.parents := by
    rw [mapM_ok, List.map_map]
    rfl
  simp only [readClass, bind_ok, pure_ok]
  exact ⟨_, hparse, _, hkey, _, rfl, _, hlabel, _, rfl, _, hdescription, _, rfl, _, hparents, _,
    rfl, _, hlist, rfl⟩

/-- Class documents of the same text describe the same class. -/
theorem sorted_of_text {c d : OntologyClass} {j k : Json} {t : Bytes}
    (hc : classJson L c = .ok j) (hd : classJson L d = .ok k) (ht : L.dump j = .ok t)
    (hu : L.dump k = .ok t) : c.sorted = d.sorted :=
  Except.ok.inj ((readClass_classJson hc ht).symm.trans (readClass_classJson hd hu))

/-! ## Definitions that were applied -/

section
open OntologyFileSystem

variable {next : Nat} {b b' : Batch} {g : GraphTables}

/-- The parents of a stored class come in ascending order. -/
theorem parentsOf_ascending (key : Bytes) : Keyset.Ascending order (parentsOf g key) := by
  refine Keyset.ascending_orderBy ?_
  have hrows : g.parents.rows.Nodup := by
    have hnodup := g.parents.nodup
    rwa [List.map_id] at hnodup
  rw [List.map_map, List.nodup_map_iff_inj_on (hrows.filter _)]
  intro x hx y hy heq
  simp only [List.mem_filter, decide_eq_true_eq] at hx hy
  cases x with
  | mk child parent =>
      cases y with
      | mk child' parent' =>
          obtain rfl : child = key := hx.2
          obtain rfl : child' = child := hy.2
          obtain rfl : parent = parent' := order_injective heq
          rfl

/-- A class that is read back has its parents in order. -/
theorem getClass_sorted {key : Bytes} {c : OntologyClass} (h : getClass g key = some c) :
    c.sorted = c := by
  simp only [getClass, Option.map_eq_some_iff] at h
  obtain ⟨row, -, rfl⟩ := h
  have hparents := Keyset.orderBy_eq_self (parentsOf_ascending (g := g) key)
  simp only [OntologyClass.sorted, hparents]

/-- The text of a class is that of its document. -/
theorem classText_ok {c : OntologyClass} {t : Bytes} (h : classText L (some c) = .ok t) :
    ∃ j, classJson L c = .ok j ∧ L.dump j = .ok t :=
  bind_ok.1 h

/-- The text of a property is that of its document. -/
theorem propertyText_ok {p : OntologyProperty} {t : Bytes} (h : propertyText L (some p) = .ok t) :
    ∃ j, propertyJson L p = .ok j ∧ L.dump j = .ok t :=
  bind_ok.1 h

/-- The parents of a class after an edit wrote it, and those of the others. They are only written
anew if they differ as sets, and either way a list in order is determined by its members. -/
theorem parentsOf_written {c : OntologyClass}
    {parents : Table (id : ParentRow → ParentRow)} (h : ParentsWritten g c parents)
    (hnodup : c.parents.Nodup) (rows : Table ClassRow.key) (key : Bytes) :
    parentsOf { g with classes := rows, parents } key
      = if key = c.key then c.sorted.parents else parentsOf g key := by
  have hperm : ∀ l l' : List Bytes, Keyset.Ascending order l → Keyset.Ascending order l' →
      (∀ x, x ∈ l ↔ x ∈ l') → l = l' := fun l l' hl hl' hmem =>
    hl.eq_of_perm hl' ((List.perm_ext_iff_of_nodup hl.nodup_keys.of_map
      hl'.nodup_keys.of_map).2 hmem)
  cases hmoved : reparented (getClass g c.key) c with
  | true =>
      have hrows := (h.moved hmoved).1
      split
      · next heq =>
          subst heq
          refine hperm _ _ (parentsOf_ascending _) (sorted_ascending hnodup) fun x => ?_
          rw [mem_parentsOf, hrows, OntologyClass.sorted, Keyset.mem_orderBy]
          constructor
          · rintro (⟨-, hne⟩ | ⟨-, hx⟩)
            · exact absurd rfl hne
            · exact hx
          · exact fun hx => .inr ⟨rfl, hx⟩
      · next hne =>
          refine hperm _ _ (parentsOf_ascending _) (parentsOf_ascending _) fun x => ?_
          rw [mem_parentsOf, mem_parentsOf, hrows]
          constructor
          · rintro (⟨hx, -⟩ | ⟨heq, -⟩)
            · exact hx
            · exact absurd heq hne
          · exact fun hx => .inl ⟨hx, hne⟩
  | false =>
      -- The class is there with these parents already.
      obtain rfl := h.same hmoved
      split
      · next heq =>
          subst heq
          cases hold : getClass g c.key with
          | none =>
              rw [hold] at hmoved
              cases hmoved
          | some old =>
              rw [hold] at hmoved
              simp only [reparented, Option.all_some, decide_eq_false_iff_not, not_not] at hmoved
              have hsorted := congrArg OntologyClass.parents (getClass_sorted hold)
              simp only [getClass, Option.map_eq_some_iff] at hold
              obtain ⟨row, -, rfl⟩ := hold
              exact hsorted.symm.trans hmoved
      · rfl

/-- The classes after an edit wrote one. -/
theorem getClass_written {c : OntologyClass}
    {parents : Table (id : ParentRow → ParentRow)} (h : ParentsWritten g c parents)
    (hnodup : c.parents.Nodup) :
    getClass { g with classes := g.classes.upsert ⟨c.key, c.label, c.description⟩, parents }
      = Function.update (getClass g) c.key (some c.sorted) := by
  funext key
  unfold getClass
  dsimp only
  rw [Table.find_upsert, parentsOf_written h hnodup, Function.update_apply]
  by_cases heq : key = c.key
  · subst heq
    rw [if_pos rfl, if_pos rfl, if_pos rfl]
    rfl
  · have hne : ClassRow.key ⟨c.key, c.label, c.description⟩ ≠ key := fun h => heq h.symm
    rw [if_neg hne, if_neg heq, if_neg heq]

/-- **A class that was applied is read back**, its parents as a sorted set. If nothing differs
nothing is written, and the class that is there is the one in sorted form. -/
theorem getClass_applyClass {c : OntologyClass} (h : applyClass L next b c = .ok b') :
    getClass b'.graph c.key = some c.sorted := by
  simp only [applyClass, bind_ok] at h
  obtain ⟨j, hj, before, hbefore, after, hafter, h⟩ := h
  obtain ⟨hobject, hnodup⟩ := classJson_ok hj
  split at h
  · next heq =>
      rw [pure_ok] at h
      subst h heq
      cases hold : getClass b.graph c.key with
      | none =>
          -- The document of a class is not the empty text of no class.
          rw [hold] at hbefore
          obtain rfl := Except.ok.inj hbefore
          rw [hobject] at hafter
          exact absurd rfl (Json.dump_obj_ne_nil (orFail_ok.1 hafter))
      | some old =>
          rw [hold] at hbefore
          obtain ⟨k, hk, hdump⟩ := classText_ok hbefore
          rw [← getClass_sorted hold, sorted_of_text hk hj hdump hafter]
  · simp only [GraphTables.upsertClass, bind_ok, pure_ok] at h
    obtain ⟨-, -, written, ⟨-, -, rfl⟩, graph, hgraph, hevent⟩ := h
    obtain ⟨parents, rfl, hsame, hmoved⟩ := setParents_ok hgraph
    have hwritten : ParentsWritten b.graph c parents := ⟨hsame, hmoved⟩
    rw [event_graph hevent]
    exact (congrFun (getClass_written hwritten hnodup) c.key).trans (Function.update_self _ _ _)

/-- **A property that was applied is read back.** If nothing differs nothing is written, and
otherwise the document that is written is decoded. -/
theorem getProperty_applyProperty {p : OntologyProperty}
    (h : applyProperty L next b p = .ok b') : getProperty L b'.graph p.key = .ok (some p) := by
  simp only [applyProperty, bind_ok] at h
  obtain ⟨j, hj, after, hafter, -, -, -, -, old, hold, before, hbefore, h⟩ := h
  split at h
  · next heq =>
      rw [pure_ok] at h
      subst h heq
      cases old with
      | none =>
          obtain rfl := Except.ok.inj hbefore
          rw [propertyJson_ok hj] at hafter
          exact absurd rfl (Json.dump_obj_ne_nil (orFail_ok.1 hafter))
      | some q =>
          obtain ⟨k, hk, hdump⟩ := propertyText_ok hbefore
          have hsame := (decodeProperty_propertyJson hk hdump).symm.trans
            (decodeProperty_propertyJson hj hafter)
          rw [hold, Except.ok.inj hsame]
  · simp only [GraphTables.upsertProperty, bind_ok, pure_ok] at h
    obtain ⟨graph, ⟨-, -, rfl⟩, hevent⟩ := h
    rw [event_graph hevent]
    unfold getProperty
    rw [Table.find_upsert, if_pos rfl]
    dsimp only
    rw [decodeProperty_propertyJson hj hafter]
    rfl

end

/-! ## The codec -/

/-- **What is stored stands for what was given.** An accepted value has a text, which is within
the decoder's limit and is read back as the value, a zero without its sign; only such texts are
decoded; values of a kind have one text exactly when they are equal. A query is read back from
its document, and a property or a class that was applied from its document and from its rows. -/
theorem stored_exact (L : JsonLibrary)
    (hreal : ∀ x : Double, x.isFinite = true → (L.realText x).length ≤ 64) :
    (∀ v j, valueJson L v = .ok j → ∃ t, L.dump j = .ok t ∧
      decodeValue L v.kind.code t = .ok v.normal ∧ v.normal.equal v = true) ∧
    (∀ kind t v, decodeValue L kind t = .ok v →
      OntologyValueKind.ofCode? kind = some v.kind ∧ v.normal = v ∧
      ∃ j, valueJson L v = .ok j ∧ L.dump j = .ok t) ∧
    (∀ v w j k t u, v.kind = w.kind → valueJson L v = .ok j → valueJson L w = .ok k →
      L.dump j = .ok t → L.dump k = .ok u → (v.equal w = true ↔ t = u)) ∧
    (∀ q j, queryJson L q = .ok j → ∃ t parsed, L.dump j = .ok t ∧ L.parseText t = .ok parsed ∧
      decodeQuery L parsed = .ok q.normal) ∧
    (∀ p j t, propertyJson L p = .ok j → L.dump j = .ok t → decodeProperty L t = .ok p) ∧
    (∀ c j t, classJson L c = .ok j → L.dump j = .ok t → readClass L t = .ok c.sorted ∧
      Keyset.Ascending order c.sorted.parents ∧ c.sorted.parents.Perm c.parents) ∧
    (∀ next b c b', OntologyFileSystem.applyClass L next b c = .ok b' →
      getClass b'.graph c.key = some c.sorted) ∧
    (∀ next b p b', OntologyFileSystem.applyProperty L next b p = .ok b' →
      getProperty L b'.graph p.key = .ok (some p)) := by
  refine ⟨fun v j hj => ?_, fun kind t v h => decodeValue_ok h,
    fun v w j k t u hkind hj hk ht hu => equal_iff_text hkind hj hk ht hu, fun q j hj => ?_,
    fun p j t hj ht => decodeProperty_propertyJson hj ht, fun c j t hj ht => ?_,
    fun next b c b' h => getClass_applyClass h, fun next b p b' h => getProperty_applyProperty h⟩
  · obtain ⟨t, ht⟩ := exists_dump_valueJson hj
    refine ⟨t, ht, decodeValue_valueJson hj ht (length_valueJson hreal hj ht), ?_⟩
    rw [OntologyValue.equal_iff]
    exact v.normal_normal
  · obtain ⟨-, -, -, -, -, t, ht, -⟩ := queryJson_ok.1 hj
    exact ⟨t, j, ht, JsonLibrary.parseText_of_dump (queryJson_canonical hj) ht,
      decodeQuery_queryJson hj⟩
  · exact ⟨readClass_classJson hj ht, sorted_ascending (classJson_ok hj).2,
      Keyset.orderBy_perm c.parents⟩

/-- A query for a text with a quote in it, and for a property that is there. -/
def sampleQuery : OntologyQuery :=
  ⟨ascii "Note", true, [⟨ascii "title", some (.text (ascii "a \"b\""))⟩, ⟨ascii "author", none⟩],
    false⟩

/-- A property that leads to its parts. -/
def sampleProperty : OntologyProperty :=
  ⟨ascii "part", ascii "Part", .resource, ascii "Note", ascii "Note", false, true⟩

/-- A class whose parents are given out of order. -/
def sampleClass : OntologyClass := ⟨ascii "Note", ascii "Note", [], [ascii "b", ascii "a"]⟩

/-- A value, a query and a property are read back from their texts as they are, and a class with its
parents in order. -/
theorem stored_exact_sample :
    (∃ t, JsonReference.library.dump (.str (ascii "entity:a")) = .ok t ∧
      decodeValue JsonReference.library 0 t = .ok (.resource ⟨.entity, ascii "a"⟩)) ∧
    (∃ j t parsed, queryJson JsonReference.library sampleQuery = .ok j ∧
      JsonReference.library.dump j = .ok t ∧ JsonReference.library.parseText t = .ok parsed ∧
      decodeQuery JsonReference.library parsed = .ok sampleQuery) ∧
    (∃ j t, propertyJson JsonReference.library sampleProperty = .ok j ∧
      JsonReference.library.dump j = .ok t ∧
      decodeProperty JsonReference.library t = .ok sampleProperty) ∧
    ∃ j t, classJson JsonReference.library sampleClass = .ok j ∧
      JsonReference.library.dump j = .ok t ∧
      readClass JsonReference.library t
        = .ok { sampleClass with parents := [ascii "a", ascii "b"] } := by
  have hreal : ∀ x : Double, x.isFinite = true →
      (JsonReference.library.realText x).length ≤ 64 := by
    intro x _
    have hlen := length_decimal (n := x.bits.toNat) (k := 20) (by decide)
      (x.bits.toNat_lt.trans (by decide))
    show (decimal x.bits.toNat).length + 1 ≤ 64
    omega
  obtain ⟨hvalue, -, -, hquery, hproperty, hclass, -, -⟩ := stored_exact JsonReference.library hreal
  refine ⟨?_, ?_, ?_, ?_⟩
  · obtain ⟨t, ht, hdecode, -⟩ := hvalue (.resource ⟨.entity, ascii "a"⟩)
      (.str (ascii "entity:a")) rfl
    exact ⟨t, ht, hdecode⟩
  · have hok : (queryJson JsonReference.library sampleQuery).isOk = true := by decide +kernel
    obtain ⟨j, hj⟩ := exists_of_isOk hok
    obtain ⟨t, parsed, ht, hparsed, hdecode⟩ := hquery sampleQuery j hj
    exact ⟨j, t, parsed, hj, ht, hparsed, hdecode⟩
  · have hok : (propertyJson JsonReference.library sampleProperty >>=
        JsonReference.library.dump).isOk = true := by
      decide +kernel
    obtain ⟨t, h⟩ := exists_of_isOk hok
    obtain ⟨j, hj, ht⟩ := bind_ok.1 h
    exact ⟨j, t, hj, ht, hproperty sampleProperty j t hj ht⟩
  · have hok : (classJson JsonReference.library sampleClass >>=
        JsonReference.library.dump).isOk = true := by
      decide +kernel
    obtain ⟨t, h⟩ := exists_of_isOk hok
    obtain ⟨j, hj, ht⟩ := bind_ok.1 h
    exact ⟨j, t, hj, ht, (hclass sampleClass j t hj ht).1⟩

end Ontology

end FileProvider
