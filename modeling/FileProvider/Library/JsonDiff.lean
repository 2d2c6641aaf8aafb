import FileProvider.Library.Json
import Mathlib.Data.List.Dedup

/-!
# Differences of JSON values

The places at which two JSON values differ, each named by the keys that lead to it, with what
stands there in either value, and the patch that they are. `patch_changes` says that writing what
one value has at these places into the other gives the one; `changes_pairwise` that no place lies
in another; `readPointer_pointer` that the text of a place, its JSON pointer, names it whatever its
keys are.

The changes of two objects are found key by key in the union of their keys, and those of anything
else are the whole. What is proved is proved by recursion on the weight of a value. The comparison
is the library's, so the lemmas are about plain values, whose numbers are all integers.
-/

namespace Json

open Bytes

/-! ## Places -/

/-- The keys of an object. -/
def keys : Json → List Bytes
  | .obj members => members.map (·.1)
  | _ => []

/-- What stands at a place, if anything. -/
def valueAt : List Bytes → Option Json → Option Json
  | [], x => x
  | k :: ks, x => valueAt ks (x.bind (member? k))

/-- An object with a member set, or removed when there is no value for it. -/
def setMember (k : Bytes) (v : Option Json) : Json → Json
  | .obj members =>
      .obj (Keyset.orderBy (fun m => order m.1)
        (v.toList.map (fun v => (k, v)) ++ members.filter (·.1 ≠ k)))
  | j => j

/-- A value with what stands at a place set, or removed. -/
def setAt : List Bytes → Option Json → Option Json → Option Json
  | [], v, _ => v
  | k :: ks, v, x => x.map fun j => j.setMember k (setAt ks v (j.member? k))

/-! ## Changes -/

/-- A place at which two values differ, and what stands there in either. -/
structure Change where
  keys : List Bytes
  before : Option Json
  after : Option Json

namespace Change

/-- A change inside a member. -/
def under (k : Bytes) (c : Change) : Change := { c with keys := k :: c.keys }

/-- A change taken back. -/
def swap (c : Change) : Change := { c with before := c.after, after := c.before }

end Change

/-- The keys of two objects, in order. -/
def unionKeys (a b : Json) : List Bytes := Keyset.orderBy order (a.keys ++ b.keys).dedup

/-- A member that is found is one of the object. -/
theorem mem_of_member? {members : List (Bytes × Json)} {k : Bytes} {v : Json}
    (h : (obj members).member? k = some v) : (k, v) ∈ members := by
  rw [member?, Option.map_eq_some_iff] at h
  obtain ⟨m, hm, rfl⟩ := h
  have hk : m.1 = k := by simpa using List.find?_some hm
  rw [← hk]
  exact List.mem_of_find?_eq_some hm

/-- The size of a value that may be missing. -/
noncomputable def weight : Option Json → Nat
  | none => 0
  | some j => sizeOf j

/-- A member weighs less than its object, which justifies the recursion. -/
theorem weight_member? (k : Bytes) (j : Json) : weight (j.member? k) < weight (some j) := by
  cases h : j.member? k with
  | none =>
      show 0 < sizeOf j
      cases j <;> simp
  | some v =>
      cases j with
      | obj members =>
          have hmem := List.sizeOf_lt_of_mem (mem_of_member? h)
          show sizeOf v < sizeOf (obj members)
          simp only [obj.sizeOf_spec, Prod.mk.sizeOf_spec] at hmem ⊢
          omega
      | null | bool _ | int _ | real _ | str _ | arr _ => cases h

/-- The changes from one value to another: equal values have none, two objects those of their
members, and anything else is replaced. -/
def changes (x y : Option Json) : List Change :=
  match x, y with
  | some a, some b =>
      if a.equal b then []
      else if a.isObject && b.isObject then
        (unionKeys a b).flatMap fun k =>
          (changes (a.member? k) (b.member? k)).map (Change.under k)
      else [⟨[], some a, some b⟩]
  | none, _ => [⟨[], none, y⟩]
  | some a, none => [⟨[], some a, none⟩]
termination_by weight x + weight y
decreasing_by
  have ha := weight_member? k a
  have hb := weight_member? k b
  omega

/-- What the changes write, one after the other. -/
def patch (pick : Change → Option Json) (cs : List Change) (x : Option Json) : Option Json :=
  cs.foldl (fun z c => setAt c.keys (pick c) z) x

/-! ## Objects -/

mutual

/-- A value without floating-point numbers, for which the comparison is equality. -/
def Exact : Json → Prop
  | .real _ => False
  | .arr elements => ExactElements elements
  | .obj members => ExactMembers members
  | _ => True

def ExactElements : List Json → Prop
  | [] => True
  | x :: xs => Exact x ∧ ExactElements xs

def ExactMembers : List (Bytes × Json) → Prop
  | [] => True
  | (_, v) :: ms => Exact v ∧ ExactMembers ms

end

/-- Elements are exact when each of them is. -/
theorem exactElements_iff {l : List Json} : ExactElements l ↔ ∀ x ∈ l, Exact x := by
  induction l with
  | nil => simp [ExactElements]
  | cons x l ih => simp [ExactElements, ih]

/-- Members are exact when each value is. -/
theorem exactMembers_iff {l : List (Bytes × Json)} : ExactMembers l ↔ ∀ m ∈ l, Exact m.2 := by
  induction l with
  | nil => simp [ExactMembers]
  | cons m l ih => obtain ⟨k, v⟩ := m; simp [ExactMembers, ih]

mutual

/-- On exact values the library's equality is equality; only numbers of two types are equal without
being the same. -/
theorem eq_of_equal : ∀ {a b : Json}, Exact a → Exact b → equal a b = true → a = b
  | .arr l, .arr m, ha, hb, h => by
      rw [equal] at h
      rw [eq_of_equalElements ha hb h]
  | .obj l, .obj m, ha, hb, h => by
      rw [equal] at h
      rw [eq_of_equalMembers ha hb h]
  | .real _, _, ha, _, _ => ha.elim
  | .null, b, _, hb, h => by
      cases b <;> first | exact hb.elim | simp_all [equal, beq]
  | .bool _, b, _, hb, h => by
      cases b <;> first | exact hb.elim | simp_all [equal, beq]
  | .int _, b, _, hb, h => by
      cases b <;> first | exact hb.elim | simp_all [equal, beq]
  | .str _, b, _, hb, h => by
      cases b <;> first | exact hb.elim | simp_all [equal, beq]
  | .arr _, .null, _, _, h | .arr _, .bool _, _, _, h | .arr _, .int _, _, _, h
  | .arr _, .str _, _, _, h | .arr _, .obj _, _, _, h => by simp [equal, beq] at h
  | .arr _, .real _, _, hb, _ => hb.elim
  | .obj _, .null, _, _, h | .obj _, .bool _, _, _, h | .obj _, .int _, _, _, h
  | .obj _, .str _, _, _, h | .obj _, .arr _, _, _, h => by simp [equal, beq] at h
  | .obj _, .real _, _, hb, _ => hb.elim

/-- The same for the elements of arrays. -/
theorem eq_of_equalElements : ∀ {l m : List Json}, ExactElements l → ExactElements m →
    equalElements l m = true → l = m
  | [], [], _, _, _ => rfl
  | a :: l, b :: m, ha, hb, h => by
      simp only [equalElements, Bool.and_eq_true] at h
      rw [eq_of_equal ha.1 hb.1 h.1, eq_of_equalElements ha.2 hb.2 h.2]

/-- The same for the members of objects. -/
theorem eq_of_equalMembers : ∀ {l m : List (Bytes × Json)}, ExactMembers l → ExactMembers m →
    equalMembers l m = true → l = m
  | [], [], _, _, _ => rfl
  | (j, a) :: l, (k, b) :: m, ha, hb, h => by
      simp only [equalMembers, Bool.and_eq_true, beq_iff_eq] at h
      rw [h.1.1, eq_of_equal ha.1 hb.1 h.1.2, eq_of_equalMembers ha.2 hb.2 h.2]

end

/-- An object whose keys ascend. -/
def Ordered (j : Json) : Prop :=
  ∃ members, j = .obj members ∧ Keyset.Ascending (fun m : Bytes × Json => order m.1) members

/-- Members in ascending order have distinct names. -/
theorem nodup_of_ascending {members : List (Bytes × Json)}
    (h : Keyset.Ascending (fun m : Bytes × Json => order m.1) members) :
    (members.map (·.1)).Nodup := by
  have hkeys := h.nodup_keys
  rw [show members.map (fun m => order m.1) = (members.map (·.1)).map order by simp] at hkeys
  exact hkeys.of_map

/-- Where names are distinct, a member is found exactly when it is there. -/
theorem member?_eq_some {members : List (Bytes × Json)} (h : (members.map (·.1)).Nodup)
    {k : Bytes} {v : Json} : (obj members).member? k = some v ↔ (k, v) ∈ members := by
  constructor
  · exact mem_of_member?
  · intro hmem
    rw [member?, find?_key h hmem]
    rfl

namespace Ordered

variable {a b j : Json} {k : Bytes} {v w : Option Json}

/-- Ordered objects with the same members are equal. -/
theorem ext (ha : Ordered a) (hb : Ordered b) (h : ∀ k, a.member? k = b.member? k) : a = b := by
  obtain ⟨l, rfl, hl⟩ := ha
  obtain ⟨m, rfl, hm⟩ := hb
  have hperm : l.Perm m := by
    rw [List.perm_ext_iff_of_nodup (nodup_of_ascending hl).of_map (nodup_of_ascending hm).of_map]
    intro e
    rw [← Prod.mk.eta (p := e), ← member?_eq_some (nodup_of_ascending hl),
      ← member?_eq_some (nodup_of_ascending hm), h]
  rw [hl.eq_of_perm hm hperm]

/-- Setting a member keeps the members in order. -/
theorem setMember (h : Ordered j) : Ordered (j.setMember k v) := by
  obtain ⟨members, rfl, hmembers⟩ := h
  refine ⟨_, rfl, Keyset.ascending_orderBy ?_⟩
  have hrest : ((members.filter (·.1 ≠ k)).map fun m => order m.1).Nodup :=
    Keyset.Ascending.nodup_keys (hmembers.sublist List.filter_sublist)
  cases v with
  | none => exact hrest
  | some v =>
      rw [Option.toList_some, List.map_singleton, List.singleton_append, List.map_cons,
        List.nodup_cons]
      refine ⟨fun hmem => ?_, hrest⟩
      obtain ⟨e, he, hkey⟩ := List.mem_map.1 hmem
      have hne : e.1 ≠ k := by simpa using (List.mem_filter.1 he).2
      exact hne (order_injective hkey)

/-- Setting a member changes what is found under its name only. A member is what stands under its
name in an ordered list, so that the statement is about the entries that are written. -/
theorem member?_setMember (h : Ordered j) (k' : Bytes) :
    (j.setMember k v).member? k' = if k' = k then v else j.member? k' := by
  obtain ⟨written, hwritten, hordered⟩ := h.setMember (k := k) (v := v)
  obtain ⟨members, rfl, hmembers⟩ := h
  have hmem : ∀ e, e ∈ written ↔ (e.1 = k ∧ v = some e.2) ∨ (e ∈ members ∧ e.1 ≠ k) := by
    intro e
    have hlist := (Json.obj.inj hwritten).symm
    rw [hlist, Keyset.mem_orderBy, List.mem_append, List.mem_map, List.mem_filter]
    simp only [Option.mem_toList, decide_eq_true_eq, ne_eq]
    refine or_congr ⟨?_, ?_⟩ Iff.rfl
    · rintro ⟨u, hu, rfl⟩
      exact ⟨rfl, hu⟩
    · rintro ⟨rfl, hv⟩
      exact ⟨e.2, hv, rfl⟩
  refine Option.ext fun u => ?_
  rw [hwritten, member?_eq_some (nodup_of_ascending hordered), hmem]
  split
  · next hk =>
      subst hk
      simp
  · next hk =>
      rw [member?_eq_some (nodup_of_ascending hmembers)]
      simp [hk]

/-- Setting a member to what it is changes nothing. -/
theorem setMember_self (h : Ordered j) : j.setMember k (j.member? k) = j := by
  refine ext h.setMember h fun k' => ?_
  rw [h.member?_setMember]
  split
  · next hk => rw [hk]
  · rfl

/-- The last setting of a member counts. -/
theorem setMember_setMember (h : Ordered j) :
    (j.setMember k v).setMember k w = j.setMember k w := by
  refine ext h.setMember.setMember h.setMember fun k' => ?_
  rw [h.setMember.member?_setMember, h.member?_setMember, h.member?_setMember]
  split
  · rfl
  · rfl

end Ordered

/-- What is found has its name among the keys. -/
theorem mem_keys {j : Json} {k : Bytes} (h : j.member? k ≠ none) : k ∈ j.keys := by
  obtain ⟨v, hv⟩ := Option.ne_none_iff_exists'.1 h
  cases j with
  | obj members => exact List.mem_map.2 ⟨_, mem_of_member? hv, rfl⟩
  | null | bool _ | int _ | real _ | str _ | arr _ => cases hv

/-- The keys of two objects together are those of one or the other. -/
theorem mem_unionKeys {a b : Json} {k : Bytes} : k ∈ unionKeys a b ↔ k ∈ a.keys ∨ k ∈ b.keys := by
  rw [unionKeys, Keyset.mem_orderBy, List.mem_dedup, List.mem_append]

/-- The keys of two objects come in ascending order. -/
theorem unionKeys_ascending (a b : Json) : Keyset.Ascending order (unionKeys a b) :=
  Keyset.ascending_orderBy ((List.nodup_dedup _).map order_injective)

/-- The keys of two objects come without repetition. -/
theorem unionKeys_nodup (a b : Json) : (unionKeys a b).Nodup :=
  (unionKeys_ascending a b).nodup_keys.of_map

/-- The keys of two objects do not depend on which comes first. -/
theorem unionKeys_comm (a b : Json) : unionKeys a b = unionKeys b a := by
  refine (unionKeys_ascending a b).eq_of_perm (unionKeys_ascending b a) ?_
  rw [List.perm_ext_iff_of_nodup (unionKeys_nodup a b) (unionKeys_nodup b a)]
  intro k
  rw [mem_unionKeys, mem_unionKeys, or_comm]

/-! ## Values as they are written -/

/-- A canonical value for which the comparison is equality. -/
structure Plain (j : Json) : Prop where
  canonical : j.Canonical
  exact : j.Exact

namespace Plain

variable {j v : Json} {k : Bytes}

/-- The members of a plain value are plain. -/
theorem member? (h : Plain j) (hv : j.member? k = some v) : Plain v := by
  cases j with
  | obj members =>
      have hmem := mem_of_member? hv
      exact ⟨canonicalMembers_iff.1 h.canonical.2 _ hmem, exactMembers_iff.1 h.exact _ hmem⟩
  | null | bool _ | int _ | real _ | str _ | arr _ => cases hv

/-- The members of a plain object are in order. -/
theorem ordered (h : Plain j) (hj : j.isObject = true) : Ordered j := by
  cases j with
  | obj members => exact ⟨members, rfl, h.canonical.1⟩
  | null | bool _ | int _ | real _ | str _ | arr _ => cases hj

end Plain

/-! ## The changes are the patch -/

section
variable {pick : Change → Option Json}

/-- Two lists of changes are applied one after the other. -/
theorem patch_append (cs ds : List Change) (x : Option Json) :
    patch pick (cs ++ ds) x = patch pick ds (patch pick cs x) :=
  List.foldl_append

/-- A patch of changes inside a member is a patch of the member. -/
theorem patch_under (hpick : ∀ k c, pick (Change.under k c) = pick c) (cs : List Change) {j : Json}
    (hj : Ordered j) (k : Bytes) : patch pick (cs.map (Change.under k)) (some j) =
      some (j.setMember k (patch pick cs (j.member? k))) := by
  induction cs generalizing j with
  | nil => exact congrArg some hj.setMember_self.symm
  | cons c cs ih =>
      have hstep := ih (hj.setMember (k := k) (v := setAt c.keys (pick c) (j.member? k)))
      rw [hj.setMember_setMember, hj.member?_setMember, if_pos rfl] at hstep
      rw [List.map_cons]
      show patch pick (cs.map (Change.under k)) (setAt (k :: c.keys)
        (pick (Change.under k c)) (some j))
        = _
      rw [hpick]
      exact hstep

/-- A patch of changes inside several members patches each of them. The induction is on the names:
the changes of the first one leave the other members alone, as the names are different. -/
theorem patch_members (hpick : ∀ k c, pick (Change.under k c) = pick c)
    (f : Bytes → List Change) {ks : List Bytes} (hks : ks.Nodup) {j : Json} (hj : Ordered j) :
    ∃ j', patch pick (ks.flatMap fun k => (f k).map (Change.under k)) (some j) = some j' ∧
      Ordered j' ∧ ∀ k, j'.member? k =
        if k ∈ ks then patch pick (f k) (j.member? k) else j.member? k := by
  induction ks generalizing j with
  | nil => exact ⟨j, rfl, hj, fun k => rfl⟩
  | cons k ks ih =>
      obtain ⟨hnot, hks⟩ := List.nodup_cons.1 hks
      obtain ⟨j', hj', hordered, hmember⟩ := ih hks
        (hj.setMember (k := k) (v := patch pick (f k) (j.member? k)))
      refine ⟨j', ?_, hordered, fun k' => ?_⟩
      · rw [List.flatMap_cons, patch_append, patch_under hpick _ hj]
        exact hj'
      · rw [hmember, hj.member?_setMember]
        by_cases hk : k' = k
        · subst hk
          rw [if_neg hnot, if_pos rfl, if_pos List.mem_cons_self]
        · rw [if_neg hk]
          simp only [List.mem_cons, hk, false_or]

end

variable {x y : Option Json}

/-- **The changes lead from the one value to the other.** The induction is that of the definition:
equal values need no change, two objects are compared member by member, and anything else is one
change of the whole value. -/
theorem patch_changes (hx : ∀ j ∈ x, Plain j) (hy : ∀ j ∈ y, Plain j) :
    patch Change.after (changes x y) x = y := by
  induction x, y using changes.induct with
  | case1 a b hequal =>
      rw [changes, if_pos hequal, eq_of_equal (hx a rfl).exact (hy b rfl).exact hequal]
      rfl
  | case2 a b hequal hobjects ih =>
      have hboth := hobjects
      rw [Bool.and_eq_true] at hboth
      have ha := (hx a rfl).ordered hboth.1
      have hb := (hy b rfl).ordered hboth.2
      obtain ⟨j, hj, hordered, hmember⟩ := patch_members
        (show ∀ k c, Change.after (Change.under k c) = Change.after c from fun _ _ => rfl)
        (fun k => changes (a.member? k) (b.member? k)) (unionKeys_nodup a b) ha
      rw [changes, if_neg hequal, if_pos hobjects, hj]
      refine congrArg some (hordered.ext hb fun k => ?_)
      rw [hmember]
      split
      · exact ih k (fun v hv => (hx a rfl).member? hv) (fun v hv => (hy b rfl).member? hv)
      · next hnot =>
          -- A key of neither object is missing in both.
          rw [mem_unionKeys, not_or] at hnot
          rw [not_not.1 (mt mem_keys hnot.1), not_not.1 (mt mem_keys hnot.2)]
  | case3 a b hequal hobjects =>
      rw [changes, if_neg hequal, if_neg hobjects]
      rfl
  | case4 y =>
      rw [changes]
      rfl
  | case5 a =>
      rw [changes]
      rfl

/-- The changes of the other direction are these, taken back. The case of two objects is the one to
look at, where the names of both are gone through in one order whichever of them comes first. -/
theorem changes_swap (hx : ∀ j ∈ x, Plain j) (hy : ∀ j ∈ y, Plain j) :
    changes y x = (changes x y).map Change.swap := by
  induction x, y using changes.induct with
  | case1 a b hequal =>
      rw [eq_of_equal (hx a rfl).exact (hy b rfl).exact hequal, changes, if_pos (equal_refl b)]
      rfl
  | case2 a b hequal hobjects ih =>
      have hback : ¬ b.equal a = true := by
        intro h
        rw [eq_of_equal (hy b rfl).exact (hx a rfl).exact h] at hequal
        exact hequal (equal_refl a)
      have hboth : (b.isObject && a.isObject) = true := by rwa [Bool.and_comm]
      rw [changes, if_neg hback, if_pos hboth, changes, if_neg hequal, if_pos hobjects,
        unionKeys_comm, List.map_flatMap]
      refine List.flatMap_congr fun k _ => ?_
      rw [ih k (fun v hv => (hx a rfl).member? hv) (fun v hv => (hy b rfl).member? hv),
        List.map_map, List.map_map]
      rfl
  | case3 a b hequal hobjects =>
      have hback : ¬ b.equal a = true := by
        intro h
        rw [eq_of_equal (hy b rfl).exact (hx a rfl).exact h] at hequal
        exact hequal (equal_refl a)
      have hneither : ¬ (b.isObject && a.isObject) = true := by rwa [Bool.and_comm]
      rw [changes, if_neg hback, if_neg hneither, changes, if_neg hequal, if_neg hobjects]
      rfl
  | case4 y =>
      cases y with
      | none =>
          rw [changes]
          rfl
      | some b =>
          rw [changes, changes]
          rfl
  | case5 a =>
      rw [changes, changes]
      rfl

/-- **The changes lead back.** They are the changes of the other direction taken back, and those
lead from the second value to the first. -/
theorem patch_changes_back (hx : ∀ j ∈ x, Plain j) (hy : ∀ j ∈ y, Plain j) :
    patch Change.before (changes x y) y = x := by
  have hback := patch_changes hy hx
  rw [changes_swap hx hy] at hback
  unfold patch at hback ⊢
  rw [List.foldl_map] at hback
  exact hback

/-! ## The places of changes -/

/-- At the place of a change either value has what the change says. The induction is that of the
definition; in the case of two objects the place begins with the name of a member, and the rest is
in the changes of that member. -/
theorem valueAt_of_mem {c : Change} (h : c ∈ changes x y) :
    valueAt c.keys x = c.before ∧ valueAt c.keys y = c.after := by
  induction x, y using changes.induct generalizing c with
  | case1 a b hequal =>
      rw [changes, if_pos hequal] at h
      cases h
  | case2 a b hequal hobjects ih =>
      rw [changes, if_neg hequal, if_pos hobjects, List.mem_flatMap] at h
      obtain ⟨k, -, h⟩ := h
      obtain ⟨d, hd, rfl⟩ := List.mem_map.1 h
      exact ih k hd
  | case3 a b hequal hobjects =>
      rw [changes, if_neg hequal, if_neg hobjects, List.mem_singleton] at h
      subst h
      exact ⟨rfl, rfl⟩
  | case4 y =>
      rw [changes, List.mem_singleton] at h
      subst h
      exact ⟨rfl, rfl⟩
  | case5 a =>
      rw [changes, List.mem_singleton] at h
      subst h
      exact ⟨rfl, rfl⟩

/-- Under each key of an object something is found. -/
theorem exists_member {j : Json} {k : Bytes} (h : k ∈ j.keys) : j.member? k ≠ none := by
  cases j with
  | obj members =>
      obtain ⟨m, hm, rfl⟩ := List.mem_map.1 h
      rw [member?, Ne, Option.map_eq_none_iff, List.find?_eq_none]
      intro hall
      exact hall m hm (by simp)
  | null | bool _ | int _ | real _ | str _ | arr _ => cases h

/-- A change says that the values differ. A change is only made where the comparison has failed, or
where a member is missing on one side. -/
theorem ne_of_mem {c : Change} (hsome : x ≠ none ∨ y ≠ none) (h : c ∈ changes x y) :
    c.before ≠ c.after := by
  induction x, y using changes.induct generalizing c with
  | case1 a b hequal =>
      rw [changes, if_pos hequal] at h
      cases h
  | case2 a b hequal hobjects ih =>
      rw [changes, if_neg hequal, if_pos hobjects, List.mem_flatMap] at h
      obtain ⟨k, hk, h⟩ := h
      obtain ⟨d, hd, rfl⟩ := List.mem_map.1 h
      exact ih k (c := d) ((mem_unionKeys.1 hk).imp exists_member exists_member) hd
  | case3 a b hequal hobjects =>
      rw [changes, if_neg hequal, if_neg hobjects, List.mem_singleton] at h
      subst h
      intro heq
      rw [Option.some.inj heq] at hequal
      exact hequal (equal_refl b)
  | case4 y =>
      rw [changes, List.mem_singleton] at h
      subst h
      exact (hsome.resolve_left fun hne => hne rfl).symm
  | case5 a =>
      rw [changes, List.mem_singleton] at h
      subst h
      exact Option.some_ne_none a

/-- Neither of two places lies in the other. -/
def Apart (ks ls : List Bytes) : Prop := ¬ ks <+: ls ∧ ¬ ls <+: ks

/-- **No place of a change lies in another.** The places of two members begin with different names,
and within one member the induction gives it. -/
theorem changes_pairwise (x y : Option Json) :
    (changes x y).Pairwise fun c d => Apart c.keys d.keys := by
  induction x, y using changes.induct with
  | case1 a b hequal =>
      rw [changes, if_pos hequal]
      exact .nil
  | case2 a b hequal hobjects ih =>
      rw [changes, if_neg hequal, if_pos hobjects, List.pairwise_flatMap]
      refine ⟨fun k _ => ?_, (List.nodup_iff_pairwise_ne.1 (unionKeys_nodup a b)).imp ?_⟩
      · rw [List.pairwise_map]
        refine (ih k).imp fun {c d} hapart => ?_
        -- Both places begin with the key of the member.
        exact ⟨fun h => hapart.1 (List.cons_prefix_cons.1 h).2,
          fun h => hapart.2 (List.cons_prefix_cons.1 h).2⟩
      · intro k l hkl c hc d hd
        obtain ⟨c, -, rfl⟩ := List.mem_map.1 hc
        obtain ⟨d, -, rfl⟩ := List.mem_map.1 hd
        exact ⟨fun h => hkl (List.cons_prefix_cons.1 h).1,
          fun h => hkl (List.cons_prefix_cons.1 h).1.symm⟩
  | case3 a b hequal hobjects =>
      rw [changes, if_neg hequal, if_neg hobjects]
      exact List.pairwise_singleton _ _
  | case4 y =>
      rw [changes]
      exact List.pairwise_singleton _ _
  | case5 a =>
      rw [changes]
      exact List.pairwise_singleton _ _

/-! ## Pointers -/

/-- A key in a pointer: a tilde and a slash are escaped. -/
def escapeToken (s : Bytes) : Bytes :=
  s.flatMap fun b => if b = 126 then [126, 48] else if b = 47 then [126, 49] else [b]

/-- The JSON pointer of a place. -/
def pointer (ks : List Bytes) : Bytes := ks.flatMap fun k => 47 :: escapeToken k

/-- The keys of the rest of a pointer, with the part of a key in front of it. -/
def readTokens : Bytes → Bytes → Option (List Bytes)
  | token, [] => some [token]
  | token, b :: rest =>
      if b = 47 then (readTokens [] rest).map (token :: ·)
      else if b = 126 then
        match rest with
        | [] => none
        | d :: rest =>
            if d = 48 then readTokens (token ++ [126]) rest
            else if d = 49 then readTokens (token ++ [47]) rest
            else none
      else readTokens (token ++ [b]) rest

/-- The place that a JSON pointer names. -/
def readPointer : Bytes → Option (List Bytes)
  | [] => some []
  | b :: rest => if b = 47 then readTokens [] rest else none

/-- A slash ends a token. -/
theorem readTokens_slash (token rest : Bytes) :
    readTokens token (47 :: rest) = (readTokens [] rest).map (token :: ·) := by
  conv_lhs => unfold readTokens
  rfl

/-- Any other byte belongs to the token. -/
theorem readTokens_other {b : UInt8} (h₁ : b ≠ 126) (h₂ : b ≠ 47) (token rest : Bytes) :
    readTokens token (b :: rest) = readTokens (token ++ [b]) rest := by
  conv_lhs => unfold readTokens
  rw [if_neg h₂, if_neg h₁]

/-- An escaped token is read as itself, by induction on its bytes. -/
theorem readTokens_escapeToken (s token rest : Bytes) :
    readTokens token (escapeToken s ++ rest) = readTokens (token ++ s) rest := by
  induction s generalizing token with
  | nil => rw [List.append_nil]; rfl
  | cons b s ih =>
      have htoken : token ++ b :: s = token ++ [b] ++ s := by simp
      have hcons : escapeToken (b :: s) ++ rest =
          (if b = 126 then [126, 48] else if b = 47 then [126, 49] else [b])
            ++ (escapeToken s ++ rest) := by
        rw [escapeToken, List.flatMap_cons, List.append_assoc]
        rfl
      rw [htoken, ← ih, hcons]
      by_cases h₁ : b = 126
      · subst h₁
        rfl
      · by_cases h₂ : b = 47
        · subst h₂
          rfl
        · rw [if_neg h₁, if_neg h₂, List.singleton_append, readTokens_other h₁ h₂]

/-- A pointer is read as the tokens it was printed from. -/
theorem readTokens_pointer (token : Bytes) (ks : List Bytes) :
    readTokens token (pointer ks) = some (token :: ks) := by
  induction ks generalizing token with
  | nil => rfl
  | cons k ks ih =>
      have hcons : pointer (k :: ks) = 47 :: (escapeToken k ++ pointer ks) := List.flatMap_cons
      rw [hcons, readTokens_slash, readTokens_escapeToken, List.nil_append, ih]
      rfl

/-- **A pointer names its place**, whatever the keys are. Each key is escaped, so that the slashes
of the pointer are those between its keys, and the escape is undone key by key. -/
theorem readPointer_pointer (ks : List Bytes) : readPointer (pointer ks) = some ks := by
  cases ks with
  | nil => rfl
  | cons k ks =>
      have hcons : pointer (k :: ks) = 47 :: (escapeToken k ++ pointer ks) := List.flatMap_cons
      rw [hcons, readPointer, if_pos rfl, readTokens_escapeToken, List.nil_append,
        readTokens_pointer]

/-! ## Texts -/

/-- What stands inside a value that has a text has one. -/
theorem dump_valueAt {realText : Double → Bytes} {ks : List Bytes} {j v : Json}
    (hj : ∃ t, dump realText j = some t) (h : valueAt ks (some j) = some v) :
    ∃ t, dump realText v = some t := by
  induction ks generalizing j with
  | nil =>
      obtain rfl := Option.some.inj h
      exact hj
  | cons k ks ih =>
      rw [valueAt, Option.bind_some] at h
      cases hmember : j.member? k with
      | none =>
          rw [hmember] at h
          have hnone : ∀ ls : List Bytes, valueAt ls none = none := by
            intro ls
            induction ls with
            | nil => rfl
            | cons l ls ih => exact ih
          rw [hnone] at h
          cases h
      | some w =>
          rw [hmember] at h
          refine ih ?_ h
          cases j with
          | obj members =>
              obtain ⟨t, ht⟩ := hj
              obtain ⟨s, hs, -⟩ := dump_member ht (mem_of_member? hmember)
              exact ⟨s, hs⟩
          | null | bool _ | int _ | real _ | str _ | arr _ => cases hmember

/-- What stands at a place of a plain value is plain. -/
theorem Plain.valueAt {ks : List Bytes} {x : Option Json} (hx : ∀ j ∈ x, Plain j) :
    ∀ v ∈ Json.valueAt ks x, Plain v := by
  induction ks generalizing x with
  | nil => exact hx
  | cons k ks ih =>
      refine ih fun v hv => ?_
      obtain ⟨j, hj, hmember⟩ := Option.bind_eq_some_iff.1 hv
      exact (hx j hj).member? hmember

end Json
