import FileProvider.Library.Bytes
import FileProvider.Library.Keyset
import FileProvider.Library.Outcome

/-!
# JSON values and their compact text

`Json` is the value tree of a JSON library whose objects keep their keys in order and whose
integers and floating-point numbers are distinct. `dump` is its compact serializer, which
refuses text that is not UTF-8; the text of a floating-point number and the parser are taken
from a `JsonLibrary`, whose law is that parsing what was dumped gives the value back.

The equality of the library is not equality, as an integer equals the floating-point number of the
same value; `equal` is that comparison, and `Canonical` says which values a text gives back as they
are. The rest are the lemmas by which documents are read and written: what a member is that is
found, which texts exist, and how long they are.
-/

/-- A binary64 number by its bits. -/
structure Double where
  bits : UInt64
deriving DecidableEq

namespace Double

/-- The number zero, without a sign. -/
def zero : Double := ⟨0⟩

/-- Neither an infinity nor a NaN: the exponent is not all ones. -/
def isFinite (x : Double) : Bool := (x.bits >>> 52) &&& 0x7FF ≠ 0x7FF

/-- Zero of either sign. -/
def isZero (x : Double) : Bool := x.bits <<< 1 = 0

/-- The exponent field. -/
def exponent (x : Double) : Nat := ((x.bits >>> 52) &&& 0x7FF).toNat

/-- The significand of a normal number, as an integer of 53 bits. -/
def significand (x : Double) : Nat := 2 ^ 52 + (x.bits &&& 0xFFFFFFFFFFFFF).toNat

/-- The integer part, towards zero. A subnormal number has none. -/
def truncate (x : Double) : Int :=
  let magnitude : Nat :=
    if x.exponent = 0 then 0
    else if 1075 ≤ x.exponent then x.significand * 2 ^ (x.exponent - 1075)
    else x.significand / 2 ^ (1075 - x.exponent)
  if x.bits >>> 63 = 1 then -magnitude else magnitude

/-- The number is exactly an integer. -/
def isInteger (x : Double) (n : Int) : Bool :=
  x.isFinite && (x.isZero || (x.exponent ≠ 0 &&
    (1075 ≤ x.exponent || x.significand % 2 ^ (1075 - x.exponent) = 0))) && x.truncate = n

/-- Equality of numbers that are not NaN: the zeros are equal. -/
def equal (x y : Double) : Bool := x = y || (x.isZero && y.isZero)

end Double

/-- A JSON value. -/
inductive Json where
  | null
  | bool (b : Bool)
  | int (n : Int)
  | real (x : Double)
  | str (s : Bytes)
  | arr (elements : List Json)
  | obj (members : List (Bytes × Json))

namespace Json

open Bytes

/-! ## Equality -/

mutual

/-- Equality of values. -/
def beq : Json → Json → Bool
  | .null, .null => true
  | .bool a, .bool b => a == b
  | .int a, .int b => a == b
  | .real a, .real b => decide (a = b)
  | .str a, .str b => a == b
  | .arr a, .arr b => beqElements a b
  | .obj a, .obj b => beqMembers a b
  | _, _ => false

def beqElements : List Json → List Json → Bool
  | [], [] => true
  | a :: l, b :: m => beq a b && beqElements l m
  | _, _ => false

def beqMembers : List (Bytes × Json) → List (Bytes × Json) → Bool
  | [], [] => true
  | (j, a) :: l, (k, b) :: m => j == k && beq a b && beqMembers l m
  | _, _ => false

end

mutual

/-- Values that the test finds the same are equal. -/
theorem eq_of_beq : ∀ {a b : Json}, beq a b = true → a = b := by
  intro a b h
  cases a <;> cases b <;> simp_all only [beq, Bool.false_eq_true, beq_iff_eq, decide_eq_true_eq]
  · rw [eq_of_beqElements h]
  · rw [eq_of_beqMembers h]

/-- Elements that the test finds the same are equal. -/
theorem eq_of_beqElements : ∀ {l m : List Json}, beqElements l m = true → l = m
  | [], [], _ => rfl
  | a :: l, b :: m, h => by
      simp only [beqElements, Bool.and_eq_true] at h
      rw [eq_of_beq h.1, eq_of_beqElements h.2]

/-- Members that the test finds the same are equal. -/
theorem eq_of_beqMembers : ∀ {l m : List (Bytes × Json)}, beqMembers l m = true → l = m
  | [], [], _ => rfl
  | (j, a) :: l, (k, b) :: m, h => by
      simp only [beqMembers, Bool.and_eq_true, beq_iff_eq] at h
      rw [h.1.1, eq_of_beq h.1.2, eq_of_beqMembers h.2]

end

mutual

/-- The test finds a value the same as itself. -/
theorem beq_refl : ∀ a : Json, beq a a = true
  | .null => rfl
  | .bool _ | .int _ | .real _ | .str _ => by simp [beq]
  | .arr l => by rw [beq]; exact beqElements_refl l
  | .obj l => by rw [beq]; exact beqMembers_refl l

/-- The test finds elements the same as themselves. -/
theorem beqElements_refl : ∀ l : List Json, beqElements l l = true
  | [] => rfl
  | a :: l => by rw [beqElements, beq_refl a, beqElements_refl l]; rfl

/-- The test finds members the same as themselves. -/
theorem beqMembers_refl : ∀ l : List (Bytes × Json), beqMembers l l = true
  | [] => rfl
  | (k, a) :: l => by rw [beqMembers, beq_refl a, beqMembers_refl l]; simp

end

instance : DecidableEq Json := fun a b =>
  decidable_of_iff (beq a b = true) ⟨eq_of_beq, fun h => h ▸ beq_refl a⟩

mutual

/-- The comparison of values, in which an integer equals the floating-point number it is. -/
def equal : Json → Json → Bool
  | .int n, .real x => x.isInteger n
  | .real x, .int n => x.isInteger n
  | .real x, .real y => x.equal y
  | .arr l, .arr m => equalElements l m
  | .obj l, .obj m => equalMembers l m
  | a, b => beq a b

def equalElements : List Json → List Json → Bool
  | [], [] => true
  | a :: l, b :: m => equal a b && equalElements l m
  | _, _ => false

def equalMembers : List (Bytes × Json) → List (Bytes × Json) → Bool
  | [], [] => true
  | (j, a) :: l, (k, b) :: m => j == k && equal a b && equalMembers l m
  | _, _ => false

end

mutual

@[simp] theorem equal_refl : ∀ a : Json, equal a a = true
  | .null | .bool _ | .int _ | .str _ => by simp [equal, beq]
  | .real x => by simp [equal, Double.equal]
  | .arr l => by rw [equal]; exact equalElements_refl l
  | .obj l => by rw [equal]; exact equalMembers_refl l

/-- Elements equal themselves in the sense of the library. -/
theorem equalElements_refl : ∀ l : List Json, equalElements l l = true
  | [] => by rw [equalElements]
  | a :: l => by rw [equalElements, equal_refl a, equalElements_refl l]; rfl

/-- Members equal themselves in the sense of the library. -/
theorem equalMembers_refl : ∀ l : List (Bytes × Json), equalMembers l l = true
  | [] => by rw [equalMembers]
  | (k, a) :: l => by rw [equalMembers, equal_refl a, equalMembers_refl l]; simp

end

/-! ## Building and reading values -/

/-- An object of distinct keys, which are kept in order. -/
def object (members : List (Bytes × Json)) : Json :=
  .obj (Keyset.orderBy (fun m => order m.1) members)

/-- The first member of a key. -/
def member? (key : Bytes) : Json → Option Json
  | .obj members => (members.find? (fun m => m.1 = key)).map (·.2)
  | _ => none

/-- The member of a key, which must be there. -/
def member (j : Json) (key : Bytes) : Fallible Json :=
  match j with
  | .obj _ => Fallible.orFail "json.exception.out_of_range.403" (j.member? key)
  | _ => .error "json.exception.type_error.304"

/-- An object that has a member of a key. -/
def contains (j : Json) (key : Bytes) : Bool := (j.member? key).isSome

/-- The values a loop over a value runs through. -/
def items : Json → List Json
  | .null => []
  | .arr elements => elements
  | .obj members => members.map (·.2)
  | j => [j]

/-- The number of members or elements. -/
def size : Json → Nat
  | .null => 0
  | .arr elements => elements.length
  | .obj members => members.length
  | _ => 1

def isObject : Json → Bool
  | .obj _ => true
  | _ => false

def getStr : Json → Fallible Bytes
  | .str s => .ok s
  | _ => .error "json.exception.type_error.302"

def getBool : Json → Fallible Bool
  | .bool b => .ok b
  | _ => .error "json.exception.type_error.302"

/-- A number as an integer of 32 bits: a floating-point number loses its fraction, and an
integer its upper bits. -/
def getInt32 : Json → Fallible Int
  | .int n => .ok ((n + 2 ^ 31) % 2 ^ 32 - 2 ^ 31)
  | .real x => .ok x.truncate
  | .bool b => .ok (if b then 1 else 0)
  | _ => .error "json.exception.type_error.302"

/-- A number as an unsigned integer of some bits, which keeps the lower bits of an integer. -/
def getUnsigned (bits : Nat) : Json → Fallible Nat
  | .int n => .ok (n % 2 ^ bits).toNat
  | .real x => .ok (x.truncate % 2 ^ bits).toNat
  | .bool b => .ok (if b then 1 else 0)
  | _ => .error "json.exception.type_error.302"

/-- A number as an integer of 64 bits: the library's own integer types take no Boolean value. -/
def getNumber : Json → Fallible Int
  | .int n => .ok n
  | .real x => .ok x.truncate
  | _ => .error "json.exception.type_error.302"

def getElements : Json → Fallible (List Json)
  | .arr elements => .ok elements
  | _ => .error "json.exception.type_error.302"

def getMembers : Json → Fallible (List (Bytes × Json))
  | .obj members => .ok members
  | _ => .error "json.exception.type_error.302"

/-- Where names are distinct, a member is found under its name. -/
theorem find?_key {members : List (Bytes × Json)} (hk : (members.map (·.1)).Nodup)
    {k : Bytes} {v : Json} (hm : (k, v) ∈ members) :
    members.find? (fun m => m.1 = k) = some (k, v) := by
  cases hf : members.find? (fun m => m.1 = k) with
  | none => exact absurd (List.find?_eq_none.1 hf _ hm) (by simp)
  | some m =>
      have hmk : m.1 = k := by simpa using List.find?_some hf
      rw [List.inj_on_of_nodup_map hk (List.mem_of_find?_eq_some hf) hm hmk]

/-- A member that is found is there. -/
theorem member_of_member? {j v : Json} {k : Bytes} (h : j.member? k = some v) :
    j.member k = .ok v := by
  cases j with
  | obj members => exact Fallible.orFail_ok.2 h
  | _ => cases h

/-- The member of a key of an object built of distinct keys. -/
theorem member?_object {members : List (Bytes × Json)} (hk : (members.map (·.1)).Nodup)
    {k : Bytes} {v : Json} (hm : (k, v) ∈ members) : (object members).member? k = some v := by
  have hperm : (Keyset.orderBy (fun m => order m.1) members).Perm members :=
    Keyset.orderBy_perm members
  rw [object, member?, find?_key ((hperm.map _).nodup_iff.2 hk) (hperm.mem_iff.2 hm)]
  rfl

/-- A member of an object is got under its name. -/
theorem member_object {members : List (Bytes × Json)} (hk : (members.map (·.1)).Nodup)
    {k : Bytes} {v : Json} (hm : (k, v) ∈ members) : (object members).member k = .ok v :=
  member_of_member? (member?_object hk hm)

/-- The keys of members that can be left out. -/
theorem keys_optional (members : List (Bytes × Option Json)) :
    ((members.filterMap fun m => m.2.map (Prod.mk m.1)).map (·.1)).Sublist (members.map (·.1)) := by
  induction members with
  | nil => exact List.Sublist.refl _
  | cons m members ih =>
      cases hv : m.2 with
      | none =>
          rw [List.filterMap_cons, hv]
          exact ih.cons _
      | some w =>
          rw [List.filterMap_cons, hv]
          exact ih.cons_cons _

/-- The member of a key where members can be left out. -/
theorem member?_optional {members : List (Bytes × Option Json)} (hk : (members.map (·.1)).Nodup)
    {k : Bytes} {v : Option Json} (hm : (k, v) ∈ members) :
    (object (members.filterMap fun m => m.2.map (Prod.mk m.1))).member? k = v := by
  have hleft := hk.sublist (keys_optional members)
  cases v with
  | some w => exact member?_object hleft (List.mem_filterMap.2 ⟨_, hm, rfl⟩)
  | none =>
      have hperm : (Keyset.orderBy (fun m => order m.1)
          (members.filterMap fun m => m.2.map (Prod.mk m.1))).Perm _ := Keyset.orderBy_perm _
      rw [object, member?, Option.map_eq_none_iff, List.find?_eq_none]
      intro e he hkey
      obtain ⟨m, hmem, hentry⟩ := List.mem_filterMap.1 (hperm.mem_iff.1 he)
      obtain ⟨w, hw, rfl⟩ := Option.map_eq_some_iff.1 hentry
      obtain rfl := List.inj_on_of_nodup_map hk hmem hm (of_decide_eq_true hkey)
      cases hw

/-- An object contains the names of its members. -/
theorem contains_object {members : List (Bytes × Json)} {k : Bytes} :
    (object members).contains k = true ↔ k ∈ members.map (·.1) := by
  simp only [contains, object, member?, Option.isSome_map, List.find?_isSome, Keyset.mem_orderBy,
    decide_eq_true_eq, List.mem_map]

/-! ## The compact text -/

/-- A continuation byte between two bounds. -/
def contByte (lo hi : Nat) (b : UInt8) : Bool := lo ≤ b.toNat && b.toNat ≤ hi

/-- Well-formed UTF-8: no overlong form, no surrogate, nothing past U+10FFFF. -/
def validUtf8 : Bytes → Bool
  | [] => true
  | a :: s =>
      if a.toNat < 0x80 then validUtf8 s
      else match s with
        | [] => false
        | b :: s =>
          if 0xC2 ≤ a.toNat && a.toNat ≤ 0xDF then contByte 0x80 0xBF b && validUtf8 s
          else match s with
            | [] => false
            | c :: s =>
              if a.toNat = 0xE0 then contByte 0xA0 0xBF b && contByte 0x80 0xBF c && validUtf8 s
              else if a.toNat = 0xED then contByte 0x80 0x9F b && contByte 0x80 0xBF c && validUtf8 s
              else if 0xE1 ≤ a.toNat && a.toNat ≤ 0xEF then
                contByte 0x80 0xBF b && contByte 0x80 0xBF c && validUtf8 s
              else match s with
                | [] => false
                | d :: s =>
                  (if a.toNat = 0xF0 then contByte 0x90 0xBF b
                   else if a.toNat = 0xF4 then contByte 0x80 0x8F b
                   else 0xF1 ≤ a.toNat && a.toNat ≤ 0xF3 && contByte 0x80 0xBF b)
                  && contByte 0x80 0xBF c && contByte 0x80 0xBF d && validUtf8 s

/-- Text that is ASCII can stand before any other. -/
theorem validUtf8_append {p s : Bytes} (hp : p.all (fun b => b.toNat < 0x80) = true) :
    validUtf8 (p ++ s) = validUtf8 s := by
  induction p with
  | nil => rfl
  | cons a p ih =>
      rw [List.all_cons, Bool.and_eq_true, decide_eq_true_eq] at hp
      have hrest : validUtf8 (p ++ s) = validUtf8 s := ih hp.2
      conv_lhs => unfold validUtf8
      rw [List.cons_append]
      dsimp only
      rw [if_pos hp.1]
      exact hrest

/-- A byte inside a string: control characters, quotes and backslashes are escaped. -/
def escapeByte (b : UInt8) : Bytes :=
  if b = 8 then [92, 98]
  else if b = 9 then [92, 116]
  else if b = 10 then [92, 110]
  else if b = 12 then [92, 102]
  else if b = 13 then [92, 114]
  else if b = 34 then [92, 34]
  else if b = 92 then [92, 92]
  else if b.toNat ≤ 0x1F then [92, 117, 48, 48] ++ hexByte b
  else [b]

/-- The text of a string; one that is not UTF-8 has none. -/
def dumpString (s : Bytes) : Option Bytes :=
  if validUtf8 s then some (34 :: s.flatMap escapeByte ++ [34]) else none

mutual

/-- The compact text of a value. -/
def dump (realText : Double → Bytes) : Json → Option Bytes
  | .null => some (ascii "null")
  | .bool true => some (ascii "true")
  | .bool false => some (ascii "false")
  | .int n => some (decimalInt n)
  | .real x => some (realText x)
  | .str s => dumpString s
  | .arr [] => some (ascii "[]")
  | .arr (x :: xs) => do
      let first ← dump realText x
      let rest ← dumpElements realText xs
      pure (91 :: first ++ rest)
  | .obj [] => some (ascii "\x7b\x7d")
  | .obj ((k, v) :: ms) => do
      let name ← dumpString k
      let value ← dump realText v
      let rest ← dumpMembers realText ms
      pure (123 :: name ++ 58 :: value ++ rest)

/-- The elements after the first, and the closing bracket. -/
def dumpElements (realText : Double → Bytes) : List Json → Option Bytes
  | [] => some [93]
  | x :: xs => do
      let first ← dump realText x
      let rest ← dumpElements realText xs
      pure (44 :: first ++ rest)

/-- The members after the first, and the closing brace. -/
def dumpMembers (realText : Double → Bytes) : List (Bytes × Json) → Option Bytes
  | [] => some [125]
  | (k, v) :: ms => do
      let name ← dumpString k
      let value ← dump realText v
      let rest ← dumpMembers realText ms
      pure (44 :: name ++ 58 :: value ++ rest)

end

mutual

/-- A value as the parser builds it: keys in strictly ascending order, integers of 64 bits,
finite floating-point numbers. -/
def Canonical : Json → Prop
  | .int n => -(2 ^ 63) ≤ n ∧ n < 2 ^ 64
  | .real x => x.isFinite = true
  | .arr elements => CanonicalElements elements
  | .obj members =>
      Keyset.Ascending (fun m => order m.1) members ∧ CanonicalMembers members
  | _ => True

def CanonicalElements : List Json → Prop
  | [] => True
  | x :: xs => Canonical x ∧ CanonicalElements xs

def CanonicalMembers : List (Bytes × Json) → Prop
  | [] => True
  | (_, v) :: ms => Canonical v ∧ CanonicalMembers ms

end

/-- Elements are canonical when each of them is. -/
theorem canonicalElements_iff {l : List Json} : CanonicalElements l ↔ ∀ x ∈ l, Canonical x := by
  induction l with
  | nil => simp [CanonicalElements]
  | cons x l ih => simp [CanonicalElements, ih]

/-- Members are canonical when each value is. -/
theorem canonicalMembers_iff {l : List (Bytes × Json)} :
    CanonicalMembers l ↔ ∀ m ∈ l, Canonical m.2 := by
  induction l with
  | nil => simp [CanonicalMembers]
  | cons m l ih => obtain ⟨k, v⟩ := m; simp [CanonicalMembers, ih]

/-- An object of distinct keys and canonical members is canonical. -/
theorem canonical_object {members : List (Bytes × Json)} (hk : (members.map (·.1)).Nodup)
    (hv : ∀ m ∈ members, Canonical m.2) : Canonical (object members) := by
  refine ⟨Keyset.ascending_orderBy ?_, canonicalMembers_iff.2 fun m hm => ?_⟩
  · rw [show members.map (fun m => order m.1) = (members.map (·.1)).map order by simp]
    exact hk.map order_injective
  · exact hv m (Keyset.mem_orderBy.1 hm)

/-! ## The texts inside a text -/

section
variable {realText : Double → Bytes}

/-- The text of an element is no longer than that of the array. -/
theorem dumpElements_part {l : List Json} {t : Bytes} (h : dumpElements realText l = some t)
    {x : Json} (hx : x ∈ l) : ∃ s, dump realText x = some s ∧ s.length ≤ t.length := by
  induction l generalizing t with
  | nil => cases hx
  | cons y l ih =>
      simp only [dumpElements, Option.bind_eq_bind, Option.bind_eq_some_iff, Option.pure_def,
        Option.some.injEq] at h
      obtain ⟨first, hfirst, rest, hrest, rfl⟩ := h
      simp only [List.cons_append, List.length_cons, List.length_append]
      rcases List.mem_cons.1 hx with rfl | hx
      · exact ⟨first, hfirst, by omega⟩
      · obtain ⟨s, hs, hle⟩ := ih hrest hx
        exact ⟨s, hs, by omega⟩

/-- The text of a value is no longer than that of the object. -/
theorem dumpMembers_part {l : List (Bytes × Json)} {t : Bytes}
    (h : dumpMembers realText l = some t) {m : Bytes × Json} (hm : m ∈ l) :
    ∃ s, dump realText m.2 = some s ∧ s.length ≤ t.length := by
  induction l generalizing t with
  | nil => cases hm
  | cons n l ih =>
      obtain ⟨k, v⟩ := n
      simp only [dumpMembers, Option.bind_eq_bind, Option.bind_eq_some_iff, Option.pure_def,
        Option.some.injEq] at h
      obtain ⟨name, -, value, hvalue, rest, hrest, rfl⟩ := h
      simp only [List.cons_append, List.length_cons, List.length_append]
      rcases List.mem_cons.1 hm with rfl | hm
      · exact ⟨value, hvalue, by omega⟩
      · obtain ⟨s, hs, hle⟩ := ih hrest hm
        exact ⟨s, hs, by omega⟩

/-- The text of an array with elements is theirs, where the bracket takes the place of the first
comma. -/
theorem dump_arr_cons {x : Json} {l : List Json} {t : Bytes}
    (h : dump realText (.arr (x :: l)) = some t) :
    ∃ rest, t = 91 :: rest ∧ dumpElements realText (x :: l) = some (44 :: rest) := by
  simp only [dump, dumpElements, Option.bind_eq_bind, Option.bind_eq_some_iff, Option.pure_def,
    Option.some.injEq] at h ⊢
  obtain ⟨first, hfirst, rest, hrest, rfl⟩ := h
  exact ⟨_, rfl, first, hfirst, rest, hrest, rfl⟩

/-- The text of an object with members is theirs, where the brace takes the place of the first
comma. -/
theorem dump_obj_cons {m : Bytes × Json} {l : List (Bytes × Json)} {t : Bytes}
    (h : dump realText (.obj (m :: l)) = some t) :
    ∃ rest, t = 123 :: rest ∧ dumpMembers realText (m :: l) = some (44 :: rest) := by
  obtain ⟨k, v⟩ := m
  simp only [dump, dumpMembers, Option.bind_eq_bind, Option.bind_eq_some_iff, Option.pure_def,
    Option.some.injEq] at h ⊢
  obtain ⟨name, hname, value, hvalue, rest, hrest, rfl⟩ := h
  exact ⟨_, rfl, name, hname, value, hvalue, rest, hrest, rfl⟩

/-- The elements of an array have texts no longer than the array's. -/
theorem dump_element {l : List Json} {t : Bytes} (h : dump realText (.arr l) = some t) {x : Json}
    (hx : x ∈ l) : ∃ s, dump realText x = some s ∧ s.length ≤ t.length := by
  cases l with
  | nil => cases hx
  | cons y l =>
      obtain ⟨rest, rfl, hpart⟩ := dump_arr_cons h
      exact dumpElements_part hpart hx

/-- The members of an object have texts no longer than the object's. -/
theorem dump_member {l : List (Bytes × Json)} {t : Bytes} (h : dump realText (.obj l) = some t)
    {m : Bytes × Json} (hm : m ∈ l) : ∃ s, dump realText m.2 = some s ∧ s.length ≤ t.length := by
  cases l with
  | nil => cases hm
  | cons n l =>
      obtain ⟨rest, rfl, hpart⟩ := dump_obj_cons h
      exact dumpMembers_part hpart hm

/-- A string of valid UTF-8 has a text. -/
theorem exists_dump_str {s : Bytes} (h : validUtf8 s = true) :
    ∃ t, dump realText (.str s) = some t :=
  ⟨_, by rw [dump, dumpString, if_pos h]⟩

/-- Members have a text where each name is valid UTF-8 and each value has a text. -/
theorem exists_dumpMembers {l : List (Bytes × Json)}
    (h : ∀ m ∈ l, validUtf8 m.1 = true ∧ ∃ t, dump realText m.2 = some t) :
    ∃ t, dumpMembers realText l = some t := by
  induction l with
  | nil => exact ⟨_, rfl⟩
  | cons m l ih =>
      obtain ⟨k, v⟩ := m
      obtain ⟨hkey, value, hvalue⟩ := h (k, v) List.mem_cons_self
      obtain ⟨rest, hrest⟩ := ih fun m hm => h m (List.mem_cons_of_mem _ hm)
      exact ⟨_, by rw [dumpMembers, dumpString, if_pos hkey, hvalue, hrest]; rfl⟩

/-- An object has a text under the same condition. -/
theorem exists_dump_object {members : List (Bytes × Json)}
    (h : ∀ m ∈ members, validUtf8 m.1 = true ∧ ∃ t, dump realText m.2 = some t) :
    ∃ t, dump realText (object members) = some t := by
  replace h : ∀ m ∈ Keyset.orderBy (fun m => order m.1) members,
      validUtf8 m.1 = true ∧ ∃ t, dump realText m.2 = some t :=
    fun m hm => h m (Keyset.mem_orderBy.1 hm)
  unfold object
  generalize Keyset.orderBy (fun m => order m.1) members = l at h
  cases l with
  | nil => exact ⟨_, rfl⟩
  | cons m l =>
      obtain ⟨k, v⟩ := m
      obtain ⟨hkey, value, hvalue⟩ := h (k, v) List.mem_cons_self
      obtain ⟨rest, hrest⟩ := exists_dumpMembers fun m hm => h m (List.mem_cons_of_mem _ hm)
      exact ⟨_, by rw [dump, dumpString, if_pos hkey, hvalue, hrest]; rfl⟩

end

/-! ## The lengths of texts -/

/-- A byte is escaped with at most six. -/
theorem length_escapeByte (b : UInt8) : (escapeByte b).length ≤ 6 := by
  unfold escapeByte
  split_ifs <;> simp [hexByte]

/-- A byte takes at most six in the text of a string. -/
theorem length_dumpString {s t : Bytes} (h : dumpString s = some t) :
    t.length ≤ 6 * s.length + 2 := by
  have hescaped : ∀ s : Bytes, (s.flatMap escapeByte).length ≤ 6 * s.length := by
    intro s
    induction s with
    | nil => exact le_rfl
    | cons b s ih =>
        have hb := length_escapeByte b
        rw [List.flatMap_cons, List.length_append, List.length_cons]
        omega
  unfold dumpString at h
  split at h
  · obtain rfl := Option.some.inj h
    have hlen := hescaped s
    rw [List.cons_append, List.length_cons, List.length_append, List.length_singleton]
    omega
  · cases h

/-- The length of the members of an object, by a bound for each of their values. -/
theorem length_dumpMembers {realText : Double → Bytes} {l : List (Bytes × Json)} {t : Bytes}
    (h : dumpMembers realText l = some t) {bound : Bytes × Json → Nat}
    (hbound : ∀ m ∈ l, ∀ s, dump realText m.2 = some s → s.length ≤ bound m) :
    t.length ≤ (l.map fun m => 6 * m.1.length + 4 + bound m).sum + 1 := by
  induction l generalizing t with
  | nil =>
      obtain rfl := Option.some.inj h
      exact le_rfl
  | cons m l ih =>
      obtain ⟨k, v⟩ := m
      simp only [dumpMembers, Option.bind_eq_bind, Option.bind_eq_some_iff, Option.pure_def,
        Option.some.injEq] at h
      obtain ⟨name, hname, value, hvalue, rest, hrest, rfl⟩ := h
      have hle := ih hrest fun m hm => hbound m (List.mem_cons_of_mem _ hm)
      have hkey := length_dumpString hname
      have hval := hbound (k, v) List.mem_cons_self value hvalue
      simp only [List.map_cons, List.sum_cons, List.cons_append, List.length_cons,
        List.length_append]
      omega

/-- The length of an object, by a bound for each of its values. A byte of a key is printed as six
bytes at most, and four more are the quotes, the colon and the comma; the order in which the members
are printed does not matter. -/
theorem length_dump_object {realText : Double → Bytes} {members : List (Bytes × Json)}
    {t : Bytes} (h : dump realText (object members) = some t) (bound : Bytes × Json → Nat)
    (hbound : ∀ m ∈ members, ∀ s, dump realText m.2 = some s → s.length ≤ bound m) :
    t.length ≤ (members.map fun m => 6 * m.1.length + 4 + bound m).sum + 2 := by
  have hperm : (Keyset.orderBy (fun m => order m.1) members).Perm members :=
    Keyset.orderBy_perm members
  rw [← (hperm.map fun m => 6 * m.1.length + 4 + bound m).sum_nat]
  replace hbound : ∀ m ∈ Keyset.orderBy (fun m => order m.1) members, ∀ s,
      dump realText m.2 = some s → s.length ≤ bound m :=
    fun m hm => hbound m (hperm.mem_iff.1 hm)
  rw [object] at h
  generalize Keyset.orderBy (fun m => order m.1) members = l at h hbound
  cases l with
  | nil =>
      rw [dump] at h
      obtain rfl := Option.some.inj h
      exact le_rfl
  | cons m l =>
      obtain ⟨rest, rfl, hpart⟩ := dump_obj_cons h
      have hle := length_dumpMembers hpart hbound
      rw [List.length_cons] at hle ⊢
      omega

/-- The text of an object is not empty. -/
theorem dump_obj_ne_nil {realText : Double → Bytes} {members : List (Bytes × Json)} {t : Bytes}
    (h : dump realText (.obj members) = some t) : t ≠ [] := by
  rintro rfl
  cases members with
  | nil =>
      rw [dump] at h
      cases h
  | cons m ms =>
      rw [dump] at h
      simp only [Option.bind_eq_bind, Option.bind_eq_some_iff, Option.pure_def, Option.some.injEq,
        List.cons_append] at h
      obtain ⟨_, -, _, -, _, -, hnil⟩ := h
      cases hnil

end Json

/-- The parts of a JSON library that are not written out here: the text of a floating-point
number, and the parser. Parsing the text of a canonical value gives it back. -/
structure JsonLibrary where
  realText : Double → Bytes
  parse : Bytes → Option Json
  parse_dump : ∀ (j : Json) (t : Bytes), j.Canonical → j.dump realText = some t →
    parse t = some j

namespace JsonLibrary

variable (L : JsonLibrary)

/-- The compact text of a value, or the exception for text that is not UTF-8. -/
def dump (j : Json) : Fallible Bytes :=
  Fallible.orFail "json.exception.type_error.316" (j.dump L.realText)

/-- The value of a text, or the exception for one that is no JSON. -/
def parseText (t : Bytes) : Fallible Json :=
  Fallible.orFail "json.exception.parse_error.101" (L.parse t)

variable {L}

/-- A canonical value is read back from its text. -/
theorem parseText_of_dump {j : Json} {t : Bytes} (hj : j.Canonical) (h : L.dump j = .ok t) :
    L.parseText t = .ok j := by
  simp only [dump, Fallible.orFail_ok] at h
  simp only [parseText, Fallible.orFail_ok]
  exact L.parse_dump j t hj h

/-- Different canonical values have different texts. -/
theorem dump_injective {j k : Json} {t : Bytes} (hj : j.Canonical) (hk : k.Canonical)
    (h : L.dump j = .ok t) (h' : L.dump k = .ok t) : j = k := by
  have := (parseText_of_dump hj h).symm.trans (parseText_of_dump hk h')
  exact Except.ok.inj this

end JsonLibrary
