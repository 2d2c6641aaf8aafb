import FileProvider.Library.Bytes
import FileProvider.Library.Outcome
import FileProvider.Library.Transition
import Mathlib.Data.List.Nodup
import Mathlib.Logic.Function.Basic

/-!
# Access to sources

Every `SourceAccess` of a file shares one mutex with the others of that file. A registry keeps a
weak pointer to it under the file's identity; an object that is destroyed gives its mutex up first
and retires the entry in a section of its own, so other threads may come in between. `Sound` is what
the steps of all threads keep, in whatever order they come.

A step is one section of the registry, so that what is between two sections of one thread is a state
of its own. The invariant says of each entry that its mutex is that of the live objects of its
identity.
-/

namespace FileProvider

open Bytes

namespace Presentation

/-! ## Objects and their registry -/

/-- A `SourceAccess`, known by its place in memory: the identity of its file, and the mutex it holds
until its destructor gives it up. -/
structure SourceAccess where
  object : Nat
  identity : Bytes
  mutex : Option Nat
deriving DecidableEq

/-- The destructor has not begun. -/
def SourceAccess.Live (a : SourceAccess) : Prop := a.mutex ≠ none

instance (a : SourceAccess) : Decidable a.Live := inferInstanceAs (Decidable (a.mutex ≠ none))

/-- The objects of all threads and `sourceAccessLocks`, whose entries are weak pointers. Mutexes are
numbered in the order they are made. -/
structure Accesses where
  sourceAccessLocks : Bytes → Option (Option Nat)
  objects : List SourceAccess
  made : Nat

namespace Accesses

def initial : Accesses := ⟨fun _ => none, [], 0⟩

/-- `use_count`: how many objects hold a mutex. -/
def useCount (s : Accesses) (mutex : Nat) : Nat :=
  s.objects.countP fun a => a.mutex = some mutex

/-- `weak_ptr::lock`. -/
def lock (s : Accesses) (entry : Option Nat) : Option Nat :=
  entry.filter fun mutex => s.useCount mutex ≠ 0

/-- `weak_ptr::expired`. -/
def expired (s : Accesses) (entry : Option Nat) : Bool := (s.lock entry).isNone

def identify (input : Bytes) (inspected : Fallible Bytes) : Fallible Bytes :=
  if input = [] then .error "A source path is required"
  else
    match inspected with
    | .ok identity => .ok identity
    | .error what => .error ("Cannot identify source access: " ++ what)

/-- The section of `acquire`: the mutex of an identity and the registry with its entry. -/
def acquire (s : Accesses) (identity : Bytes) : Nat × Accesses :=
  let entry := (s.sourceAccessLocks identity).getD none
  match s.lock entry with
  | some mutex =>
      (mutex, { s with
        sourceAccessLocks := Function.update s.sourceAccessLocks identity (some entry) })
  | none =>
      (s.made, { s with
        sourceAccessLocks := Function.update s.sourceAccessLocks identity (some (some s.made))
        made := s.made + 1 })

/-- The start of the destructor: an object gives its mutex up. -/
def reset (s : Accesses) (object : Nat) : Accesses :=
  { s with objects :=
      s.objects.map fun a => if a.object = object then { a with mutex := none } else a }

/-- The section of the destructor. -/
def retire (s : Accesses) (identity : Bytes) : Accesses :=
  match s.sourceAccessLocks identity with
  | none => s
  | some entry =>
      if s.expired entry then
        { s with sourceAccessLocks := Function.update s.sourceAccessLocks identity none }
      else s

/-! ## Steps -/

/-- What a thread does next: it constructs an object for a path, of which the file system says what
it is, or it begins to destroy one, or it goes on with the section of the destructor. -/
inductive AccessEvent where
  | construct (object : Nat) (path : Bytes) (inspected : Fallible Bytes)
  | reset (object : Nat)
  | retire (object : Nat)

/-- An atomic step of a thread. -/
def step (s : Accesses) : AccessEvent → Option Accesses
  | .construct object path inspected =>
      if object ∈ s.objects.map (·.object) then none
      else
        match identify path inspected with
        | .error _ => some s
        | .ok identity =>
            let r := s.acquire identity
            some { r.2 with objects := ⟨object, identity, some r.1⟩ :: s.objects }
  | .reset object =>
      if ∃ a ∈ s.objects, a.object = object ∧ a.Live then some (s.reset object) else none
  | .retire object =>
      match s.objects.find? (fun a => a.object = object) with
      | none => none
      | some a =>
          if a.Live then none
          else some { s.retire a.identity with objects := s.objects.filter (·.object ≠ object) }

/-- The steps of all threads. -/
def Step (s : Accesses) (e : AccessEvent) (s' : Accesses) : Prop := s.step e = some s'

/-! ## Weak pointers -/

section

variable {s s' : Accesses} {e : AccessEvent} {a b : SourceAccess} {mutex : Nat}
  {entry : Option Nat} {identity : Bytes}

/-- A mutex is in use exactly when an object holds it. -/
theorem useCount_ne_zero : s.useCount mutex ≠ 0 ↔ ∃ a ∈ s.objects, a.mutex = some mutex := by
  unfold useCount
  rw [← Nat.pos_iff_ne_zero, List.countP_pos_iff]
  simp only [decide_eq_true_eq]

/-- A weak entry is locked exactly when its mutex is in use. -/
theorem lock_eq_some : s.lock entry = some mutex ↔
    entry = some mutex ∧ ∃ a ∈ s.objects, a.mutex = some mutex := by
  unfold lock
  rw [Option.filter_eq_some_iff, decide_eq_true_iff, useCount_ne_zero]

/-- An entry that cannot be locked is not that of an object's mutex. -/
theorem lock_eq_none (h : s.lock entry = none) (ha : a ∈ s.objects)
    (hmutex : a.mutex = some mutex) :
    entry ≠ some mutex := by
  intro hentry
  rw [lock_eq_some.2 ⟨hentry, a, ha, hmutex⟩] at h
  cases h

/-! ## What every step keeps -/

/-- The entry of a live object's identity points to its mutex, no two entries point to one mutex,
and every entry has an object that is live or about to retire it. -/
structure Sound (s : Accesses) : Prop where
  objects : (s.objects.map (·.object)).Nodup
  named : ∀ a ∈ s.objects, ∀ mutex, a.mutex = some mutex →
    s.sourceAccessLocks a.identity = some (some mutex)
  separate : ∀ identity identity' mutex, s.sourceAccessLocks identity = some (some mutex) →
    s.sourceAccessLocks identity' = some (some mutex) → identity = identity'
  older : ∀ identity mutex, s.sourceAccessLocks identity = some (some mutex) → mutex < s.made
  kept : ∀ identity, s.sourceAccessLocks identity ≠ none →
    ∃ a ∈ s.objects, a.identity = identity

/-- The registry is sound before the first object. -/
theorem Sound.initial : Sound initial where
  objects := List.nodup_nil
  named _ ha := absurd ha List.not_mem_nil
  separate _ _ _ h := nomatch h
  older _ _ h := nomatch h
  kept _ h := absurd rfl h

/-- What a step does: it adds an object with the mutex of its identity, takes the mutex of one away,
or removes one that has none. -/
theorem step_cases (h : Step s e s') :
    s' = s ∨
    (∃ object identity, object ∉ s.objects.map (·.object) ∧
      s' = { (s.acquire identity).2 with
        objects := ⟨object, identity, some (s.acquire identity).1⟩ :: s.objects }) ∨
    (∃ object, s' = s.reset object) ∨
    ∃ a ∈ s.objects, a.mutex = none ∧
      s' = { s.retire a.identity with objects := s.objects.filter (·.object ≠ a.object) } := by
  unfold Step step at h
  cases e with
  | construct object path inspected =>
      dsimp only at h
      split at h
      · cases h
      · next hnew =>
          split at h
          · exact .inl (Option.some.inj h).symm
          · next identity hidentity =>
              exact .inr (.inl ⟨object, identity, hnew, (Option.some.inj h).symm⟩)
  | reset object =>
      dsimp only at h
      split at h
      · exact .inr (.inr (.inl ⟨object, (Option.some.inj h).symm⟩))
      · cases h
  | retire object =>
      dsimp only at h
      split at h
      · cases h
      · next a hfound =>
          split at h
          · cases h
          · next hdead =>
              have hobject : a.object = object := by simpa using List.find?_some hfound
              subst hobject
              exact .inr (.inr (.inr ⟨a, List.mem_of_find?_eq_some hfound, not_not.1 hdead,
                (Option.some.inj h).symm⟩))

/-- The mutex of an identity, and the entry that is left for it. -/
theorem acquire_cases (s : Accesses) (identity : Bytes) :
    (∃ mutex, s.sourceAccessLocks identity = some (some mutex) ∧
      (∃ a ∈ s.objects, a.mutex = some mutex) ∧ s.acquire identity = (mutex, s)) ∨
    (∀ a ∈ s.objects, ∀ mutex, a.mutex = some mutex →
      s.sourceAccessLocks identity ≠ some (some mutex)) ∧
      s.acquire identity = (s.made, { s with
        sourceAccessLocks := Function.update s.sourceAccessLocks identity (some (some s.made))
        made := s.made + 1 }) := by
  unfold acquire
  dsimp only
  split
  · next mutex hlock =>
      obtain ⟨hentry, hheld⟩ := lock_eq_some.1 hlock
      have hthere : s.sourceAccessLocks identity = some (some mutex) := by
        cases hlocks : s.sourceAccessLocks identity with
        | none =>
            rw [hlocks] at hentry
            cases hentry
        | some entry =>
            rw [hlocks] at hentry
            exact congrArg some hentry
      refine .inl ⟨mutex, hthere, hheld, ?_⟩
      rw [hentry, ← hthere, Function.update_eq_self]
  · next hlock =>
      refine .inr ⟨fun a ha mutex hmutex hthere => ?_, rfl⟩
      refine lock_eq_none hlock ha hmutex ?_
      rw [hthere]
      rfl

/-- What is left of the registry when an object is destroyed. An entry is only removed if its mutex
has expired, which is the second case. -/
theorem retire_cases (s : Accesses) (identity : Bytes) :
    (s.retire identity = s ∧ ∀ entry, s.sourceAccessLocks identity = some entry →
      ∃ mutex, entry = some mutex ∧ ∃ a ∈ s.objects, a.mutex = some mutex) ∨
    (∀ a ∈ s.objects, ∀ mutex, a.mutex = some mutex →
      s.sourceAccessLocks identity ≠ some (some mutex)) ∧
      s.retire identity =
        { s with sourceAccessLocks := Function.update s.sourceAccessLocks identity none } := by
  unfold retire
  split
  · next hnone => exact .inl ⟨rfl, fun entry hentry => by rw [hnone] at hentry; cases hentry⟩
  · next entry hentry =>
      split
      · next hexpired =>
          refine .inr ⟨fun a ha mutex hmutex hthere => ?_, rfl⟩
          refine lock_eq_none (Option.isNone_iff_eq_none.1 hexpired) ha hmutex ?_
          exact Option.some.inj (hentry.symm.trans hthere)
      · next hheld =>
          refine .inl ⟨rfl, fun entry' hentry' => ?_⟩
          obtain rfl := Option.some.inj (hentry.symm.trans hentry')
          have hsome : s.lock entry ≠ none := fun hnone => hheld (Option.isNone_iff_eq_none.2 hnone)
          obtain ⟨mutex, hlock⟩ := Option.ne_none_iff_exists'.1 hsome
          obtain ⟨hpoints, hobject⟩ := lock_eq_some.1 hlock
          exact ⟨mutex, hpoints, hobject⟩

/-- Constructing an object keeps the registry sound. In the first case it shares the mutex of an
object of the same identity, and in the second it gets a new one that no object has. -/
theorem Sound.construct {object : Nat} (hs : Sound s) (hnew : object ∉ s.objects.map (·.object)) :
    Sound { (s.acquire identity).2 with
      objects := ⟨object, identity, some (s.acquire identity).1⟩ :: s.objects } := by
  have hobjects : (object :: s.objects.map (·.object)).Nodup :=
    List.nodup_cons.2 ⟨hnew, hs.objects⟩
  rcases acquire_cases s identity with ⟨mutex, hthere, -, hacquire⟩ | ⟨hunheld, hacquire⟩
  · -- The object shares the mutex that another one holds.
    rw [hacquire]
    refine ⟨hobjects, ?_, hs.separate, hs.older, fun identity' h => ?_⟩
    · intro a ha mutex' hmutex
      rcases List.mem_cons.1 ha with rfl | ha
      · cases hmutex
        exact hthere
      · exact hs.named a ha mutex' hmutex
    · obtain ⟨a, ha, haidentity⟩ := hs.kept identity' h
      exact ⟨a, List.mem_cons_of_mem _ ha, haidentity⟩
  · -- Nobody holds the mutex of the entry, if there is one: a new one takes its place.
    rw [hacquire]
    have hother : ∀ {identity' mutex}, Function.update s.sourceAccessLocks identity
        (some (some s.made)) identity' = some (some mutex) →
        identity' = identity ∧ mutex = s.made ∨
          identity' ≠ identity ∧ s.sourceAccessLocks identity' = some (some mutex) := by
      intro identity' mutex h
      by_cases hsame : identity' = identity
      · subst hsame
        rw [Function.update_self] at h
        exact .inl ⟨rfl, (Option.some.inj (Option.some.inj h)).symm⟩
      · rw [Function.update_of_ne hsame] at h
        exact .inr ⟨hsame, h⟩
    refine ⟨hobjects, ?_, ?_, ?_, ?_⟩
    · intro a ha mutex hmutex
      show Function.update s.sourceAccessLocks identity (some (some s.made)) a.identity = _
      rcases List.mem_cons.1 ha with rfl | hold
      · cases hmutex
        exact Function.update_self _ _ _
      · have hnamed := hs.named a hold mutex hmutex
        rw [Function.update_of_ne]
        · exact hnamed
        · rintro rfl
          exact hunheld a hold mutex hmutex hnamed
    · intro identity₁ identity₂ mutex h₁ h₂
      rcases hother h₁ with ⟨rfl, rfl⟩ | ⟨-, hold₁⟩
      · rcases hother h₂ with ⟨rfl, -⟩ | ⟨-, hold₂⟩
        · rfl
        · exact absurd (hs.older _ _ hold₂) (Nat.lt_irrefl _)
      · rcases hother h₂ with ⟨rfl, rfl⟩ | ⟨-, hold₂⟩
        · exact absurd (hs.older _ _ hold₁) (Nat.lt_irrefl _)
        · exact hs.separate _ _ _ hold₁ hold₂
    · intro identity' mutex h
      rcases hother h with ⟨-, rfl⟩ | ⟨-, h⟩
      · exact Nat.lt_succ_self _
      · exact Nat.lt_succ_of_lt (hs.older _ _ h)
    · intro identity' h
      by_cases hsame : identity' = identity
      · exact ⟨_, List.mem_cons_self, hsame.symm⟩
      · obtain ⟨a, ha, haidentity⟩ := hs.kept identity' (by
          intro hnone
          exact h ((Function.update_of_ne hsame _ _).trans hnone))
        exact ⟨a, List.mem_cons_of_mem _ ha, haidentity⟩

/-- Resetting an object keeps the registry sound. An object only loses its mutex, so that nobody
gets one that another identity has. -/
theorem Sound.reset {object : Nat} (hs : Sound s) : Sound (s.reset object) := by
  let give := fun a : SourceAccess => if a.object = object then { a with mutex := none } else a
  have hkeeps : ∀ a, (give a).object = a.object ∧ (give a).identity = a.identity := by
    intro a
    dsimp only [give]
    split
    · exact ⟨rfl, rfl⟩
    · exact ⟨rfl, rfl⟩
  have hholds : ∀ a mutex, (give a).mutex = some mutex → a.mutex = some mutex := by
    intro a mutex h
    dsimp only [give] at h
    split at h
    · cases h
    · exact h
  refine ⟨?_, ?_, hs.separate, hs.older, ?_⟩
  · show ((s.objects.map give).map (·.object)).Nodup
    have hsame : (fun a : SourceAccess => a.object) ∘ give = fun a => a.object :=
      funext fun a => (hkeeps a).1
    rw [List.map_map, hsame]
    exact hs.objects
  · intro a ha mutex hmutex
    obtain ⟨b, hb, rfl⟩ := List.mem_map.1 ha
    show s.sourceAccessLocks (give b).identity = _
    rw [(hkeeps b).2]
    exact hs.named b hb mutex (hholds b mutex hmutex)
  · intro identity h
    obtain ⟨a, ha, haidentity⟩ := hs.kept identity h
    exact ⟨give a, List.mem_map_of_mem ha, (hkeeps a).2.trans haidentity⟩

/-- Retiring an identity keeps the registry sound. The object that is removed holds no mutex any
more, and the entry goes if no other object holds it. -/
theorem Sound.retire (hs : Sound s) (ha : a ∈ s.objects) (hdead : a.mutex = none) :
    Sound { s.retire a.identity with objects := s.objects.filter (·.object ≠ a.object) } := by
  have hobjects : ((s.objects.filter (·.object ≠ a.object)).map (·.object)).Nodup :=
    hs.objects.sublist (List.filter_sublist.map _)
  -- The object that goes is the only one of its place in memory.
  have hstays : ∀ b ∈ s.objects, b ≠ a → b ∈ s.objects.filter (·.object ≠ a.object) := by
    intro b hb hne
    refine List.mem_filter.2 ⟨hb, decide_eq_true fun hobject => hne ?_⟩
    exact List.inj_on_of_nodup_map hs.objects hb ha hobject
  have hholder : ∀ b ∈ s.objects, ∀ mutex, b.mutex = some mutex →
      b ∈ s.objects.filter (·.object ≠ a.object) := by
    intro b hb mutex hmutex
    refine hstays b hb ?_
    rintro rfl
    rw [hdead] at hmutex
    cases hmutex
  rcases retire_cases s a.identity with ⟨hretire, hheld⟩ | ⟨hunheld, hretire⟩
  · -- The entry is not there, or another object holds its mutex.
    rw [hretire]
    refine ⟨hobjects, fun b hb => hs.named b (List.mem_filter.1 hb).1, hs.separate, hs.older,
      fun identity h => ?_⟩
    obtain ⟨b, hb, rfl⟩ := hs.kept identity h
    by_cases hsame : b = a
    · subst hsame
      obtain ⟨entry, hentry⟩ := Option.ne_none_iff_exists'.1 h
      obtain ⟨mutex, rfl, c, hc, hmutex⟩ := hheld entry hentry
      exact ⟨c, hholder c hc mutex hmutex,
        hs.separate _ _ mutex (hs.named c hc mutex hmutex) hentry⟩
    · exact ⟨b, hstays b hb hsame, rfl⟩
  · -- The entry has expired.
    rw [hretire]
    have hother : ∀ {identity entry}, Function.update s.sourceAccessLocks a.identity none identity
        = some entry → identity ≠ a.identity ∧ s.sourceAccessLocks identity = some entry := by
      intro identity entry h
      by_cases hsame : identity = a.identity
      · rw [hsame, Function.update_self] at h
        cases h
      · rw [Function.update_of_ne hsame] at h
        exact ⟨hsame, h⟩
    refine ⟨hobjects, ?_, ?_, ?_, ?_⟩
    · intro b hb mutex hmutex
      have hnamed := hs.named b (List.mem_filter.1 hb).1 mutex hmutex
      show Function.update s.sourceAccessLocks a.identity none b.identity = _
      rw [Function.update_of_ne]
      · exact hnamed
      · intro hsame
        exact hunheld b (List.mem_filter.1 hb).1 mutex hmutex (hsame ▸ hnamed)
    · exact fun _ _ _ h₁ h₂ => hs.separate _ _ _ (hother h₁).2 (hother h₂).2
    · exact fun _ _ h => hs.older _ _ (hother h).2
    · intro identity h
      obtain ⟨entry, hentry⟩ := Option.ne_none_iff_exists'.1 h
      obtain ⟨hne, hthere⟩ := hother hentry
      obtain ⟨b, hb, rfl⟩ := hs.kept identity (by rw [hthere]; exact nofun)
      exact ⟨b, hstays b hb (by rintro rfl; exact hne rfl), rfl⟩

/-- Each step keeps the registry sound. -/
theorem Sound.step (hs : Sound s) (h : Step s e s') : Sound s' := by
  rcases step_cases h with rfl | ⟨object, identity, hnew, rfl⟩ | ⟨object, rfl⟩ | ⟨a, ha, hdead, rfl⟩
  · exact hs
  · exact hs.construct hnew
  · exact hs.reset
  · exact hs.retire ha hdead

end

/-! ## Whole runs -/

/-- **There is one mutex for every live source.** In every state that constructions, resets and the
two halves of destructions lead to, in any order, two live objects have the same mutex exactly when
they are about the same source, and the registry has no entry for a source that has neither a live
object nor one that is being destroyed. -/
theorem one_mutex_per_source (s : Accesses) (events : List AccessEvent)
    (h : Run Step initial events s) :
    (∀ a ∈ s.objects, ∀ b ∈ s.objects, a.Live → b.Live →
      (a.identity = b.identity ↔ a.mutex = b.mutex)) ∧
    ∀ identity, (∀ a ∈ s.objects, a.identity ≠ identity) → s.sourceAccessLocks identity = none := by
  have hs : Sound s := h.invariant Sound.step Sound.initial
  constructor
  · intro a ha b hb halive hblive
    obtain ⟨mutex, hmutex⟩ := Option.ne_none_iff_exists'.1 halive
    obtain ⟨mutex', hmutex'⟩ := Option.ne_none_iff_exists'.1 hblive
    have hnamed := hs.named a ha mutex hmutex
    have hnamed' := hs.named b hb mutex' hmutex'
    constructor
    · intro hsame
      rw [hsame, hnamed'] at hnamed
      rw [hmutex, hmutex', Option.some.inj (Option.some.inj hnamed)]
    · intro hsame
      rw [hmutex, hmutex'] at hsame
      cases hsame
      exact hs.separate _ _ mutex hnamed hnamed'
  · intro identity hunused
    by_contra hthere
    obtain ⟨a, ha, hidentity⟩ := hs.kept identity hthere
    exact hunused a ha hidentity

/-- A source is opened again between the two halves of a destruction. -/
theorem one_mutex_per_source_reopened : ∃ s, Run Step initial
    [.construct 0 (ascii "/a") (.ok (ascii "1:7")), .reset 0,
      .construct 1 (ascii "/b") (.ok (ascii "1:7")), .construct 2 (ascii "/c") (.ok (ascii "1:8")),
      .retire 0, .construct 3 (ascii "/a") (.ok (ascii "1:7"))] s ∧
    (∀ a ∈ s.objects, ∀ b ∈ s.objects, a.Live → b.Live →
      (a.identity = b.identity ↔ a.mutex = b.mutex)) ∧
    ∀ identity, (∀ a ∈ s.objects, a.identity ≠ identity) →
      s.sourceAccessLocks identity = none := by
  have hsome : ([.construct 0 (ascii "/a") (.ok (ascii "1:7")), .reset 0,
      .construct 1 (ascii "/b") (.ok (ascii "1:7")), .construct 2 (ascii "/c") (.ok (ascii "1:8")),
      .retire 0, .construct 3 (ascii "/a") (.ok (ascii "1:7"))].foldlM step initial).isSome := by
    decide +kernel
  obtain ⟨s, hrun⟩ := Run.of_isSome hsome
  exact ⟨s, hrun, one_mutex_per_source s _ hrun⟩

end Accesses

end Presentation

end FileProvider
