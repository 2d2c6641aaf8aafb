import FileProvider.Presentation.Tokens
import Mathlib.Data.List.Nodup

/-!
# Tokens that tell of every edit

A token stands for a mark that a file has had, and as long as no other process writes the file while
a publication of it is between its last check and the note of its token, for one that no write of
another process came after. A write in between is hidden.

`Stands` is the invariant about one token, with the history of the file it is for, and `Sound` is
that of all publications. The condition on others is on a step and the state before it;
`write_hidden` is a run that does without it.
-/

namespace FileProvider

open Bytes

namespace Presentation

namespace Tokens

/-! ## Tokens as texts -/

/-- What can stand behind plain text: nothing, or a colon and a letter. -/
def Tail (s : Bytes) : Prop := s = [] ∨ ∃ letter rest, s = 58 :: letter :: rest ∧ 58 < letter

/-- Digits and separators below a tail mark do not make a tail. -/
theorem not_tail_append {c : UInt8} {b x : Bytes} (hb : ∀ d ∈ c :: b, d ≤ 58) (hx : Tail x) :
    ¬ Tail ((c :: b) ++ x) := by
  rintro (hnil | ⟨letter, rest, htail, hletter⟩)
  · cases hnil
  · obtain ⟨rfl, hbehind⟩ := List.cons.inj htail
    cases b with
    | nil =>
        rcases hx with rfl | ⟨letter', rest', rfl, -⟩
        · cases hbehind
        · obtain ⟨rfl, -⟩ := List.cons.inj hbehind
          exact absurd hletter (by decide)
    | cons d b =>
        obtain ⟨rfl, -⟩ := List.cons.inj hbehind
        have hplain := hb d (List.mem_cons_of_mem _ List.mem_cons_self)
        exact absurd hletter (UInt8.not_lt.2 hplain)

/-- Plain text ends where such a tail begins. -/
theorem append_tail_inj {a b x y : Bytes} (ha : ∀ c ∈ a, c ≤ 58) (hb : ∀ c ∈ b, c ≤ 58)
    (hx : Tail x) (hy : Tail y) (h : a ++ x = b ++ y) : a = b ∧ x = y := by
  induction a generalizing b with
  | nil =>
      cases b with
      | nil => exact ⟨rfl, h⟩
      | cons c b =>
          rw [List.nil_append] at h
          exact absurd (h ▸ hx) (not_tail_append hb hy)
  | cons c a ih =>
      cases b with
      | nil =>
          rw [List.nil_append] at h
          exact absurd (h ▸ hy) (not_tail_append ha hx)
      | cons d b =>
          obtain ⟨rfl, hrest⟩ := List.cons.inj h
          obtain ⟨rfl, rfl⟩ := ih (fun e he => ha e (List.mem_cons_of_mem _ he))
            (fun e he => hb e (List.mem_cons_of_mem _ he)) hrest
          exact ⟨rfl, rfl⟩

/-- The text of a logged mark is a tail. -/
theorem tail_logText (log : Option Mark) : Tail (logText log) := by
  cases log with
  | none => exact .inl rfl
  | some m => exact .inr ⟨119, _, rfl, by decide⟩

/-- The text of a sequence in front of a tail is a tail. -/
theorem tail_sequenceText (n : Option Int) {x : Bytes} (hx : Tail x) :
    Tail (sequenceText n ++ x) := by
  cases n with
  | none => exact hx
  | some n => exact .inr ⟨117, _, rfl, by decide⟩

/-- A printed number stays below the marks of the tails. -/
theorem decimalInt_plain (n : Int) : ∀ c ∈ decimalInt n, c ≤ 58 := by
  have hdecimal : ∀ n : Nat, ∀ c ∈ decimal n, c ≤ 58 := by
    intro n c hc
    have hdigit := digit_of_mem_decimal hc
    rw [UInt8.le_iff_toNat_le]
    exact hdigit.2.trans (by decide)
  intro c hc
  cases n with
  | ofNat n => exact hdecimal n c hc
  | negSucc n =>
      rcases List.mem_cons.1 hc with rfl | hc
      · decide
      · exact hdecimal _ c hc

/-- The number of the journal, as the text shows it. What stands in front of the number tells it
from the text of a log, and it ends where its digits end. -/
theorem sequenceText_inj {m n : Option Int} {x y : Bytes} {log log' : Option Mark}
    (hx : x = logText log) (hy : y = logText log')
    (h : sequenceText m ++ x = sequenceText n ++ y) : m = n := by
  have hletter : ∀ (k : Int) (l : Option Mark) (z : Bytes),
      sequenceText (some k) ++ z ≠ logText l := by
    intro k l z hkl
    cases l with
    | none => cases hkl
    | some l =>
        have hsecond := congrArg (fun s : Bytes => s[1]?) hkl
        cases hsecond
  cases m with
  | none =>
      cases n with
      | none => rfl
      | some n => exact absurd (h.symm.trans hx) (hletter n log y)
  | some m =>
      cases n with
      | none => exact absurd (h.trans hy) (hletter m log' x)
      | some n =>
          have hplain := List.append_cancel_left
            (show ascii ":usn:" ++ (decimalInt m ++ x) = ascii ":usn:" ++ (decimalInt n ++ y) by
              rw [← List.append_assoc, ← List.append_assoc]
              exact h)
          have hdecimal := (append_tail_inj (decimalInt_plain m) (decimalInt_plain n)
            (hx ▸ tail_logText log) (hy ▸ tail_logText log') hplain).1
          rw [decimalInt_injective hdecimal]

/-- **A token shows its mark.** -/
theorem tokenText_inj {m n : Mark} {log log' : Option Mark}
    (h : tokenText m log = tokenText n log') : m = n := by
  unfold tokenText at h
  rw [List.append_assoc, List.append_assoc] at h
  obtain ⟨hchanged, hrest⟩ := append_tail_inj m.changed.plain n.changed.plain
    (tail_sequenceText _ (tail_logText log)) (tail_sequenceText _ (tail_logText log')) h
  have hsequence := sequenceText_inj rfl rfl hrest
  obtain ⟨⟨text, plain⟩, sequence⟩ := m
  obtain ⟨⟨text', plain'⟩, sequence'⟩ := n
  obtain rfl : text = text' := hchanged
  obtain rfl : sequence = sequence' := hsequence
  rfl

/-! ## What every step keeps -/

namespace Provider

variable {s s' : Provider} {e : Event} {f : File}

/-- A mark that a file has had, when it had been written so often. -/
def Had (s : Provider) (f : File) (m : Mark) (n : Nat) : Prop := (m, n) ∈ s.given f

/-- A token stands for a mark that no write of another process came after. -/
def Stands (s : Provider) (f : File) (t : CacheToken) : Prop :=
  ∃ n, s.Had f ⟨t.observed, t.observedSequence⟩ n ∧ s.Had f ⟨t.normalized, t.normalizedSequence⟩ n

/-- Where a publication is past its last check, no write of another process has come after the mark
it keeps. -/
def Publication.Current (s : Provider) : Publication → Prop
  | .checked f before => s.Had f before (s.written f)
  | .locked f original => s.Had f original (s.written f)
  | _ => True

/-- What every careful step keeps. -/
structure Sound (s : Provider) : Prop where
  native : ∀ f, s.Had f (s.native f) (s.written f)
  once : ∀ f, ((s.given f).map (·.1)).Nodup
  tokens : ∀ e ∈ s.tokens, s.Stands e.1 e.2
  publications : ∀ i, ∀ p ∈ s.publications i, Publication.Current s p

/-- A provider at its start is sound. -/
theorem Initial.sound (h : Initial s) : Sound s := by
  refine ⟨fun f => ?_, fun f => ?_, ?_, fun i p hp => ?_⟩
  · unfold Had
    rw [h.given]
    exact List.mem_singleton.2 rfl
  · rw [h.given]
    exact List.nodup_singleton _
  · rw [h.tokens]
    exact nofun
  · rw [h.publications] at hp
    cases hp

/-- In a sound provider the normalised mark of a version belongs to that version too. -/
theorem Sound.normal (h : Sound s) {m : Mark} {n : Nat} (hm : s.Had f m n) :
    s.Had f (s.normal f m) n := by
  unfold Provider.normal
  split
  · exact hm
  · next g t hfind =>
      split
      · next hsame =>
          have hfile : g = f := by simpa using List.find?_some hfind
          obtain ⟨k, hobserved, hnormalized⟩ := h.tokens (g, t) (List.mem_of_find?_eq_some hfind)
          subst hfile
          have hmark : m = ⟨t.observed, t.observedSequence⟩ := by
            rw [hsame.1, hsame.2]
          have hpair := List.inj_on_of_nodup_map (h.once g) hm hobserved hmark
          rw [(Prod.mk.inj hpair).2]
          exact hnormalized
      · exact hm

/-- What is stored is the new token or one from before. -/
theorem mem_store {t : CacheToken} {tokens : List (File × CacheToken)} {e : File × CacheToken}
    (he : e ∈ store f t tokens) : e = (f, t) ∨ e ∈ tokens := by
  induction tokens with
  | nil => exact .inl (List.mem_singleton.1 he)
  | cons d tokens ih =>
      unfold store at he
      split at he
      · rcases List.mem_cons.1 he with rfl | he
        · exact .inl rfl
        · exact .inr (List.mem_cons_of_mem _ he)
      · split at he
        · exact List.mem_cons.1 he
        · rcases List.mem_cons.1 he with rfl | he
          · exact .inr List.mem_cons_self
          · exact (ih he).imp_right (List.mem_cons_of_mem _)

/-- What is noted is the new token or one from before. -/
theorem mem_noted {t : CacheToken} {e : File × CacheToken} (he : e ∈ s.noted f t) :
    e = (f, t) ∨ e ∈ s.tokens := by
  refine (mem_store he).imp_right fun he => ?_
  split at he
  · exact List.mem_of_mem_tail he
  · exact he

/-- A publication at another place, with all else as it is. -/
theorem Sound.publication (h : Sound s) {i : Nat} {p : Publication}
    (hp : Publication.Current s p) : Sound (s.publication i p) := by
  refine ⟨h.native, h.once, h.tokens, fun j q hq => ?_⟩
  change q ∈ (if j = i then some p else s.publications j) at hq
  split at hq
  · obtain rfl := Option.mem_some_iff.1 hq
    cases p with
    | _ => exact hp
  · cases q with
    | _ => exact h.publications j _ hq

/-- A new mark of a file, from no other process or while no publication of it is past its last
check. -/
theorem Sound.mark (h : Sound s) {m : Mark} {n : Nat} (hnew : m ∉ (s.given f).map (·.1))
    (hn : n = s.written f ∨ ∀ i, ∀ p ∈ s.publications i, ¬ p.Publishes f) :
    Sound (s.mark f m n) := by
  have hkept : ∀ {g k l}, s.Had g k l → (s.mark f m n).Had g k l := by
    intro g k l hk
    show (k, l) ∈ (if g = f then (m, n) :: s.given g else s.given g)
    split
    · exact List.mem_cons_of_mem _ hk
    · exact hk
  refine ⟨fun g => ?_, fun g => ?_, fun e he => ?_, fun i p hp => ?_⟩
  · show ((if g = f then m else s.native g), (if g = f then n else s.written g)) ∈
      (if g = f then (m, n) :: s.given g else s.given g)
    split
    · exact List.mem_cons_self
    · exact h.native g
  · show ((if g = f then (m, n) :: s.given g else s.given g).map (·.1)).Nodup
    split
    · next hg =>
        subst hg
        exact List.nodup_cons.2 ⟨hnew, h.once g⟩
    · exact h.once g
  · obtain ⟨k, hobserved, hnormalized⟩ := h.tokens e he
    exact ⟨k, hkept hobserved, hkept hnormalized⟩
  · have hold := h.publications i p hp
    have hwritten : ∀ {g}, (g = f → p.Publishes f) → (s.mark f m n).written g = s.written g := by
      intro g hg
      show (if g = f then n else s.written g) = _
      split
      · next heq =>
          subst heq
          exact hn.resolve_right fun hnone => hnone i p hp (hg rfl)
      · rfl
    cases p with
    | checked g before =>
        show (s.mark f m n).Had g before ((s.mark f m n).written g)
        rw [hwritten id]
        exact hkept hold
    | locked g original =>
        show (s.mark f m n).Had g original ((s.mark f m n).written g)
        rw [hwritten id]
        exact hkept hold
    | _ => exact trivial

/-- Each careful step keeps the provider sound. -/
theorem Sound.step (h : Sound s) (hstep : Step s e s') (hcareful : Careful s e) : Sound s' := by
  cases e with
  | start i f =>
      simp only [Step, Provider.step, Option.ite_none_right_eq_some, Option.some.injEq] at hstep
      obtain ⟨-, rfl⟩ := hstep
      exact h.publication trivial
  | check i =>
      simp only [Step, Provider.step] at hstep
      split at hstep
      · next f before hpublication =>
          simp only [Option.ite_none_right_eq_some, Option.some.injEq] at hstep
          obtain ⟨rfl, rfl⟩ := hstep
          exact h.publication (p := .checked f _) (h.native f)
      · cases hstep
  | abandon i =>
      simp only [Step, Provider.step] at hstep
      split at hstep
      · obtain rfl := Option.some.inj hstep
        exact h.publication trivial
      · obtain rfl := Option.some.inj hstep
        exact h.publication trivial
      · cases hstep
  | lock i =>
      simp only [Step, Provider.step] at hstep
      split at hstep
      · next f before hpublication hholder =>
          obtain rfl := Option.some.inj hstep
          have hnormal := h.publication (i := i) (p := .locked f (s.normal f before))
            (h.normal (h.publications i _ hpublication))
          exact ⟨hnormal.native, hnormal.once, hnormal.tokens, hnormal.publications⟩
      · cases hstep
  | embed i m =>
      simp only [Step, Provider.step] at hstep
      split at hstep
      · next f original hpublication =>
          simp only [Option.ite_none_right_eq_some, Option.some.injEq] at hstep
          obtain ⟨hnew, rfl⟩ := hstep
          exact h.mark hnew (.inl rfl)
      · cases hstep
  | record i =>
      simp only [Step, Provider.step] at hstep
      split at hstep
      · next f original hpublication =>
          obtain rfl := Option.some.inj hstep
          have hended := h.publication (i := i) (p := .ended) trivial
          refine ⟨hended.native, hended.once, fun e he => ?_, hended.publications⟩
          rcases mem_noted he with rfl | he
          · exact ⟨s.written f, h.native f, h.publications i _ hpublication⟩
          · exact h.tokens e he
      · cases hstep
  | release i =>
      simp only [Step, Provider.step] at hstep
      split at hstep
      · obtain rfl := Option.some.inj hstep
        have hended := h.publication (i := i) (p := .ended) trivial
        exact ⟨hended.native, hended.once, hended.tokens, hended.publications⟩
      · cases hstep
  | write f m =>
      simp only [Step, Provider.step, Option.ite_none_right_eq_some, Option.some.injEq] at hstep
      obtain ⟨hnew, rfl⟩ := hstep
      exact h.mark hnew (.inr (hcareful f m rfl))
  | place f log =>
      obtain rfl := Option.some.inj hstep
      exact ⟨h.native, h.once, h.tokens, h.publications⟩
  | read f token =>
      simp only [Step, Provider.step, Option.ite_none_right_eq_some, Option.some.injEq] at hstep
      obtain ⟨-, rfl⟩ := hstep
      exact h

/-! ## Whole runs -/

/-- What a step adds to what a file has had. -/
structure Grows (s : Provider) (e : Event) (s' : Provider) : Prop where
  had : ∀ {f m n}, s.Had f m n → s'.Had f m n
  written : ∀ f, s.written f ≤ s'.written f
  write : ∀ f m, e = .write f m → s.written f < s'.written f

/-- Marking a file lets its versions only grow. -/
theorem grows_mark {m : Mark} {n : Nat} (hn : s.written f ≤ n)
    (hwrite : ∀ g k, e = .write g k → g = f ∧ s.written f < n) : Grows s e (s.mark f m n) := by
  refine ⟨fun {g k l} hk => ?_, fun g => ?_, fun g k hk => ?_⟩
  · show (k, l) ∈ (if g = f then (m, n) :: s.given g else s.given g)
    split
    · exact List.mem_cons_of_mem _ hk
    · exact hk
  · show s.written g ≤ (if g = f then n else s.written g)
    split
    · next heq =>
        subst heq
        exact hn
    · exact le_rfl
  · obtain ⟨rfl, hlt⟩ := hwrite g k hk
    show s.written g < (if g = g then n else s.written g)
    rw [if_pos rfl]
    exact hlt

/-- Each step lets the versions of every file only grow. -/
theorem step_grows (hstep : Step s e s') : Grows s e s' := by
  have hsame : ∀ {t : Provider}, t.given = s.given → t.written = s.written →
      (∀ f m, e ≠ .write f m) → Grows s e t := by
    intro t hgiven hwritten hnot
    refine ⟨fun {f m n} h => ?_, fun f => (congrFun hwritten f).ge,
      fun f m h => absurd h (hnot f m)⟩
    show (m, n) ∈ t.given f
    rw [hgiven]
    exact h
  cases e with
  | embed i m =>
      simp only [Step, Provider.step] at hstep
      split at hstep
      · simp only [Option.ite_none_right_eq_some, Option.some.injEq] at hstep
        obtain ⟨-, rfl⟩ := hstep
        exact grows_mark le_rfl nofun
      · cases hstep
  | write f m =>
      simp only [Step, Provider.step, Option.ite_none_right_eq_some, Option.some.injEq] at hstep
      obtain ⟨-, rfl⟩ := hstep
      refine grows_mark (Nat.le_succ _) fun g k h => ?_
      cases h
      exact ⟨rfl, Nat.lt_succ_self _⟩
  | start | read =>
      simp only [Step, Provider.step, Option.ite_none_right_eq_some, Option.some.injEq] at hstep
      obtain ⟨-, rfl⟩ := hstep
      exact hsame rfl rfl nofun
  | check =>
      simp only [Step, Provider.step] at hstep
      split at hstep
      · simp only [Option.ite_none_right_eq_some, Option.some.injEq] at hstep
        obtain ⟨-, rfl⟩ := hstep
        exact hsame rfl rfl nofun
      · cases hstep
  | place =>
      obtain rfl := Option.some.inj hstep
      exact hsame rfl rfl nofun
  | abandon =>
      simp only [Step, Provider.step] at hstep
      split at hstep
      · obtain rfl := Option.some.inj hstep
        exact hsame rfl rfl nofun
      · obtain rfl := Option.some.inj hstep
        exact hsame rfl rfl nofun
      · cases hstep
  | lock | record | release =>
      simp only [Step, Provider.step] at hstep
      split at hstep
      · obtain rfl := Option.some.inj hstep
        exact hsame rfl rfl nofun
      · cases hstep

end Provider

/-- A step of a system whose other processes are careful. -/
def CarefulStep (s : Provider) (e : Event) (s' : Provider) : Prop := s.Step e s' ∧ Careful s e

open Provider

/-- Careful runs keep the provider sound, by induction on the run. -/
theorem sound_run {s s' : Provider} {events : List Event} (h : Run CarefulStep s events s')
    (hs : Sound s) : Sound s' :=
  h.invariant (I := Sound) (fun hs hstep => hs.step hstep.1 hstep.2) hs

/-- In a run versions stay known, their number never falls, and it rises where the file is written.
-/
theorem run_grows {s s' : Provider} {events : List Event} (h : Run CarefulStep s events s')
    (f : File) : (∀ m n, s.Had f m n → s'.Had f m n) ∧ s.written f ≤ s'.written f ∧
      ((∃ m, .write f m ∈ events) → s.written f < s'.written f) := by
  induction h with
  | nil => exact ⟨fun _ _ h => h, le_rfl, nofun⟩
  | @cons s t u e events hstep _ ih =>
      have hgrows := step_grows hstep.1
      obtain ⟨hhad, hwritten, hwrite⟩ := ih
      refine ⟨fun m n h => hhad m n (hgrows.had h), (hgrows.written f).trans hwritten, ?_⟩
      rintro ⟨m, hm⟩
      rcases List.mem_cons.1 hm with heq | hm
      · exact (hgrows.write f m heq.symm).trans_le hwritten
      · exact (hgrows.written f).trans_lt (hwrite ⟨m, hm⟩)

/-- Reading a token changes nothing, and gives the token of the moment. -/
theorem step_read {s s' : Provider} {f : File} {token : Bytes}
    (h : CarefulStep s (.read f token) s') : s' = s ∧ token = s.cacheChangeToken f := by
  have hstep := h.1
  simp only [Step, Provider.step, Option.ite_none_right_eq_some, Option.some.injEq] at hstep
  obtain ⟨⟨-, htoken⟩, rfl⟩ := hstep
  exact ⟨rfl, htoken⟩

/-- **Tokens never hide a write where others are careful.** In a run in which no other process
writes a file while a publication of it is between its last check and the note of its token, a file
that has the same token at two moments has not been written by another process between them. -/
theorem tokens_tell {s s' : Provider} {before between : List Event} {f : File} {token : Bytes}
    (hs : Initial s)
    (h : Run CarefulStep s (before ++ .read f token :: (between ++ [.read f token])) s') :
    ∀ m, .write f m ∉ between := by
  obtain ⟨t, hbefore, hrest⟩ := h.split
  obtain ⟨t', hfirst, hrest⟩ := hrest.uncons
  obtain ⟨u, hbetween, hlast⟩ := hrest.split
  obtain ⟨u', hsecond, -⟩ := hlast.uncons
  obtain ⟨rfl, htoken⟩ := step_read hfirst
  obtain ⟨-, htoken'⟩ := step_read hsecond
  have hsound := sound_run hbefore hs.sound
  have hsound' := sound_run hbetween hsound
  have hmark := tokenText_inj (htoken.symm.trans htoken')
  obtain ⟨hhad, -, hwrite⟩ := run_grows hbetween f
  have hnormal := hhad _ _ (hsound.normal (hsound.native f))
  have hnormal' := hsound'.normal (hsound'.native f)
  rw [hmark] at hnormal
  have hpair := List.inj_on_of_nodup_map (hsound'.once f) hnormal hnormal' rfl
  intro m hm
  exact absurd (Prod.mk.inj hpair).2 (hwrite ⟨m, hm⟩).ne

/-! ### An edit that is hidden -/

def sampleFile : File := [49]

/-- A mark of the sample. -/
def sampleMark (digit : UInt8) (h : digit ≤ 58) : Mark :=
  ⟨⟨[49, 58, digit], by
    intro b hb
    simp only [List.mem_cons, List.not_mem_nil, or_false] at hb
    rcases hb with rfl | rfl | rfl
    · decide
    · decide
    · exact h⟩, none⟩

def sample : Provider where
  native _ := sampleMark 48 (by decide)
  log _ := none
  tokens := []
  holder := none
  publications _ := none
  given _ := [(sampleMark 48 (by decide), 0)]
  written _ := 0

/-- The sample is a provider at its start. -/
theorem sample_initial : Initial sample := ⟨rfl, rfl, fun _ => rfl, fun _ => rfl⟩

/-- The token of the first mark of the sample. -/
def sampleToken : Bytes := sample.cacheChangeToken sampleFile

/-- A publication of the sample. -/
def publish : List Event :=
  [.start 0 sampleFile, .check 0, .lock 0, .embed 0 (sampleMark 49 (by decide)), .record 0]

/-- A publication of the sample with a write of another process behind its last check. -/
def overtaken : List Event :=
  [.start 0 sampleFile, .check 0, .write sampleFile (sampleMark 50 (by decide)), .lock 0,
    .embed 0 (sampleMark 49 (by decide)), .record 0]

/-- **A write that a token hides.** Another process writes between the last check of a publication
and the inspection that follows it; the token that was read before is read again. -/
theorem write_hidden :
    ¬ ∀ (s s' : Provider) (before between : List Event) (f : File) (token : Bytes), Initial s →
      Run Step s (before ++ .read f token :: (between ++ [.read f token])) s' →
        ∀ m, .write f m ∉ between := by
  intro h
  have hrun : ((Event.read sampleFile sampleToken ::
      (overtaken ++ [Event.read sampleFile sampleToken])).foldlM Provider.step sample).isSome := by
    decide +kernel
  obtain ⟨s', hrun⟩ := Run.of_isSome hrun
  exact h sample s' [] overtaken sampleFile sampleToken sample_initial hrun _
    (List.mem_cons_of_mem _ (List.mem_cons_of_mem _ List.mem_cons_self))

/-- A publication between two reads of one token, with no write of another process. -/
theorem tokens_tell_sample : ∃ s', Run CarefulStep sample
    ([] ++ Event.read sampleFile sampleToken ::
      (publish ++ [Event.read sampleFile sampleToken])) s' ∧
    ∀ m, .write sampleFile m ∉ publish := by
  have hrun : ((Event.read sampleFile sampleToken ::
      (publish ++ [Event.read sampleFile sampleToken])).foldlM Provider.step sample).isSome := by
    decide +kernel
  obtain ⟨s', hrun⟩ := Run.of_isSome hrun
  have hcareful : Run CarefulStep sample ([] ++ Event.read sampleFile sampleToken ::
      (publish ++ [Event.read sampleFile sampleToken])) s' := by
    refine hrun.imp fun {s e t} he hstep => ⟨hstep, ?_⟩
    intro f m hwrite
    subst hwrite
    simp [publish] at he
  exact ⟨s', hcareful, tokens_tell sample_initial hcareful⟩

end Tokens

end Presentation

end FileProvider
