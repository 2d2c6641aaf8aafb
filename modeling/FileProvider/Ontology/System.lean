import FileProvider.Object.Concurrency
import FileProvider.Ontology.Apply

/-!
# Stores and semantic filesystems on one package

Any number of stores and semantic filesystems work on one package through connections of their
own. A batch of a semantic filesystem is one transaction; a call of a store starts and finishes.
What fails leaves the tables as they are. `clock` says what the clock of the system can show.

A step of a store is one of `Object.System`, with the ontology left as it is; a batch that fails is
no step. So what is known of packages holds of workspaces, by `run_of_package` and its converse for
one step.
-/

namespace FileProvider

/-- A package with its ontology, and the calls of stores that have started on it. -/
structure Workspace where
  package : Package
  ontology : OntologyTables

namespace Workspace

/-- A freshly created package. -/
def fresh (container : Bytes) : Workspace := ⟨.fresh container, .empty⟩

/-- What a step shows to the outside. -/
inductive Event where
  | store (e : Package.Event)
  | apply (changes : List OntologyChange) (session : Bytes) (revision : Nat)

/-- One step of the stores and the semantic filesystems. -/
inductive Step (P : Platform) (clock : Int → Prop) : Workspace → Event → Workspace → Prop where
  | start {σ τ : Package} {o : OntologyTables} {call : Call} :
      Package.Step P σ (.start call) τ →
      Step P clock ⟨σ, o⟩ (.store (.start call)) ⟨τ, o⟩
  | commit {db db' : ObjectTables} {l r : List Started} {c : Started} {draws : Draws}
      {response : Response} {o : OntologyTables} :
      (∀ i, clock (draws.now i)) →
      c.call.run P c.store c.before db draws = .ok (response, db') →
      Step P clock ⟨⟨db, l ++ c :: r⟩, o⟩ (.store (.commit c.call response))
        ⟨⟨db', l ++ r⟩, o⟩
  | fail {σ τ : Package} {o : OntologyTables} {call : Call} :
      Package.Step P σ (.fail call) τ →
      Step P clock ⟨σ, o⟩ (.store (.fail call)) ⟨τ, o⟩
  | apply {σ : Package} {o o' : OntologyTables} {m : OntologyImpl}
      {changes : List OntologyChange} {expected revision : Nat} {session : Bytes}
      {cancellation : StopToken} {now : Int} : m.Opens σ.tables → clock now →
      OntologyFileSystem.apply P.json σ.tables m o changes expected session cancellation now
        = .ok (revision, o') →
      Step P clock ⟨σ, o⟩ (.apply changes session revision) ⟨σ, o'⟩

variable {P : Platform} {clock : Int → Prop} {w w' : Workspace} {e : Event} {container : Bytes}
  {events : List Event}

/-- What the stores do in a workspace they do on its package, or they do nothing. -/
theorem Step.package (h : Step P clock w e w') :
    (∃ e', e = .store e' ∧ Package.Step P w.package e' w'.package) ∨
      w'.package = w.package := by
  cases h with
  | start h => exact .inl ⟨_, rfl, h⟩
  | commit _ hrun => exact .inl ⟨_, rfl, .commit hrun⟩
  | fail h => exact .inl ⟨_, rfl, h⟩
  | apply _ _ _ => exact .inr rfl

/-- What the stores do on a package is a run of a workspace. -/
theorem run_of_package {σ τ : Package} {steps : List Package.Event}
    (h : Run (Package.Step P) σ steps τ) (o : OntologyTables) :
    Run (Step P fun _ => True) ⟨σ, o⟩ (steps.map .store) ⟨τ, o⟩ := by
  induction h with
  | nil σ => exact .nil _
  | cons hstep _ ih =>
      refine .cons ?_ ih
      cases hstep with
      | start m call hm => exact .start (.start m call hm)
      | commit hrun => exact .commit (fun _ => trivial) hrun
      | fail => exact .fail (.fail ..)

/-- One step of a workspace keeps its package sound and extends it. -/
theorem Step.keeps (h : Step P clock w e w') (hs : Package.Sound P container w.package) :
    Package.Sound P container w'.package ∧ Extends w.package.tables w'.package.tables := by
  rcases h.package with ⟨e', -, hstep⟩ | hsame
  · exact hstep.keeps hs
  · rw [hsame]
    exact ⟨hs, .refl _⟩

/-- The package of every reachable workspace is sound. -/
theorem sound_of_run (h : Run (Step P clock) (fresh container) events w) :
    Package.Sound P container w.package :=
  h.invariant (I := fun w => Package.Sound P container w.package)
    (fun hs hstep => (hstep.keeps hs).1) (Package.sound_fresh P container)

end Workspace

end FileProvider
