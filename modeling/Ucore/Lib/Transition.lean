import Mathlib.Logic.Relation

/-!
# Runs of a transition relation

A run is the reflexive-transitive closure of a step relation.  The rules of this file package the
induction on runs: an invariant kept by every step holds in every state reached, and a step-wise
simulation gives a simulation of runs.

Where the steps carry labels, `Trace r a es b` is a run with the labels `es`.  An abstraction that
follows each label follows the whole trace (`Trace.foldl`).
-/

namespace Ucore.Transition

open Relation

variable {σ τ : Type*} {r : σ → σ → Prop} {q : τ → τ → Prop}

/-- **Invariant rule.** -/
theorem invariant {P : σ → Prop} (hstep : ∀ a b, P a → r a b → P b) {a b : σ}
    (h : ReflTransGen r a b) (ha : P a) : P b := by
  induction h with
  | refl => exact ha
  | tail _ hbc ih => exact hstep _ _ ih hbc

/-- **Simulation rule.**  Related states stay related along a run of the first system and some run
of the second. -/
theorem simulation {R : σ → τ → Prop}
    (hstep : ∀ a b x, R a x → r a b → ∃ y, ReflTransGen q x y ∧ R b y) {a b : σ} {x : τ}
    (h : ReflTransGen r a b) (hR : R a x) : ∃ y, ReflTransGen q x y ∧ R b y := by
  induction h with
  | refl => exact ⟨x, .refl, hR⟩
  | tail _ hbc ih =>
    obtain ⟨y, hxy, hy⟩ := ih
    obtain ⟨z, hyz, hz⟩ := hstep _ _ _ hy hbc
    exact ⟨z, hxy.trans hyz, hz⟩

variable {ε : Type*} {l : σ → ε → σ → Prop}

/-- A run with its labels. -/
inductive Trace (l : σ → ε → σ → Prop) (a : σ) : List ε → σ → Prop
  | nil : Trace l a [] a
  | snoc {b c : σ} {es : List ε} {e : ε} (h : Trace l a es b) (hstep : l b e c) :
      Trace l a (es ++ [e]) c

/-- The last step of a trace. -/
theorem Trace.snoc_inv {a c : σ} {es : List ε} {e : ε} (h : Trace l a (es ++ [e]) c) :
    ∃ b, Trace l a es b ∧ l b e c := by
  generalize hfs : es ++ [e] = fs at h
  cases h with
  | nil => simp at hfs
  | @snoc b _ es' e' h hstep =>
    obtain ⟨rfl, heq⟩ := List.append_inj' hfs rfl
    cases heq
    exact ⟨b, h, hstep⟩

/-- A step before a trace. -/
theorem Trace.cons {a b c : σ} {e : ε} {es : List ε} (hstep : l a e b) (h : Trace l b es c) :
    Trace l a (e :: es) c := by
  induction h with
  | nil => exact Trace.nil.snoc hstep
  | snoc _ hlast ih => exact ih.snoc hlast

theorem Trace.reflTransGen {a b : σ} {es : List ε} (h : Trace l a es b) :
    ReflTransGen (fun a b => ∃ e, l a e b) a b := by
  induction h with
  | nil => exact .refl
  | snoc _ hlast ih => exact ih.tail ⟨_, hlast⟩

/-- **Labelled simulation rule.**  While `P` holds, the view `v` of the state does what the label
says; so it does along a trace. -/
theorem Trace.foldl {P : σ → Prop} {v : σ → τ} {f : τ → ε → τ}
    (hstep : ∀ a e b, P a → l a e b → P b ∧ v b = f (v a) e) {a b : σ} {es : List ε}
    (h : Trace l a es b) (ha : P a) : P b ∧ v b = es.foldl f (v a) := by
  induction h with
  | nil => exact ⟨ha, rfl⟩
  | snoc _ hbc ih =>
    obtain ⟨hb, hv⟩ := ih
    obtain ⟨hc, hv'⟩ := hstep _ _ _ hb hbc
    refine ⟨hc, ?_⟩
    rw [hv', hv, List.foldl_append]
    rfl

/-- **Projection of a trace.**  While `P` holds, a step does to the view `v` what the label of the
other system says, or nothing where it has none. -/
theorem Trace.project {δ : Type*} {P : σ → Prop} {v : σ → τ} {f : ε → Option δ} {m : τ → δ → τ → Prop}
    (hstep : ∀ a e b, P a → l a e b →
      P b ∧ (f e = none ∧ v b = v a ∨ ∃ d, f e = some d ∧ m (v a) d (v b))) {a b : σ} {es : List ε}
    (h : Trace l a es b) (ha : P a) : P b ∧ Trace m (v a) (es.filterMap f) (v b) := by
  induction h with
  | nil => exact ⟨ha, .nil⟩
  | snoc _ hbc ih =>
    obtain ⟨hb, hm⟩ := ih
    obtain ⟨hc, hstep⟩ := hstep _ _ _ hb hbc
    refine ⟨hc, ?_⟩
    rw [List.filterMap_append]
    rcases hstep with ⟨hnone, hsame⟩ | ⟨d, hd, hstep⟩
    · rw [List.filterMap_cons_none hnone, hsame, List.filterMap_nil, List.append_nil]
      exact hm
    · rw [List.filterMap_cons_some hd]
      exact hm.snoc hstep

end Ucore.Transition
