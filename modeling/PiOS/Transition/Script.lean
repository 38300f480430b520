import Mathlib.Logic.Function.Basic
import PiOS.Transition.Run

namespace PiOS.Transition
open Function

universe u v w

variable {Op : Type u} {ρ : Type v}

/-- A program that performs operations, goes on with their answers and ends with a result. -/
inductive Script (Ans : Op → Type w) (ρ : Type v)
  | op (o : Op) (next : Ans o → Script Ans ρ)
  | done (result : ρ)

variable {Ans : Op → Type w} {ι σ τ : Type*}

def Script.exec (handle : (o : Op) → τ → Ans o × τ) : Script Ans ρ → τ → ρ × τ
  | .done result, a => (result, a)
  | .op o next, a => (next (handle o a).1).exec handle (handle o a).2

/-- The script performs only operations that are ready, and ends with `post`. -/
def Script.Meets (handle : (o : Op) → τ → Ans o × τ) (ready : Op → τ → Prop) (post : ρ → τ → Prop) :
    Script Ans ρ → τ → Prop
  | .done result, a => post result a
  | .op o next, a => ready o a ∧ (next (handle o a).1).Meets handle ready post (handle o a).2

def Script.Ends (serve : σ → (o : Op) → Option (Ans o × σ)) : Script Ans ρ → σ → ρ → σ → Prop
  | .done result, s, result', s' => result = result' ∧ s = s'
  | .op o next, s, result', s' => ∃ out, serve s o = some out ∧ (next out.1).Ends serve out.2 result' s'

def Script.play (serve : σ → (o : Op) → Option (Ans o × σ)) : Script Ans ρ → σ → Option (ρ × σ)
  | .done result, s => some (result, s)
  | .op o next, s => (serve s o).bind fun out => (next out.1).play serve out.2

theorem Script.play_eq_some {serve : σ → (o : Op) → Option (Ans o × σ)} {script : Script Ans ρ} {s s' : σ} {result : ρ} :
    script.play serve s = some (result, s') ↔ script.Ends serve s result s' := by
  induction script generalizing s with
  | done result' => simp only [Script.play, Script.Ends, Option.some.injEq, Prod.mk.injEq]
  | op o next ih => simp only [Script.play, Script.Ends, Option.bind_eq_some_iff, ih]

def logging {β : Type*} (log : Op → τ → List β) (handle : (o : Op) → τ → Ans o × τ) (o : Op)
    (a : τ × List β) : Ans o × (τ × List β) :=
  ((handle o a.1).1, (handle o a.1).2, a.2 ++ log o a.1)

structure Weave (ι σ : Type*) (Ans : Op → Type w) (ρ : Type v) where
  shared : σ
  script : ι → Script Ans ρ

def weaveStep [DecidableEq ι] (serve : σ → ι → (o : Op) → Option (Ans o × σ)) (s : Weave ι σ Ans ρ) (i : ι) :
    Option (Weave ι σ Ans ρ) :=
  match s.script i with
  | .done _ => none
  | .op o next => (serve s.shared i o).map fun out => ⟨out.2, update s.script i (next out.1)⟩

def AtOp (G : σ → ι → Op → Prop) (s : Weave ι σ Ans ρ) (i : ι) : Prop :=
  ∀ o next, s.script i = .op o next → G s.shared i o

instance decidableAtOp {G : σ → ι → Op → Prop} [∀ s i o, Decidable (G s i o)] (s : Weave ι σ Ans ρ) (i : ι) :
    Decidable (AtOp G s i) :=
  match here : s.script i with
  | .done _ => isTrue fun o next other => by rw [here] at other; cases other
  | .op o _ => decidable_of_iff (G s.shared i o)
    ⟨fun holds o' next other => by rw [here] at other; cases other; exact holds, fun all => all o _ here⟩

variable [DecidableEq ι] {serve : σ → ι → (o : Op) → Option (Ans o × σ)}

theorem weaveStep_cases {s s' : Weave ι σ Ans ρ} {i : ι} (taken : weaveStep serve s i = some s') :
    ∃ o next out, s.script i = .op o next ∧ serve s.shared i o = some out ∧
      s' = ⟨out.2, update s.script i (next out.1)⟩ := by
  unfold weaveStep at taken
  split at taken
  · cases taken
  · rename_i o next here
    obtain ⟨out, served, rfl⟩ := Option.map_eq_some_iff.mp taken
    exact ⟨o, next, out, here, served, rfl⟩

theorem Script.ends_iff_run {script : Script Ans ρ} {w : Weave ι σ Ans ρ} {i : ι} (here : w.script i = script)
    {result : ρ} {s' : σ} : script.Ends (fun s o => serve s i o) w.shared result s' ↔
      ∃ n w', run (weaveStep serve) w (List.replicate n i) = some w' ∧ w'.script i = .done result ∧ w'.shared = s' := by
  induction script generalizing w with
  | done result' =>
    constructor
    · rintro ⟨rfl, rfl⟩
      exact ⟨0, w, rfl, here, rfl⟩
    · rintro ⟨n, w', reached, ended, rfl⟩
      cases n with
      | zero =>
        cases reached
        rw [here, Script.done.injEq] at ended
        exact ⟨ended, rfl⟩
      | succ n =>
        rw [List.replicate_succ, run_cons, weaveStep, here] at reached
        cases reached
  | op o next ih =>
    have later (out : Ans o × σ) := ih out.1 (w := ⟨out.2, update w.script i (next out.1)⟩)
      (update_self _ _ _)
    constructor
    · rintro ⟨out, served, rest⟩
      obtain ⟨n, w', reached, ended⟩ := (later out).mp rest
      have first : weaveStep serve w i = some ⟨out.2, update w.script i (next out.1)⟩ := by
        simp only [weaveStep, here, served, Option.map_some]
      refine ⟨n + 1, w', ?_, ended⟩
      rw [List.replicate_succ, run_cons, first]
      exact reached
    · rintro ⟨n, w', reached, ended, same⟩
      cases n with
      | zero =>
        cases reached
        rw [here] at ended
        cases ended
      | succ n =>
        rw [List.replicate_succ, run_cons] at reached
        obtain ⟨w₁, first, reached⟩ := Option.bind_eq_some_iff.mp reached
        rw [weaveStep, here] at first
        obtain ⟨out, served, rfl⟩ := Option.map_eq_some_iff.mp first
        exact ⟨out, served, (later out).mpr ⟨n, w', reached, ended, same⟩⟩

section Alone

variable {handle : (o : Op) → τ → Ans o × τ} {I : σ → Prop} {Agrees : σ → ι → τ → Prop}
  {G : σ → ι → Op → Prop}

structure Separates (handle : (o : Op) → τ → Ans o × τ)
    (serve : σ → ι → (o : Op) → Option (Ans o × σ)) (I : σ → Prop) (Agrees : σ → ι → τ → Prop)
    (G : σ → ι → Op → Prop) : Prop where
  keeps : ∀ s i o out, I s → G s i o → serve s i o = some out → I out.2
  own : ∀ s i o out a, I s → G s i o → serve s i o = some out → Agrees s i a →
    (handle o a).1 = out.1 ∧ Agrees out.2 i (handle o a).2
  others : ∀ s i o out j a, I s → G s i o → serve s i o = some out → j ≠ i → Agrees s j a → Agrees out.2 j a

def OnCourse (handle : (o : Op) → τ → Ans o × τ) (Agrees : σ → ι → τ → Prop)
    (results : ι → ρ × τ) (s : Weave ι σ Ans ρ) : Prop :=
  ∀ i, ∃ a, Agrees s.shared i a ∧ (s.script i).exec handle a = results i

variable {results : ι → ρ × τ} {s : Weave ι σ Ans ρ}

theorem onCourse_step (separates : Separates handle serve I Agrees G)
    {s' : Weave ι σ Ans ρ} {i : ι} (inv : I s.shared) (course : OnCourse handle Agrees results s)
    (allowed : AtOp G s i) (taken : weaveStep serve s i = some s') :
    I s'.shared ∧ OnCourse handle Agrees results s' := by
  obtain ⟨o, next, out, here, served, rfl⟩ := weaveStep_cases taken
  have guard := allowed o next here
  refine ⟨separates.keeps _ _ _ _ inv guard served, ?_⟩
  intro j
  obtain ⟨a, agrees, result⟩ := course j
  by_cases own : j = i
  · subst own
    obtain ⟨answer, after⟩ := separates.own _ _ _ _ a inv guard served agrees
    refine ⟨_, after, ?_⟩
    rw [here] at result
    simp only [update_self]
    rw [← answer]
    exact result
  · refine ⟨a, separates.others _ _ _ _ _ a inv guard served own agrees, ?_⟩
    simpa only [update_of_ne own] using result

theorem onCourse_of_guarded (separates : Separates handle serve I Agrees G)
    (inv : I s.shared) (course : OnCourse handle Agrees results s) {schedule : List ι}
    (guarded : Guarded (weaveStep serve) (AtOp G) s schedule) :
    Throughout (weaveStep serve) (OnCourse handle Agrees results) s schedule := by
  have both := throughout_of_guarded
    (I := fun s => I s.shared ∧ OnCourse handle Agrees results s) (G := AtOp G)
    (fun s i s' kept allowed taken => onCourse_step separates kept.1 kept.2 allowed taken)
    ⟨inv, course⟩ guarded
  exact throughout_mono (fun _ kept => kept.2) both

omit [DecidableEq ι] in
theorem OnCourse.result
    (course : OnCourse handle Agrees results s) {i : ι} {result : ρ} (ended : s.script i = .done result) :
    (results i).1 = result ∧ Agrees s.shared i (results i).2 := by
  obtain ⟨a, agrees, equal⟩ := course i
  rw [ended] at equal
  rw [← equal]
  exact ⟨rfl, agrees⟩

end Alone

section Solo

variable {ω : Type*}

def noteOp (note : ω → σ → ι → Op → ω) (record : ω) (s : Weave ι σ Ans ρ) (i : ι) (_ : Weave ι σ Ans ρ) : ω :=
  match s.script i with
  | .done _ => record
  | .op o _ => note record s.shared i o

variable {handle : (o : Op) → τ → Ans o × τ} {ready : Op → τ → Prop} {post : ρ → τ → Prop}
  {note : ω → σ → ι → Op → ω} {J : σ → ω → τ → Prop} {i : ι}

theorem Script.Meets.runs (progress : ∀ s record a o, J s record a → ready o a →
      ∃ out, serve s i o = some out ∧ out.1 = (handle o a).1 ∧ J out.2 (note record s i o) (handle o a).2)
    {script : Script Ans ρ} {a : τ} (meets : script.Meets handle ready post a) {w : Weave ι σ Ans ρ} {record : ω}
    (here : w.script i = script) (holds : J w.shared record a) :
    ∃ n w', run (watch (weaveStep serve) (noteOp note)) (w, record) (List.replicate n i) = some w' ∧
      ∃ result a', w'.1.script i = .done result ∧ J w'.1.shared w'.2 a' ∧ post result a' := by
  induction script generalizing a w record with
  | done result => exact ⟨0, (w, record), rfl, result, a, here, holds, meets⟩
  | op o next ih =>
    obtain ⟨out, served, answer, kept⟩ := progress w.shared record a o holds meets.1
    have rest := meets.2
    rw [← answer] at rest
    obtain ⟨n, w', reached, ended⟩ := ih out.1 rest (w := ⟨out.2, update w.script i (next out.1)⟩)
      (update_self _ _ _) kept
    refine ⟨n + 1, w', ?_, ended⟩
    have first : watch (weaveStep serve) (noteOp note) (w, record) i =
        some (⟨out.2, update w.script i (next out.1)⟩, note record w.shared i o) := by
      simp only [watch, weaveStep, noteOp, here, served, Option.map_some]
    rw [List.replicate_succ, run_cons, first]
    exact reached

end Solo

end PiOS.Transition
