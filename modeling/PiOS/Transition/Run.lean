import Mathlib.Data.List.Basic

namespace PiOS.Transition

variable {σ α : Type*}

def run (step : σ → α → Option σ) : σ → List α → Option σ
  | s, [] => some s
  | s, a :: as => (step s a).bind fun s' => run step s' as

def Throughout (step : σ → α → Option σ) (P : σ → Prop) : σ → List α → Prop
  | s, [] => P s
  | s, a :: as => P s ∧ ∀ s', step s a = some s' → Throughout step P s' as

/-- Every action that is taken is taken from a state in which `G` allows it. -/
def Guarded (step : σ → α → Option σ) (G : σ → α → Prop) : σ → List α → Prop
  | _, [] => True
  | s, a :: as => ∀ s', step s a = some s' → G s a ∧ Guarded step G s' as

def watch {ω : Type*} (step : σ → α → Option σ) (note : ω → σ → α → σ → ω) (w : σ × ω) (a : α) :
    Option (σ × ω) :=
  (step w.1 a).map fun s' => (s', note w.2 w.1 a s')

variable {step : σ → α → Option σ}

variable {a : α} {s s' : σ} {I P : σ → Prop} {as : List α}

theorem watch_eq_some {ω : Type*} {note : ω → σ → α → σ → ω} {w w' : σ × ω} (watched : watch step note w a = some w') :
    step w.1 a = some w'.1 ∧ w'.2 = note w.2 w.1 a w'.1 := by
  obtain ⟨s', taken, rfl⟩ := Option.map_eq_some_iff.mp watched
  exact ⟨taken, rfl⟩

theorem watch_of_step {ω : Type*} (note : ω → σ → α → σ → ω) (record : ω)
    (taken : step s a = some s') : watch step note (s, record) a = some (s', note record s a s') :=
  Option.map_eq_some_iff.mpr ⟨s', taken, rfl⟩

instance decidableGuarded {G : σ → α → Prop} [∀ s a, Decidable (G s a)] :
    (s : σ) → (as : List α) → Decidable (Guarded step G s as)
  | _, [] => isTrue trivial
  | s, a :: as =>
    match taken : step s a with
    | none => isTrue fun s' other => by rw [taken] at other; cases other
    | some s' =>
      have : Decidable (Guarded step G s' as) := decidableGuarded s' as
      decidable_of_iff (G s a ∧ Guarded step G s' as)
        ⟨fun h _ other => Option.some.inj (taken.symm.trans other) ▸ h, fun h => h s' taken⟩

@[simp] theorem run_nil (s : σ) : run step s [] = some s := rfl

theorem run_cons (s : σ) (a : α) (as : List α) :
    run step s (a :: as) = (step s a).bind fun s' => run step s' as := rfl

theorem run_replicate_unique {n m : Nat} {s'' : σ} (first : run step s (List.replicate n a) = some s')
    (stopped : step s' a = none) (second : run step s (List.replicate m a) = some s'') (stopped' : step s'' a = none) :
    s' = s'' := by
  induction n generalizing s m with
  | zero =>
    cases first
    cases m with
    | zero =>
      cases second
      rfl
    | succ m =>
      rw [List.replicate_succ, run_cons, stopped] at second
      cases second
  | succ n ih =>
    rw [List.replicate_succ, run_cons] at first
    cases m with
    | zero =>
      cases second
      rw [stopped'] at first
      cases first
    | succ m =>
      rw [List.replicate_succ, run_cons] at second
      obtain ⟨t, taken, rest⟩ := Option.bind_eq_some_iff.mp first
      rw [taken, Option.bind_some] at second
      exact ih rest second

theorem run_append (s : σ) (as bs : List α) :
    run step s (as ++ bs) = (run step s as).bind fun s' => run step s' bs := by
  induction as generalizing s with
  | nil => rfl
  | cons a as ih =>
    simp only [List.cons_append, run_cons, Option.bind_assoc]
    congr 1
    funext s'
    exact ih s'

theorem run_invariant (keep : ∀ s a s', I s → step s a = some s' → I s')
    (initial : I s) (action : run step s as = some s') : I s' := by
  induction as generalizing s with
  | nil =>
    simp only [run_nil, Option.some.injEq] at action
    exact action ▸ initial
  | cons a as ih =>
    obtain ⟨next, first, rest⟩ := Option.bind_eq_some_iff.mp action
    exact ih (keep s a next initial first) rest

theorem throughout_head (h : Throughout step P s as) : P s := by
  cases as with
  | nil => exact h
  | cons a as => exact h.1

theorem throughout_iff : Throughout step P s as ↔ ∀ bs, bs <+: as → ∀ s', run step s bs = some s' → P s' := by
  induction as generalizing s with
  | nil => simp [Throughout, run]
  | cons a as ih =>
    constructor
    · rintro ⟨now, later⟩ bs isPrefix s' action
      cases bs with
      | nil => exact Option.some.inj action ▸ now
      | cons b bs =>
        obtain ⟨rfl, shorter⟩ := List.cons_prefix_cons.mp isPrefix
        obtain ⟨next, first, rest⟩ := Option.bind_eq_some_iff.mp action
        exact ih.mp (later next first) bs shorter s' rest
    · intro all
      refine ⟨all [] (by simp) s rfl, fun next first => ih.mpr fun bs isPrefix s' rest => ?_⟩
      refine all (a :: bs) (List.cons_prefix_cons.mpr ⟨rfl, isPrefix⟩) s' ?_
      simpa [run_cons, first] using rest

theorem throughout_mono {Q : σ → Prop} (weaken : ∀ s, P s → Q s)
    (h : Throughout step P s as) : Throughout step Q s as := by
  induction as generalizing s with
  | nil => exact weaken s h
  | cons a as ih => exact ⟨weaken s h.1, fun next first => ih (h.2 next first)⟩

theorem throughout_of_guarded {G : σ → α → Prop} (keep : ∀ s a s', I s → G s a → step s a = some s' → I s')
    (initial : I s) (guarded : Guarded step G s as) : Throughout step I s as := by
  induction as generalizing s with
  | nil => exact initial
  | cons a as ih =>
    refine ⟨initial, fun next first => ?_⟩
    obtain ⟨allowed, rest⟩ := guarded next first
    exact ih (keep s a next initial allowed first) rest

theorem throughout_invariant (keep : ∀ s a s', I s → step s a = some s' → I s')
    (initial : I s) : Throughout step I s as := by
  induction as generalizing s with
  | nil => exact initial
  | cons a as ih => exact ⟨initial, fun next first => ih (keep s a next initial first)⟩

theorem throughout_iff_guarded {G : σ → α → Prop} (holds : ∀ s, I s → P s)
    (keep : ∀ s a s', I s → G s a → step s a = some s' → I s')
    (fail : ∀ s a s', I s → ¬ G s a → step s a = some s' → ¬ P s')
    (initial : I s) : Throughout step P s as ↔ Guarded step G s as := by
  constructor
  · intro safe
    induction as generalizing s with
    | nil => trivial
    | cons a as ih =>
      intro next first
      have allowed : G s a := by
        by_contra refused
        exact fail s a next initial refused first (throughout_head (safe.2 next first))
      exact ⟨allowed, ih (keep s a next initial allowed first) (safe.2 next first)⟩
  · intro guarded
    exact throughout_mono holds (throughout_of_guarded keep initial guarded)

end PiOS.Transition
