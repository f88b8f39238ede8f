import Mathlib.Data.List.Infix
import Mathlib.Data.Option.Basic

/-!
# Guarded event systems

A deterministic system that reacts to events one at a time.  An event that
cannot happen in a state has no successor, so a list of events is a run exactly
when every one of its steps is defined.  Properties are stated about all states
(`Always`) or all steps (`EveryStep`) along the prefixes of one run; the rules
below relate the two and reduce both to one obligation for a single step.
-/

/-- An initial state and, for every state and event, the next state; `none`
when the event cannot happen there. -/
structure EventSystem (σ ε : Type) where
  init : σ
  step : σ → ε → Option σ

namespace EventSystem

variable {σ ε : Type} (M : EventSystem σ ε)

/-- The state after a list of events, if each of them could happen. -/
def run (events : List ε) : Option σ := events.foldlM M.step M.init

def Reaches (events : List ε) (s : σ) : Prop := M.run events = some s

def Reachable (s : σ) : Prop := ∃ events, M.Reaches events s

/-- `P` holds in every state that the run passes through, the first and the
last included. -/
def Always (P : σ → Prop) (events : List ε) : Prop :=
  ∀ before s, before <+: events → M.Reaches before s → P s

/-- `Q` holds of every step of the run: the state before it, the event and the
state after it. -/
def EveryStep (Q : σ → ε → σ → Prop) (events : List ε) : Prop :=
  ∀ before e s s', before ++ [e] <+: events → M.Reaches before s →
    M.step s e = some s' → Q s e s'

/-- Once a step of the run has met `Q`, `P` holds in every state from then on. -/
def After (Q : σ → ε → σ → Prop) (P : σ → Prop) (events : List ε) : Prop :=
  ∀ before e after s s' t, before ++ e :: after <+: events → M.Reaches before s →
    M.step s e = some s' → Q s e s' → M.Reaches (before ++ e :: after) t → P t

/-- Some step of the run met `Q`, and none from there on has met `R`. -/
def Outstanding (Q R : σ → ε → Prop) (events : List ε) : Prop :=
  ∃ before e after s, events = before ++ e :: after ∧ M.Reaches before s ∧ Q s e ∧
    ∀ past e' u, before <+: past → past ++ [e'] <+: events → M.Reaches past u → ¬ R u e'

variable {M}

@[simp] theorem reaches_nil {s : σ} : M.Reaches [] s ↔ s = M.init := by
  simp only [Reaches, run, List.foldlM_nil]
  exact ⟨fun h => (Option.some.inj h).symm, fun h => h ▸ rfl⟩

theorem reaches_concat {events : List ε} {e : ε} {s' : σ} :
    M.Reaches (events ++ [e]) s' ↔ ∃ s, M.Reaches events s ∧ M.step s e = some s' := by
  simp only [Reaches, run, List.foldlM_append, List.foldlM_cons, List.foldlM_nil]
  simp [Option.bind_eq_some_iff]

/-- Induction over a run from its end, for facts that relate the state to the
events so far. -/
theorem reaches_induction {motive : List ε → σ → Prop} (init : motive [] M.init)
    (step : ∀ events s e s', M.Reaches events s → motive events s →
      M.step s e = some s' → motive (events ++ [e]) s')
    {events : List ε} {s : σ} (run : M.Reaches events s) : motive events s := by
  induction events using List.reverseRecOn generalizing s with
  | nil => rw [reaches_nil] at run; exact run ▸ init
  | append_singleton events e ih =>
    obtain ⟨t, reached, taken⟩ := reaches_concat.mp run
    exact step events t e s reached (ih reached) taken

/-- The invariant rule. -/
theorem Reachable.invariant {I : σ → Prop} {s : σ} (reachable : M.Reachable s)
    (init : I M.init) (step : ∀ s e s', I s → M.step s e = some s' → I s') : I s := by
  obtain ⟨events, run⟩ := reachable
  exact reaches_induction (motive := fun _ s => I s) init
    (fun _ s e s' _ holds taken => step s e s' holds taken) run

theorem Reachable.step {s s' : σ} {e : ε} (reachable : M.Reachable s)
    (taken : M.step s e = some s') : M.Reachable s' := by
  obtain ⟨events, run⟩ := reachable
  exact ⟨events ++ [e], reaches_concat.mpr ⟨s, run, taken⟩⟩

/-- Two state properties that agree in every reachable state hold along the
same runs. -/
theorem always_congr {P Q : σ → Prop} (same : ∀ s, M.Reachable s → (P s ↔ Q s))
    (events : List ε) : M.Always P events ↔ M.Always Q events := by
  constructor
  · intro h before s pre run
    exact (same s ⟨before, run⟩).mp (h before s pre run)
  · intro h before s pre run
    exact (same s ⟨before, run⟩).mpr (h before s pre run)

/-- Two step properties that agree on every step of a run hold along it
together. -/
theorem everyStep_congr {Q R : σ → ε → σ → Prop} {events : List ε}
    (same : ∀ before e s s', before ++ [e] <+: events → M.Reaches before s →
      M.step s e = some s' → (Q s e s' ↔ R s e s')) :
    M.EveryStep Q events ↔ M.EveryStep R events := by
  constructor
  · intro h before e s s' pre run taken
    exact (same before e s s' pre run taken).mp (h before e s s' pre run taken)
  · intro h before e s s' pre run taken
    exact (same before e s s' pre run taken).mpr (h before e s s' pre run taken)

theorem EveryStep.and {Q R : σ → ε → σ → Prop} {events : List ε} :
    M.EveryStep (fun s e s' => Q s e s' ∧ R s e s') events ↔
      M.EveryStep Q events ∧ M.EveryStep R events := by
  constructor
  · intro h
    exact ⟨fun before e s s' pre run taken => (h before e s s' pre run taken).1,
      fun before e s s' pre run taken => (h before e s s' pre run taken).2⟩
  · rintro ⟨hQ, hR⟩ before e s s' pre run taken
    exact ⟨hQ before e s s' pre run taken, hR before e s s' pre run taken⟩

/-- What is known of all events of a run is known of its steps. -/
theorem everyStep_of_forall_mem {Q : ε → Prop} {events : List ε} (each : ∀ e ∈ events, Q e) :
    M.EveryStep (fun _ e _ => Q e) events := by
  intro before e _ _ pre _ _
  exact each e (pre.subset (by simp))

/-- What holds along a run holds before and after each of its steps. -/
theorem Always.everyStep {P : σ → Prop} {events : List ε} (h : M.Always P events) :
    M.EveryStep (fun s _ s' => P s ∧ P s') events := by
  intro before e s s' pre run taken
  have within : before <+: events := (List.prefix_append before [e]).trans pre
  exact ⟨h before s within run, h _ s' pre (reaches_concat.mpr ⟨s, run, taken⟩)⟩

/-- The invariant rule for one run, whose steps all meet `Q`. -/
theorem EveryStep.always {J : σ → Prop} {Q : σ → ε → σ → Prop} {events : List ε}
    (h : M.EveryStep Q events) (init : J M.init)
    (step : ∀ s e s', M.Reachable s → J s → M.step s e = some s' → Q s e s' → J s') :
    M.Always J events := by
  intro before s pre run
  refine reaches_induction (motive := fun past s => past <+: events → J s) (fun _ => init) ?_
    run pre
  intro past s e s' reached ih taken within
  have holds : J s := ih ((List.prefix_append past [e]).trans within)
  exact step s e s' ⟨past, reached⟩ holds taken (h past e s s' within reached taken)

/-- When a state property survives a step exactly if the step meets `Q`, it
holds along a run exactly if every step of the run meets `Q`.  `J` is whatever
else stays true while the property does, and `R` is known of the steps of the run. -/
theorem EveryStep.always_iff {P J : σ → Prop} {Q R : σ → ε → σ → Prop} {events : List ε}
    (known : M.EveryStep R events) (init : P M.init) (start : J M.init)
    (keep : ∀ s e s', M.Reachable s → J s → M.step s e = some s' → R s e s' → P s → P s' → J s')
    (step : ∀ s e s', M.Reachable s → P s → J s → M.step s e = some s' → R s e s' →
      (P s' ↔ Q s e s')) : M.Always P events ↔ M.EveryStep Q events := by
  constructor
  · intro h
    have also : M.Always J events := by
      refine (EveryStep.and.mpr ⟨known, h.everyStep⟩).always start ?_
      intro s e s' reachable holds taken met
      exact keep s e s' reachable holds taken met.1 met.2.1 met.2.2
    intro before e s s' pre run taken
    have both := h.everyStep before e s s' pre run taken
    have holds := also.everyStep before e s s' pre run taken
    have met := known before e s s' pre run taken
    exact (step s e s' ⟨before, run⟩ both.1 holds.1 taken met).mp both.2
  · intro h
    have both : M.Always (fun s => P s ∧ J s) events := by
      refine (EveryStep.and.mpr ⟨known, h⟩).always ⟨init, start⟩ ?_
      intro s e s' reachable holds taken met
      have after : P s' := (step s e s' reachable holds.1 holds.2 taken met.1).mpr met.2
      exact ⟨after, keep s e s' reachable holds.2 taken met.1 holds.1 after⟩
    exact fun before s pre run => (both before s pre run).1

theorem always_iff_everyStep {P J : σ → Prop} {Q : σ → ε → σ → Prop} (init : P M.init)
    (start : J M.init)
    (keep : ∀ s e s', M.Reachable s → J s → M.step s e = some s' → P s → P s' → J s')
    (step : ∀ s e s', M.Reachable s → P s → J s → M.step s e = some s' → (P s' ↔ Q s e s'))
    (events : List ε) : M.Always P events ↔ M.EveryStep Q events := by
  have known : M.EveryStep (fun _ _ _ => True) events := fun _ _ _ _ _ _ _ => trivial
  exact known.always_iff init start
    (fun s e s' reachable holds taken _ => keep s e s' reachable holds taken)
    (fun s e s' reachable before holds taken _ => step s e s' reachable before holds taken)

/-- The rule for what is established once: `J` holds after every step that meets
`Q` and survives all steps. -/
theorem after_of_stable {Q : σ → ε → σ → Prop} {P J : σ → Prop}
    (establish : ∀ s e s', M.Reachable s → M.step s e = some s' → Q s e s' → J s')
    (keep : ∀ s e s', M.Reachable s → M.step s e = some s' → J s → J s')
    (conclude : ∀ s, J s → P s) (events : List ε) : M.After Q P events := by
  intro before e after s s' t _ run taken meets later
  suffices held : ∀ after t, M.Reaches (before ++ e :: after) t → J t from
    conclude t (held after t later)
  intro after t later
  induction after using List.reverseRecOn generalizing t with
  | nil =>
    obtain ⟨u, reached, stepped⟩ := reaches_concat.mp later
    cases Option.some.inj (run.symm.trans reached)
    cases Option.some.inj (taken.symm.trans stepped)
    exact establish s e s' ⟨before, run⟩ taken meets
  | append_singleton after a ih =>
    rw [← List.cons_append, ← List.append_assoc] at later
    obtain ⟨u, reached, stepped⟩ := reaches_concat.mp later
    exact keep u a t ⟨_, reached⟩ stepped (ih u reached)

/-- A step of a longer run is its last one or a step of the shorter. -/
theorem concat_prefix_concat {past events : List ε} {e e' : ε}
    (within : past ++ [e'] <+: events ++ [e]) :
    (past = events ∧ e' = e) ∨ past ++ [e'] <+: events := by
  rcases List.prefix_concat_iff.mp within with whole | earlier
  · obtain ⟨same, last⟩ := List.append_inj' whole rfl
    exact Or.inl ⟨same, List.singleton_inj.mp last⟩
  · exact Or.inr earlier

theorem outstanding_concat {Q R : σ → ε → Prop} {events : List ε} {e : ε} {s : σ}
    (run : M.Reaches events s) :
    M.Outstanding Q R (events ++ [e]) ↔ ¬ R s e ∧ (M.Outstanding Q R events ∨ Q s e) := by
  constructor
  · rintro ⟨before, e₀, after, s₀, whole, reached, meets, unmet⟩
    rcases List.eq_nil_or_concat after with rfl | ⟨after, last, rfl⟩
    · obtain ⟨rfl, same⟩ := List.append_inj' whole rfl
      obtain rfl := List.singleton_inj.mp same
      cases Option.some.inj (run.symm.trans reached)
      exact ⟨unmet _ _ _ List.prefix_rfl List.prefix_rfl run, Or.inr meets⟩
    · rw [List.concat_eq_append, ← List.cons_append, ← List.append_assoc] at whole
      obtain ⟨rfl, same⟩ := List.append_inj' whole rfl
      obtain rfl := List.singleton_inj.mp same
      refine ⟨unmet _ _ _ (List.prefix_append _ _) List.prefix_rfl run,
        Or.inl ⟨before, e₀, after, s₀, rfl, reached, meets, fun past e' u later within => ?_⟩⟩
      exact unmet past e' u later (within.trans (List.prefix_append _ _))
  · rintro ⟨last, ⟨before, e₀, after, s₀, rfl, reached, meets, unmet⟩ | meets⟩
    · refine ⟨before, e₀, after ++ [e], s₀, by simp, reached, meets,
        fun past e' u later within stepped => ?_⟩
      rcases concat_prefix_concat within with ⟨rfl, rfl⟩ | earlier
      · cases Option.some.inj (run.symm.trans stepped)
        exact last
      · exact unmet past e' u later earlier stepped
    · refine ⟨events, e, [], s, rfl, run, meets, fun past e' u later within stepped => ?_⟩
      rcases concat_prefix_concat within with ⟨rfl, rfl⟩ | earlier
      · cases Option.some.inj (run.symm.trans stepped)
        exact last
      · have longer := (later.trans (List.prefix_append past [e'])).length_le
        have shorter := earlier.length_le
        have past_length := later.length_le
        rw [List.length_append, List.length_singleton] at shorter
        omega

/-- The rule for a flag: what one kind of step sets and another clears is set exactly
while a step of the first kind is outstanding. -/
theorem flag_iff_outstanding {Q R : σ → ε → Prop} (flag : σ → Prop) (init : ¬ flag M.init)
    (step : ∀ s e s', M.step s e = some s' → (flag s' ↔ ¬ R s e ∧ (flag s ∨ Q s e)))
    {events : List ε} {s : σ} (run : M.Reaches events s) :
    flag s ↔ M.Outstanding Q R events := by
  refine reaches_induction (motive := fun past s => flag s ↔ M.Outstanding Q R past) ?_ ?_ run
  · refine iff_of_false init ?_
    rintro ⟨before, e, after, _, whole, _⟩
    simp at whole
  · intro past s e s' reached held taken
    rw [step s e s' taken, outstanding_concat reached, held]

/-! Both properties are decidable along one run, so a specification can be
evaluated on a concrete schedule. -/

instance (P : σ → Prop) [DecidablePred P] (events : List ε) : Decidable (M.Always P events) :=
  decidable_of_iff (∀ before ∈ events.inits, ∀ s ∈ M.run before, P s) <| by
    constructor
    · intro h before s pre run
      exact h before ((List.mem_inits before events).mpr pre) s run
    · intro h before member s run
      exact h before s ((List.mem_inits before events).mp member) run

theorem concat_prefix_iff {before events : List ε} {e : ε} :
    before ++ [e] <+: events ↔
      before = events.take before.length ∧ events[before.length]? = some e := by
  constructor
  · rintro ⟨rest, rfl⟩
    simp
  · rintro ⟨taken, found⟩
    obtain ⟨bound, rfl⟩ := List.getElem?_eq_some_iff.mp found
    have whole := List.take_append_drop (before.length + 1) events
    rw [List.take_succ_eq_append_getElem bound, ← taken] at whole
    exact ⟨_, whole⟩

instance (Q : σ → ε → σ → Prop) [∀ s e s', Decidable (Q s e s')] (events : List ε) :
    Decidable (M.EveryStep Q events) :=
  decidable_of_iff (∀ n ∈ List.range events.length, ∀ e ∈ events[n]?,
      ∀ s ∈ M.run (events.take n), ∀ s' ∈ M.step s e, Q s e s') <| by
    constructor
    · intro h before e s s' pre run taken
      obtain ⟨same, found⟩ := concat_prefix_iff.mp pre
      have bound : before.length < events.length :=
        (List.getElem?_eq_some_iff.mp found).1
      exact h before.length (List.mem_range.mpr bound) e found s (same ▸ run) s' taken
    · intro h n member e found s run s' taken
      have bound : n < events.length := List.mem_range.mp member
      have length : (events.take n).length = n := by simp [Nat.le_of_lt bound]
      exact h (events.take n) e s s'
        (concat_prefix_iff.mpr ⟨by rw [length], by rw [length]; exact found⟩) run taken

end EventSystem
