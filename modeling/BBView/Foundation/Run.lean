import Mathlib.Tactic

/-!
# Guarded runs of labelled transition systems

A system offers an executable step function; a disabled label returns `none`.  Reachability is
stated under a guard on the steps taken, so one induction serves both the unconditional safety
results and the results about runs whose steps all meet a condition.
-/

/-- A labelled transition system with an executable, partial step function. -/
structure Machine (σ α : Type*) where
  /-- The states a run may start from. -/
  Initial : σ → Prop
  /-- The successor under a label, or `none` when the label is disabled. -/
  step : σ → α → Option σ

namespace Machine

variable {σ α : Type*} {machine : Machine σ α} {allow : σ → α → Prop}

/-- The states reached by runs all of whose steps satisfy `allow`. -/
inductive ReachableUnder (machine : Machine σ α) (allow : σ → α → Prop) : σ → Prop
  | start {state : σ} : machine.Initial state → ReachableUnder machine allow state
  | next {before after : σ} {label : α} : ReachableUnder machine allow before →
      allow before label → machine.step before label = some after →
        ReachableUnder machine allow after

/-- The states reached by arbitrary runs. -/
def Reachable (machine : Machine σ α) : σ → Prop :=
  machine.ReachableUnder fun _ _ => True

/-- An inductive invariant of the allowed steps holds after every allowed run. -/
theorem ReachableUnder.invariant (Inv : σ → Prop)
    (initial : ∀ state, machine.Initial state → Inv state)
    (preserved : ∀ before label after, Inv before → allow before label →
      machine.step before label = some after → Inv after)
    {state : σ} (reach : machine.ReachableUnder allow state) : Inv state := by
  induction reach with
  | start isInitial => exact initial _ isInitial
  | next _ allowed stepped ih => exact preserved _ _ _ ih allowed stepped

theorem ReachableUnder.mono {weaker : σ → α → Prop}
    (weaken : ∀ state label, allow state label → weaker state label)
    {state : σ} (reach : machine.ReachableUnder allow state) :
    machine.ReachableUnder weaker state := by
  induction reach with
  | start isInitial => exact .start isInitial
  | next _ allowed stepped ih => exact .next ih (weaken _ _ allowed) stepped

theorem ReachableUnder.reachable {state : σ} (reach : machine.ReachableUnder allow state) :
    machine.Reachable state :=
  reach.mono fun _ _ _ => trivial

theorem Reachable.step {before after : σ} {label : α} (reach : machine.Reachable before)
    (stepped : machine.step before label = some after) : machine.Reachable after :=
  .next reach trivial stepped

/-- A relation that every allowed step of one machine keeps, whether a step of another machine matches
it or none does, relates each state so reached to a reachable state of the other. -/
theorem ReachableUnder.simulated {τ β : Type*} {target : Machine τ β} {R : σ → τ → Prop}
    {state : σ} (reach : machine.ReachableUnder allow state)
    (initial : ∀ state, machine.Initial state → ∃ image, target.Initial image ∧ R state image)
    (simulates : ∀ before label after image, machine.ReachableUnder allow before →
      allow before label → R before image → machine.step before label = some after →
        ∃ next, (next = image ∨ ∃ matching, target.step image matching = some next) ∧
          R after next) :
    ∃ image, target.Reachable image ∧ R state image := by
  induction reach with
  | start isInitial =>
      obtain ⟨image, image_initial, related⟩ := initial _ isInitial
      exact ⟨image, .start image_initial, related⟩
  | next before_reach allowed stepped ih =>
      obtain ⟨image, image_reach, related⟩ := ih
      obtain ⟨next, idle | ⟨matching, matched⟩, after_related⟩ :=
        simulates _ _ _ image before_reach allowed related stepped
      · exact ⟨next, idle ▸ image_reach, after_related⟩
      · exact ⟨next, image_reach.step matched, after_related⟩

/-- The same for arbitrary runs. -/
theorem Reachable.simulated {τ β : Type*} {target : Machine τ β} {R : σ → τ → Prop}
    {state : σ} (reach : machine.Reachable state)
    (initial : ∀ state, machine.Initial state → ∃ image, target.Initial image ∧ R state image)
    (simulates : ∀ before label after image, R before image →
      machine.step before label = some after →
        ∃ next, (next = image ∨ ∃ matching, target.step image matching = some next) ∧
          R after next) :
    ∃ image, target.Reachable image ∧ R state image := by
  refine ReachableUnder.simulated reach initial ?_
  intro before label after image _ _ related stepped
  exact simulates before label after image related stepped

/-- A run through a list of labels, all of whose steps satisfy `allow`. -/
inductive Run (machine : Machine σ α) (allow : σ → α → Prop) : σ → List α → σ → Prop
  | nil (state : σ) : Run machine allow state [] state
  | cons {before middle after : σ} {label : α} {labels : List α} : allow before label →
      machine.step before label = some middle → Run machine allow middle labels after →
        Run machine allow before (label :: labels) after

theorem Run.invariant {before after : σ} {labels : List α} (run : machine.Run allow before labels after)
    (Inv : σ → Prop)
    (preserved : ∀ before label after, Inv before → allow before label →
      machine.step before label = some after → Inv after) (holds : Inv before) : Inv after := by
  induction run with
  | nil => exact holds
  | cons allowed stepped _ ih => exact ih (preserved _ _ _ holds allowed stepped)

/-- A run that starts in a reached state ends in one. -/
theorem Run.reachableUnder {before after : σ} {labels : List α}
    (run : machine.Run allow before labels after) (reach : machine.ReachableUnder allow before) :
    machine.ReachableUnder allow after := by
  induction run with
  | nil => exact reach
  | cons allowed stepped _ ih => exact ih (reach.next allowed stepped)

theorem Run.append {first second third : σ} {front back : List α}
    (early : machine.Run allow first front second) (late : machine.Run allow second back third) :
    machine.Run allow first (front ++ back) third := by
  induction early with
  | nil => exact late
  | cons allowed stepped _ ih => exact .cons allowed stepped (ih late)

/-- What an observer who sees every step of a run has noted at its end. -/
def observe {β : Type*} (machine : Machine σ α) (note : σ → α → σ → β → β) : σ → List α → β → β
  | _, [], seen => seen
  | state, label :: labels, seen =>
      match machine.step state label with
      | none => seen
      | some next => machine.observe note next labels (note state label next seen)

/-- Where each step and its note keep a relation between the state and the notes, it holds at the
end of a run. -/
theorem Run.observed {β : Type*} {note : σ → α → σ → β → β} {before after : σ} {labels : List α}
    (run : machine.Run allow before labels after) (R : σ → β → Prop)
    (kept : ∀ before label after seen, R before seen → allow before label →
      machine.step before label = some after → R after (note before label after seen))
    {seen : β} (holds : R before seen) : R after (machine.observe note before labels seen) := by
  induction run generalizing seen with
  | nil => exact holds
  | cons allowed stepped _ ih =>
      rw [observe, stepped]
      exact ih (kept _ _ _ _ holds allowed stepped)

/-- An observer goes on from what has been noted so far. -/
theorem Run.observe_append {β : Type*} (note : σ → α → σ → β → β) {before after : σ}
    {front : List α} (run : machine.Run allow before front after) (back : List α) (seen : β) :
    machine.observe note before (front ++ back) seen =
      machine.observe note after back (machine.observe note before front seen) := by
  induction run generalizing seen with
  | nil => rfl
  | cons _ stepped _ ih =>
      simp only [List.cons_append, observe, stepped]
      exact ih _

/-- A measure that no step raises and each counted step lowers bounds the counted steps of a run. -/
theorem Run.countP_add_le {before after : σ} {labels : List α}
    (run : machine.Run allow before labels after) (Inv : σ → Prop) (measure : σ → ℕ)
    (counted : α → Bool)
    (preserved : ∀ before label after, Inv before → allow before label →
      machine.step before label = some after → Inv after)
    (lowers : ∀ before label after, Inv before → allow before label →
      machine.step before label = some after →
        measure after + (if counted label = true then 1 else 0) ≤ measure before)
    (holds : Inv before) : labels.countP counted + measure after ≤ measure before := by
  induction run with
  | nil => simp
  | @cons before middle after label labels allowed stepped _ ih =>
      have here := lowers before label middle holds allowed stepped
      have later := ih (preserved before label middle holds allowed stepped)
      rw [List.countP_cons]
      omega

/-- Replay a list of labels, failing at the first that is disabled or does not pass the check. -/
def replay (machine : Machine σ α) (check : σ → α → Bool) : σ → List α → Option σ
  | state, [] => some state
  | state, label :: labels =>
      if check state label = true then
        (machine.step state label).bind fun next => machine.replay check next labels
      else none

/-- What every step relates, a replay relates. -/
theorem rel_of_replay {R : σ → σ → Prop} (refl : ∀ state, R state state)
    (trans : ∀ {first second third}, R first second → R second third → R first third)
    (step : ∀ {before after label}, machine.step before label = some after → R before after)
    {check : σ → α → Bool} {before after : σ} {labels : List α}
    (replayed : machine.replay check before labels = some after) : R before after := by
  induction labels generalizing before with
  | nil =>
      obtain rfl : before = after := by simpa [Machine.replay] using replayed
      exact refl before
  | cons label labels ih =>
      simp only [Machine.replay, Option.ite_none_right_eq_some] at replayed
      obtain ⟨-, later⟩ := replayed
      obtain ⟨middle, stepped, rest⟩ := Option.bind_eq_some_iff.mp later
      exact trans (step stepped) (ih rest)

/-- A successful replay whose check is sound for a guard is a run under this guard. -/
theorem ReachableUnder.replay {check : σ → α → Bool}
    (sound : ∀ state label, check state label = true → allow state label) {before after : σ}
    {labels : List α} (reach : machine.ReachableUnder allow before)
    (replayed : machine.replay check before labels = some after) :
    machine.ReachableUnder allow after := by
  induction labels generalizing before with
  | nil =>
      obtain rfl : before = after := by simpa [Machine.replay] using replayed
      exact reach
  | cons label labels ih =>
      simp only [Machine.replay, Option.ite_none_right_eq_some] at replayed
      obtain ⟨passed, later⟩ := replayed
      obtain ⟨middle, stepped, rest⟩ := Option.bind_eq_some_iff.mp later
      exact ih (.next reach (sound before label passed) stepped) rest

/-- A successful replay is a run through its labels. -/
theorem Run.of_replay {check : σ → α → Bool}
    (sound : ∀ state label, check state label = true → allow state label) {before after : σ}
    {labels : List α} (replayed : machine.replay check before labels = some after) :
    machine.Run allow before labels after := by
  induction labels generalizing before with
  | nil =>
      obtain rfl : before = after := by simpa [Machine.replay] using replayed
      exact .nil before
  | cons label labels ih =>
      simp only [Machine.replay, Option.ite_none_right_eq_some] at replayed
      obtain ⟨passed, later⟩ := replayed
      obtain ⟨middle, stepped, rest⟩ := Option.bind_eq_some_iff.mp later
      exact .cons (sound before label passed) stepped (ih rest)

/-- A replay that ends in a state with a property reaches such a state. -/
theorem exists_reachableUnder_of_replay {check : σ → α → Bool}
    (sound : ∀ state label, check state label = true → allow state label) {start : σ}
    (isInitial : machine.Initial start) {labels : List α} {property : σ → Bool}
    (replayed : (machine.replay check start labels).any property = true) :
    ∃ state, machine.ReachableUnder allow state ∧ property state = true := by
  obtain ⟨state, ends, holds⟩ := (Option.any_eq_true _ _).mp replayed
  exact ⟨state, ReachableUnder.replay sound (.start isInitial) ends, holds⟩

/-- The same without a guard. -/
theorem exists_reachable_of_replay {start : σ} (isInitial : machine.Initial start)
    {labels : List α} {property : σ → Bool}
    (replayed : (machine.replay (fun _ _ => true) start labels).any property = true) :
    ∃ state, machine.Reachable state ∧ property state = true :=
  exists_reachableUnder_of_replay (fun _ _ _ => trivial) isInitial replayed

end Machine
